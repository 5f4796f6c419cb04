import EmbeddedLisp.Proofs.Bytes

/-!
# Nothing is lost in lexing

Running a lexer to its end takes a source text apart into pieces that lie side by side.
The tokens are the pieces that are not passed over, each with its own text and place,
and between them stand blanks and comments only. The form feed is the one character that
no rule takes: the first one outside comments and strings ends the run with a complaint,
and without such a form feed the whole text is taken.
-/

set_option autoImplicit false

namespace EmbeddedLisp

theorem mem_of_covered {before text after front rest : List Char} {c : Char}
    (h : before ++ (text ++ after) = front ++ c :: rest)
    (hlo : byteLength before ≤ byteLength front)
    (hhi : byteLength front < byteLength before + byteLength text) : c ∈ text := by
  have inside {x : List Char} (hx : x ++ c :: rest = text ++ after)
      (hlt : byteLength x < byteLength text) : c ∈ text := by
    rcases List.append_eq_append_iff.1 hx with ⟨z, rfl, hz⟩ | ⟨z, rfl, hz⟩
    · cases z with
      | nil => simp at hlt
      | cons d z =>
        simp only [List.cons_append, List.cons.injEq] at hz
        simp [hz.1]
    · rw [byteLength_append] at hlt
      omega
  rcases List.append_eq_append_iff.1 h with ⟨x, rfl, hx⟩ | ⟨y, rfl, hy⟩
  · rw [byteLength_append] at hhi
    exact inside hx.symm (by omega)
  · rw [byteLength_append] at hlo
    obtain rfl : y = [] := byteLength_eq_zero (by omega)
    rw [List.append_nil] at hhi
    exact inside (x := []) hy (by simp; omega)

namespace Token

def formFeed : Char := '\x0c'

theorem run?_cons_eq_none {belongs : Char → Bool} {c : Char} {tail : List Char}
    (h : run? belongs (c :: tail) = none) : belongs c = false := by
  cases hc : belongs c with
  | false => rfl
  | true => simp [run?, hc] at h

theorem firstMatch?_eq_none {c : Char} {tail : List Char} (h : firstMatch? (c :: tail) = none) :
    c = formFeed := by
  have hrule (kind : Kind) (hk : kind ∈ precedence) : kind.rule (c :: tail) = none :=
    Option.map_eq_none_iff.1 (List.findSome?_eq_none_iff.1 h kind hk)
  have hp : isPunctuation c = false := by
    simpa [Kind.rule, punctuation?] using hrule .punctuation (by decide)
  have hw : isSpace c = false := run?_cons_eq_none (hrule .whitespace (by decide))
  have hi : isIdentifierChar c = false := run?_cons_eq_none (hrule .identifier (by decide))
  simpa [isIdentifierChar, isBreak, hp, hw, formFeed] using hi

/-- A comment or a string, in which every character may stand. -/
def Kind.isOpen : Kind → Bool
  | .comment | .string => true
  | _ => false

theorem Fits.ne_nil {kind : Kind} {text rest : List Char} (h : Fits kind text rest) :
    text ≠ [] := by
  have hpos := firstMatch?_pos (firstMatch?_of_fits h)
  exact List.ne_nil_of_length_pos hpos

theorem Fits.no_formFeed {kind : Kind} {text rest : List Char} (h : Fits kind text rest)
    (hk : kind.isOpen = false) : formFeed ∉ text := by
  have no {belongs : Char → Bool} (hf : belongs formFeed = false) {text : List Char}
      (ht : ∀ c ∈ text, belongs c = true) : formFeed ∉ text := by
    intro hm
    simp [ht _ hm] at hf
  cases kind with
  | comment => simp [Kind.isOpen] at hk
  | string => simp [Kind.isOpen] at hk
  | float =>
    obtain ⟨whole, part, rfl, _, _, hw, hp, _⟩ := h
    have hdot : formFeed ≠ '.' := by decide
    simp [no (by decide) hw, no (by decide) hp, hdot]
  | integer => exact no (by decide) h.2.1
  | punctuation =>
    obtain ⟨c, rfl, hc⟩ := h
    have hall : ∀ d ∈ [c], isPunctuation d = true := by simpa using hc
    exact no (by decide) hall
  | whitespace => exact no (by decide) h.2.1
  | identifier => exact no (by decide) h.2.1

/-- Pieces taken off the front of a text one after another, and what they leave. -/
inductive Taken : List Char → List Piece → List Char → Prop
  | nil (rest : List Char) : Taken rest [] rest
  | cons {kind : Kind} {text rest left : List Char} {ps : List Piece} :
      Fits kind text rest → Taken rest ps left → Taken (text ++ rest) (⟨kind, text⟩ :: ps) left

def place : Nat → List Piece → List Token
  | _, [] => []
  | offset, p :: ps =>
    ⟨p.kind, String.ofList p.text, offset⟩ :: place (offset + byteLength p.text) ps

/-- Tokens side by side, the first of which begins and the last of which ends there. -/
def Tiles : Nat → Nat → List Token → Prop
  | start, stop, [] => start = stop
  | start, stop, t :: ts => t.offset = start ∧ Tiles t.stop stop ts

def Placed (source : List Char) (t : Token) : Prop :=
  ∃ before after, source = before ++ (t.literal.toList ++ after) ∧ byteLength before = t.offset ∧
    Fits t.kind t.literal.toList after

def concat (ts : List Token) : List Char := ts.flatMap fun t => t.literal.toList

theorem place_tiles (offset : Nat) (ps : List Piece) :
    Tiles offset (offset + byteLength (concat (place offset ps))) (place offset ps) := by
  induction ps generalizing offset with
  | nil => rfl
  | cons p ps ih =>
    refine ⟨rfl, ?_⟩
    have ih := ih (offset + byteLength p.text)
    simpa [place, concat, stop, length, Nat.add_assoc] using ih

theorem Taken.concat_place {input left : List Char} {ps : List Piece} (h : Taken input ps left)
    (offset : Nat) : input = concat (place offset ps) ++ left := by
  induction h generalizing offset with
  | nil => rfl
  | cons _ _ ih =>
    simp only [place, concat, List.flatMap_cons, String.toList_ofList, List.append_assoc]
    exact congrArg _ (ih _)

theorem Taken.placed {input left : List Char} {ps : List Piece} (h : Taken input ps left)
    (before : List Char) {t : Token} (ht : t ∈ place (byteLength before) ps) :
    Placed (before ++ input) t := by
  induction h generalizing before with
  | nil => simp [place] at ht
  | @cons kind text rest left ps hf _ ih =>
    rcases List.mem_cons.1 ht with rfl | ht
    · exact ⟨before, rest, by simp, rfl, by simpa using hf⟩
    · rw [← byteLength_append] at ht
      simpa using ih _ ht

end Token

namespace Lexer
open Token

def Ends (l : Lexer) (scan : Scan) (left : List Char) : Prop :=
  (scan.fault = none ∧ left = []) ∨
    (scan.fault = some ⟨l.name, l.source, scan.byte, formFeed⟩ ∧ left.head? = some formFeed)

theorem run_of_fits {l : Lexer} {kind : Kind} {text rest : List Char} (hf : Fits kind text rest)
    (hl : l.rest = text ++ rest) :
    l.run = { (l.drop text.length).run with
      tokens := [⟨kind, String.ofList text, l.byte⟩].filter (fun t => !t.kind.isDiscarded) ++
        (l.drop text.length).run.tokens } := by
  cases hd : kind.isDiscarded with
  | true =>
    rw [run_eq, next_of_fits hf hl, if_pos hd, ← run_eq]
    simp [hd]
  | false =>
    rw [run_eq, next_of_fits hf hl, if_neg (by simp [hd])]
    simp [hd, piece, hl]

theorem run_takes (l : Lexer) : ∃ ps left, Taken l.rest ps left ∧
    l.run.byte = l.byte + byteLength (concat (place l.byte ps)) ∧
    l.run.tokens = (place l.byte ps).filter (fun t => !t.kind.isDiscarded) ∧
    Ends l l.run left := by
  generalize hn : l.rest.length = n
  induction n using Nat.strongRecOn generalizing l with
  | _ n ih =>
    cases hl : l.rest with
    | nil =>
      refine ⟨[], [], .nil [], ?_⟩
      rw [run_eq, next_nil hl]
      exact ⟨rfl, rfl, .inl ⟨rfl, rfl⟩⟩
    | cons c tail =>
      cases hm : firstMatch? l.rest with
      | none =>
        obtain rfl : c = formFeed := firstMatch?_eq_none (hl ▸ hm)
        refine ⟨[], formFeed :: tail, .nil _, ?_⟩
        rw [run_eq, next_error hl hm]
        exact ⟨rfl, rfl, .inr ⟨rfl, rfl⟩⟩
      | some found =>
        obtain ⟨kind, k⟩ := found
        obtain ⟨text, rest, hr, rfl, hf⟩ := fits_of_firstMatch? hm
        have hshort := drop_length hl (firstMatch?_pos hm)
        obtain ⟨ps, left, ht, hb, hts, he⟩ := ih _ (hn ▸ hshort) (l.drop text.length) rfl
        have hbyte : (l.drop text.length).byte = l.byte + byteLength text := by simp [drop, hr]
        rw [drop_rest hr] at ht
        rw [hbyte] at hb hts
        refine ⟨⟨kind, text⟩ :: ps, left, hl ▸ hr ▸ .cons hf ht, ?_⟩
        rw [run_of_fits hf hr]
        refine ⟨?_, ?_, he⟩
        · simp [hb, place, concat, Nat.add_assoc]
        · simp only [hts, place, List.filter_cons]
          cases kind.isDiscarded <;> rfl

theorem run_tokens_of_cut {l : Lexer} {ps : List Piece} (h : Cut l.rest ps) :
    l.run.tokens = (place l.byte ps).filter fun t => !t.kind.isDiscarded := by
  generalize hr : l.rest = input at h
  induction h generalizing l with
  | nil =>
    rw [run_eq, next_nil hr]
    rfl
  | @cons kind text rest ps hf _ ih =>
    have hbyte : (l.drop text.length).byte = l.byte + byteLength text := by simp [drop, hr]
    have hrest := ih (drop_rest hr)
    rw [hbyte] at hrest
    rw [run_of_fits hf hr]
    simp only [hrest, place, ← List.filter_append, List.singleton_append]

def Scan.steps (scan : Scan) : List (Except Unmatched Token) :=
  scan.tokens.map .ok ++ scan.fault.toList.map .error

def after (l : Lexer) : Nat → Lexer
  | 0 => l
  | n + 1 => (l.after n).next.2

theorem next_rest {l l' : Lexer} {step : Option (Except Unmatched Token)}
    (h : l.next = (step, l')) (hs : ∀ t, step ≠ some (.ok t)) : l'.rest = [] := by
  fun_induction next l with
  | case1 l hr =>
    simp only [Prod.mk.injEq] at h
    exact h.2 ▸ hr
  | case2 l c text hr hm =>
    simp only [Prod.mk.injEq] at h
    simp [← h.2]
  | case3 l c text hr kind n hm hd ih => exact ih h
  | case4 l c text hr kind n hm hd =>
    simp only [Prod.mk.injEq] at h
    exact absurd h.1.symm (hs _)

theorem run_nil {l : Lexer} (h : l.rest = []) : l.run = ⟨[], none, l.byte⟩ := by
  rw [run_eq, next_nil h]

theorem next_steps (l : Lexer) : l.next.1 = l.run.steps.head? ∧
    l.next.2.run.steps = l.run.steps.tail ∧ l.next.2.run.byte = l.run.byte := by
  rw [run_eq (l := l)]
  match h : l.next with
  | (none, l') => simp [Scan.steps, run_nil (next_rest h (by simp))]
  | (some (.error e), l') => simp [Scan.steps, run_nil (next_rest h (by simp))]
  | (some (.ok t), l') => simp [Scan.steps]

theorem after_steps (l : Lexer) (n : Nat) :
    (l.after n).run.steps = l.run.steps.drop n ∧ (l.after n).run.byte = l.run.byte := by
  induction n with
  | zero => simp [after]
  | succ n ih =>
    obtain ⟨_, hs, hb⟩ := next_steps (l.after n)
    exact ⟨by rw [after, hs, ih.1, List.tail_drop], by rw [after, hb, ih.2]⟩

theorem next_after (l : Lexer) (n : Nat) : (l.after n).next.1 = l.run.steps[n]? := by
  rw [(next_steps _).1, (after_steps l n).1, List.head?_drop]

theorem after_end {l : Lexer} {n : Nat} (h : l.run.steps.length < n) :
    (l.after n).rest = [] ∧ (l.after n).byte = l.run.byte := by
  cases n with
  | zero => omega
  | succ n =>
    have hnone : (l.after n).next.1 = none := by
      rw [next_after, List.getElem?_eq_none (by omega)]
    have hrest : (l.after (n + 1)).rest = [] := next_rest (Prod.ext hnone rfl) (by simp)
    have hbyte := (after_steps l (n + 1)).2
    rw [run_nil hrest] at hbyte
    exact ⟨hrest, hbyte⟩

end Lexer

theorem tokenize_eq_of_cut {source : String} {ps : List Token.Piece} (h : Token.Cut source.toList ps) :
    tokenize source = .ok ((Token.place 0 ps).filter fun t => !t.kind.isDiscarded) := by
  have hcut : Token.Cut (Lexer.ofSource none source).rest ps := h
  simp only [tokenize, (Lexer.run_of_cut hcut).1, Lexer.run_tokens_of_cut hcut]
  rfl

namespace Token

theorem Tiles.le {start stop : Nat} {ts : List Token} (h : Tiles start stop ts) :
    start ≤ stop := by
  induction ts generalizing start with
  | nil => exact Nat.le_of_eq h
  | cons t ts ih =>
    obtain ⟨rfl, h⟩ := h
    exact Nat.le_trans (Nat.le_add_right _ _) (ih h)

theorem Tiles.mem {start stop : Nat} {ts : List Token} (h : Tiles start stop ts) {t : Token}
    (ht : t ∈ ts) : start ≤ t.offset ∧ t.stop ≤ stop := by
  induction ts generalizing start with
  | nil => simp at ht
  | cons u ts ih =>
    obtain ⟨rfl, h⟩ := h
    rcases List.mem_cons.1 ht with rfl | ht
    · exact ⟨Nat.le_refl _, h.le⟩
    · have := ih h ht
      exact ⟨Nat.le_trans (Nat.le_add_right _ _) this.1, this.2⟩

theorem Tiles.covers {start stop o : Nat} {ts : List Token} (h : Tiles start stop ts)
    (hlo : start ≤ o) (hhi : o < stop) : ∃ t ∈ ts, t.offset ≤ o ∧ o < t.stop := by
  induction ts generalizing start with
  | nil => exact absurd (Nat.lt_of_le_of_lt hlo hhi) (by simp [show start = stop from h])
  | cons t ts ih =>
    obtain ⟨rfl, h⟩ := h
    by_cases ho : o < t.stop
    · exact ⟨t, by simp, hlo, ho⟩
    · obtain ⟨u, hu, hcover⟩ := ih h (Nat.le_of_not_lt ho)
      exact ⟨u, by simp [hu], hcover⟩

theorem Tiles.pairwise {start stop : Nat} {ts : List Token} (h : Tiles start stop ts)
    (hpos : ∀ t ∈ ts, 0 < t.length) :
    ts.Pairwise fun t u => t.offset < u.offset ∧ t.stop ≤ u.offset := by
  induction ts generalizing start with
  | nil => exact .nil
  | cons t ts ih =>
    refine .cons (fun u hu => ?_) (ih h.2 fun u hu => hpos u (by simp [hu]))
    have hstop : t.stop ≤ u.offset := (h.2.mem hu).1
    have hlt : t.offset < t.stop := Nat.lt_add_of_pos_right (hpos t (by simp))
    exact ⟨Nat.lt_of_lt_of_le hlt hstop, hstop⟩

variable {source : List Char}

/-- A form feed at an offset that lies in no comment and in no string. -/
def Loose (source : List Char) (pieces : List Token) (offset : Nat) : Prop :=
  slice? offset 1 source = some [formFeed] ∧
    ∀ p ∈ pieces, p.kind.isOpen = true → ¬ (p.offset ≤ offset ∧ offset < p.stop)

def Gap (source : List Char) (p : Token) : Prop :=
  (∀ c ∈ p.literal.toList, c = ' ' ∨ c = '\t' ∨ c = '\n' ∨ c = '\r') ∨
    ∃ line before after, p.literal.toList = '/' :: '/' :: line ∧ '\n' ∉ line ∧
      cutAt? p.stop source = some (before, after) ∧ ∀ c ∈ after.head?, c = '\n'

theorem Placed.length_pos {t : Token} (h : Placed source t) : 0 < t.length := by
  obtain ⟨_, _, _, _, hf⟩ := h
  exact byteLength_pos hf.ne_nil

theorem Placed.slice? {t : Token} (h : Placed source t) :
    slice? t.offset t.length source = some t.literal.toList := by
  obtain ⟨before, after, rfl, hb, _⟩ := h
  exact hb ▸ slice?_append _ _ _

theorem Placed.cutAt_stop {t : Token} (h : Placed source t) : ∃ before after,
    cutAt? t.stop source = some (before, after) ∧ Fits t.kind t.literal.toList after := by
  obtain ⟨before, after, rfl, hb, hf⟩ := h
  refine ⟨before ++ t.literal.toList, after, ?_, hf⟩
  rw [cutAt?_eq_some_iff, List.append_assoc, byteLength_append, hb]
  exact ⟨rfl, rfl⟩

theorem Placed.gap {t : Token} (h : Placed source t) (hd : t.kind.isDiscarded = true) :
    Gap source t := by
  obtain ⟨before, after, hcut, hf⟩ := h.cutAt_stop
  cases hk : t.kind with
  | whitespace =>
    rw [hk] at hf
    exact .inl fun c hc => by simpa [isSpace] using hf.2.1 c hc
  | comment =>
    rw [hk] at hf
    obtain ⟨line, ht, hline, hs⟩ := hf
    refine .inr ⟨line, before, after, ht, fun hm => hline _ hm rfl, hcut, fun c hc => ?_⟩
    simpa using hs c hc
  | _ => simp [hk, Kind.isDiscarded] at hd

theorem Placed.isOpen {t : Token} (h : Placed source t) {o : Nat}
    (ho : EmbeddedLisp.slice? o 1 source = some [formFeed]) (hlo : t.offset ≤ o)
    (hhi : o < t.stop) : t.kind.isOpen = true := by
  obtain ⟨before, after, rfl, hb, hf⟩ := h
  obtain ⟨front, rest, he, rfl, _⟩ := slice?_eq_some_iff.1 ho
  rw [← hb] at hlo
  have hm : formFeed ∈ t.literal.toList := mem_of_covered he hlo (hb ▸ hhi)
  cases hk : t.kind.isOpen with
  | true => rfl
  | false => exact absurd hm (hf.no_formFeed hk)

end Token

namespace Lexer
open Token

/-- A scan takes a source text apart into pieces and loses nothing of it. -/
structure Lossless (source : List Char) (pieces : List Token) (scan : Scan) : Prop where
  tiles : Tiles 0 scan.byte pieces
  whole : ∃ left, cutAt? scan.byte source = some (concat pieces, left)
  nonEmpty : ∀ p ∈ pieces, 0 < p.length
  located : ∀ p ∈ pieces, slice? p.offset p.length source = some p.literal.toList
  fits : ∀ p ∈ pieces, ∃ before after, cutAt? p.stop source = some (before, after) ∧
    Fits p.kind p.literal.toList after
  tokens : scan.tokens = pieces.filter fun p => !p.kind.isDiscarded
  apart : scan.tokens.Pairwise fun t u => t.offset < u.offset ∧ t.stop ≤ u.offset
  gaps : ∀ p ∈ pieces, p.kind.isDiscarded = true → Gap source p

/-- What ends a scan: nothing is left of the text, or the first form feed outside comments
and strings is reached. -/
structure Concluded (name source : String) (pieces : List Token) (scan : Scan) : Prop where
  finished : scan.fault = none → scan.byte = byteLength source.toList
  faulty : scan.fault ≠ none ↔ ∃ o, Loose source.toList pieces o
  fault : ∀ e ∈ scan.fault, e = ⟨name, source, scan.byte, '\x0c'⟩ ∧
    Loose source.toList pieces scan.byte ∧ ∀ o < scan.byte, ¬ Loose source.toList pieces o

section
variable {source left : List Char} {ps : List Piece} {scan : Scan}

theorem lossless_of_taken (ht : Taken source ps left)
    (hb : scan.byte = byteLength (concat (place 0 ps)))
    (hts : scan.tokens = (place 0 ps).filter fun t => !t.kind.isDiscarded) :
    Lossless source (place 0 ps) scan := by
  have hplaced : ∀ p ∈ place 0 ps, Placed source p := fun p hp => ht.placed [] hp
  have htiles : Tiles 0 scan.byte (place 0 ps) := by simpa [hb] using place_tiles 0 ps
  have hpos : ∀ p ∈ place 0 ps, 0 < p.length := fun p hp => (hplaced p hp).length_pos
  exact {
    tiles := htiles
    whole := ⟨left, cutAt?_eq_some_iff.2 ⟨ht.concat_place 0, hb.symm⟩⟩
    nonEmpty := hpos
    located := fun p hp => (hplaced p hp).slice?
    fits := fun p hp => (hplaced p hp).cutAt_stop
    tokens := hts
    apart := hts ▸ (htiles.pairwise hpos).filter _
    gaps := fun p hp => (hplaced p hp).gap }

theorem not_loose_of_lt (ht : Taken source ps left)
    (htiles : Tiles 0 scan.byte (place 0 ps)) {o : Nat} (ho : o < scan.byte) :
    ¬ Loose source (place 0 ps) o := by
  intro hloose
  obtain ⟨p, hp, hlo, hhi⟩ := htiles.covers (Nat.zero_le o) ho
  have hplaced : Placed source p := ht.placed [] hp
  exact hloose.2 p hp (hplaced.isOpen hloose.1 hlo hhi) ⟨hlo, hhi⟩

theorem loose_of_left (ht : Taken source ps left) (hleft : left.head? = some formFeed)
    (hb : scan.byte = byteLength (concat (place 0 ps)))
    (htiles : Tiles 0 scan.byte (place 0 ps)) : Loose source (place 0 ps) scan.byte := by
  refine ⟨?_, fun p hp _ hcover => ?_⟩
  · obtain ⟨tail, rfl⟩ : ∃ tail, left = formFeed :: tail := by
      cases left with
      | nil => simp at hleft
      | cons c tail => exact ⟨tail, by simpa using hleft⟩
    exact slice?_eq_some_iff.2 ⟨concat (place 0 ps), tail, ht.concat_place 0, hb.symm, by decide⟩
  · have := (htiles.mem hp).2
    omega

theorem concluded_of_ends {l : Lexer} (ht : Taken l.source.toList ps left)
    (hb : scan.byte = byteLength (concat (place 0 ps)))
    (htiles : Tiles 0 scan.byte (place 0 ps)) (he : Ends l scan left) :
    Concluded l.name l.source (place 0 ps) scan := by
  have hbefore {o : Nat} (ho : o < scan.byte) : ¬ Loose l.source.toList (place 0 ps) o :=
    not_loose_of_lt ht htiles ho
  rcases he with ⟨hnone, rfl⟩ | ⟨hsome, hleft⟩
  · have hend : scan.byte = byteLength l.source.toList := by
      rw [ht.concat_place 0, List.append_nil, hb]
    refine ⟨fun _ => hend, ?_, by simp [hnone]⟩
    simp only [hnone, ne_eq, not_true_eq_false, false_iff, not_exists]
    intro o hloose
    by_cases ho : o < scan.byte
    · exact hbefore ho hloose
    · exact slice?_ne_of_end (by omega) _ hloose.1
  · have hloose := loose_of_left ht hleft hb htiles
    refine ⟨by simp [hsome], by simpa [hsome] using ⟨_, hloose⟩, fun e hmem => ?_⟩
    rw [hsome, Option.mem_some_iff] at hmem
    exact ⟨hmem.symm, hloose, fun o ho => hbefore ho⟩

end

/-- Nothing is lost in lexing. The source text up to the offset that a run reaches is a
sequence of pieces, the tokens are those that are not passed over, and the run ends with the
text or at the first form feed outside comments and strings. The lexer that cuts at byte
offsets takes the same course, and calls give the tokens one by one, then the complaint if
there is one, and then nothing. -/
theorem lexing_loses_nothing (name : Option String) (source : String) :
    let l := ofSource name source
    (∃ pieces, Lossless source.toList pieces l.run ∧
      Concluded (name.getD "<input>") source pieces l.run) ∧
    l.runBytes = .ok l.run ∧
    (∀ n, (l.after n).next.1 = l.run.steps[n]?) ∧
    ∀ n, (l.after (l.run.steps.length + n + 1)).rest = [] ∧
      (l.after (l.run.steps.length + n + 1)).byte = l.run.byte := by
  intro l
  refine ⟨?_, runBytes_eq l, next_after l, fun n => after_end (by omega)⟩
  obtain ⟨ps, left, ht, hb, hts, he⟩ := run_takes l
  have ht : Taken l.source.toList ps left := ht
  have hb : l.run.byte = byteLength (concat (place 0 ps)) := by simpa [l, ofSource] using hb
  have hall : Lossless source.toList (place 0 ps) l.run := lossless_of_taken ht hb hts
  exact ⟨place 0 ps, hall, concluded_of_ends ht hb hall.tiles he⟩

example : (ofSource none "\"\x0c\" é\x0cb").run.fault =
    some ⟨"<input>", "\"\x0c\" é\x0cb", 6, '\x0c'⟩ := by decide +kernel

end Lexer

end EmbeddedLisp
