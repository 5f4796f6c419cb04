import EmbeddedLisp.Proofs.Forms
import EmbeddedLisp.Proofs.RoundTrip

/-!
# Source texts one behind another

Texts that are joined by line breaks are cut, read and evaluated like the texts in turn.
A line break ends every piece of a text except a quote left open, which may be closed by
any later text. Derivations do not see where tokens stand, and no expression begins with
a dot, so that the expressions of the joined text are those of its parts. Evaluating them
in one sequence is evaluating one sequence after the other.
-/

set_option autoImplicit false

namespace EmbeddedLisp.Token
open EmbeddedLisp.Digits

theorem cut_spaces {blanks text : List Char} {ps : List Piece} (hne : blanks ≠ [])
    (hs : ∀ c ∈ blanks, isSpace c = true) (h : Cut text ps) :
    ∃ qs, Cut (blanks ++ text) qs ∧ significant qs = significant ps := by
  have apart (hr : Stops isSpace text) :
      ∃ qs, Cut (blanks ++ text) qs ∧ significant qs = significant ps := by
    have hf : Fits .whitespace blanks text := ⟨hne, hs, hr⟩
    exact ⟨_, .cons hf h, by simp [significant, Kind.isDiscarded]⟩
  cases h with
  | nil => exact apart (by simp [Stops])
  | @cons kind first rest ps hf hcut =>
    by_cases hk : kind = .whitespace
    · subst hk
      obtain ⟨hne', hs', hr⟩ := hf
      have hall : ∀ c ∈ blanks ++ first, isSpace c = true := by
        intro c hc
        rcases List.mem_append.1 hc with hc | hc
        · exact hs c hc
        · exact hs' c hc
      have hf : Fits .whitespace (blanks ++ first) rest := ⟨by simp [hne], hall, hr⟩
      refine ⟨⟨.whitespace, blanks ++ first⟩ :: ps, ?_, by simp [significant, Kind.isDiscarded]⟩
      rw [← List.append_assoc]
      exact .cons hf hcut
    · obtain ⟨c, tail, rfl, hc⟩ := hf.begins hk
      exact apart (by simpa [Stops] using hc)

theorem stops_append {belongs : Char → Bool} {rest : List Char} (h : Stops belongs rest)
    (hn : belongs '\n' = false) (more : List Char) : Stops belongs (rest ++ '\n' :: more) := by
  cases rest with
  | nil => simpa [Stops] using hn
  | cons c rest => simpa [Stops] using h

theorem not_fraction_append {rest : List Char} (h : ¬ Fraction rest) (more : List Char) :
    ¬ Fraction (rest ++ '\n' :: more) := by
  rintro ⟨d, tail, he, hd⟩
  match rest with
  | [] => simp at he
  | [c] =>
    simp only [List.cons_append, List.nil_append, List.cons.injEq] at he
    rw [← he.2.1] at hd
    exact absurd hd (by decide)
  | c :: e :: rest =>
    simp only [List.cons_append, List.cons.injEq] at he
    exact h ⟨e, rest, by rw [he.1], he.2.1 ▸ hd⟩

theorem Fits.append_line {kind : Kind} {text rest : List Char} (h : Fits kind text rest)
    (hk : kind = .whitespace → rest ≠ []) (ho : ¬ Piece.Opens ⟨kind, text⟩) (more : List Char) :
    Fits kind text (rest ++ '\n' :: more) := by
  cases kind with
  | comment =>
    obtain ⟨line, ht, hl, hr⟩ := h
    exact ⟨line, ht, hl, stops_append hr (by decide) more⟩
  | float =>
    obtain ⟨whole, part, ht, hne, hne', hw, hp, hr⟩ := h
    exact ⟨whole, part, ht, hne, hne', hw, hp, stops_append hr (by decide) more⟩
  | integer =>
    obtain ⟨hne, ht, hr, hf⟩ := h
    exact ⟨hne, ht, stops_append hr (by decide) more, not_fraction_append hf more⟩
  | string => exact h
  | punctuation => exact h
  | whitespace =>
    obtain ⟨hne, ht, hr⟩ := h
    obtain ⟨c, rest, rfl⟩ := List.exists_cons_of_ne_nil (hk rfl)
    exact ⟨hne, ht, by simpa [Stops] using hr⟩
  | identifier =>
    obtain ⟨hf, hr, _⟩ := fits_identifier_iff.1 h
    exact fits_identifier_iff.2
      ⟨hf, stops_append hr (by decide) more, fun hq => absurd ⟨rfl, hq⟩ ho⟩

theorem Cut.eq_nil {ps : List Piece} (h : Cut [] ps) : ps = [] := by
  generalize ht : ([] : List Char) = text at h
  cases h with
  | nil => rfl
  | cons hf _ =>
    have hpos := firstMatch?_pos (firstMatch?_of_fits hf)
    rw [(List.append_eq_nil_iff.1 ht.symm).1] at hpos
    simp at hpos

theorem Cut.append_line {text more : List Char} {ps qs : List Piece} (h : Cut text ps)
    (ho : ∀ p ∈ ps, ¬ p.Opens) (hm : Cut more qs) :
    ∃ rs, Cut (text ++ '\n' :: more) rs ∧ significant rs = significant ps ++ significant qs := by
  have hnl : isSpace '\n' = true := by decide
  have hbreak : ∀ c ∈ ['\n'], isSpace c = true := by simpa using hnl
  induction h with
  | nil =>
    have hline : ∃ rs, Cut (['\n'] ++ more) rs ∧ significant rs = significant qs :=
      cut_spaces (by simp) hbreak hm
    exact hline
  | @cons kind text rest ps hf hcut ih =>
    by_cases hk : kind = .whitespace ∧ rest = []
    · -- the line break becomes part of the blanks at the end
      obtain ⟨rfl, rfl⟩ := hk
      obtain ⟨hne, hs, _⟩ := hf
      have hall : ∀ c ∈ text ++ ['\n'], isSpace c = true := by
        intro c hc
        rcases List.mem_append.1 hc with hc | hc
        · exact hs c hc
        · rw [List.mem_singleton.1 hc]
          exact hnl
      obtain ⟨rs, hrs, hsig⟩ := cut_spaces (by simp) hall hm
      refine ⟨rs, by simpa using hrs, ?_⟩
      rw [hcut.eq_nil, hsig]
      simp [significant, Kind.isDiscarded]
    · obtain ⟨rs, hrs, hsig⟩ := ih fun p hp => ho p (by simp [hp])
      have hf := hf.append_line (fun hw hr => hk ⟨hw, hr⟩) (ho _ (by simp)) more
      refine ⟨⟨kind, text⟩ :: rs, ?_, ?_⟩
      · rw [List.append_assoc]
        exact .cons hf hrs
      · cases hd : kind.isDiscarded <;> simpa [significant, hd] using hsig

end EmbeddedLisp.Token

namespace EmbeddedLisp.Grammar
open Token (piece)

theorem Sequence.append {α : Type} {R : List Token → α → Prop} {ts us : List Token}
    {vs ws : List α} (h : Sequence R ts vs) (hu : Sequence R us ws) :
    Sequence R (ts ++ us) (vs ++ ws) := by
  induction h with
  | nil => exact hu
  | cons hv _ ih =>
    rw [List.append_assoc]
    exact .cons hv ih

theorem same_of_piece {t u : Token} (h : u.piece = t.piece) :
    u.kind = t.kind ∧ u.literal = t.literal := by
  simp only [piece, Token.Piece.mk.injEq] at h
  exact ⟨h.1, String.toList_inj.1 h.2⟩

theorem IsMark.of_piece {m : Reader.Mark} {t u : Token} (h : IsMark m t)
    (hp : u.piece = t.piece) : IsMark m u := by
  obtain ⟨hk, hl⟩ := same_of_piece hp
  exact ⟨hk.trans h.1, hl.trans h.2⟩

theorem Leaf.of_piece {t u : Token} {v : Value} (h : Leaf t v) (hp : u.piece = t.piece) :
    Leaf u v := by
  obtain ⟨hk, hl⟩ := same_of_piece hp
  cases h with
  | identifier h => exact hl ▸ .identifier (hk.trans h)
  | integer h hn => exact .integer (hk.trans h) (hl ▸ hn)
  | float h hx => exact .float (hk.trans h) (hl ▸ hx)
  | string h hb hd => exact .string (hk.trans h) (hl ▸ hb) hd

theorem Accessors.of_pieces {ts us : List Token} {keys : List Value} (h : Accessors ts keys)
    (hp : us.map piece = ts.map piece) : Accessors us keys := by
  induction h generalizing us with
  | nil =>
    obtain rfl : us = [] := by simpa using hp
    exact .nil
  | cons hm hk hf _ ih =>
    obtain ⟨dot, us, rfl, hd, hp⟩ := List.map_eq_cons_iff.1 hp
    obtain ⟨key, us, rfl, hkey, hp⟩ := List.map_eq_cons_iff.1 hp
    exact .cons (hm.of_piece hd) (hk.of_piece hkey) ((same_of_piece hkey).1 ▸ hf) (ih hp)

/-- Tokens of the same kinds and texts derive the value as well, wherever they stand. -/
def Placeless (ts : List Token) (v : Value) : Prop :=
  ∀ us : List Token, us.map piece = ts.map piece → Expression us v

theorem Sequence.of_pieces {α : Type} {R S : List Token → α → Prop} {ts us : List Token}
    {vs : List α} (h : Sequence R ts vs)
    (hR : ∀ ts v, R ts v → ∀ us : List Token, us.map piece = ts.map piece → S us v)
    (hp : us.map piece = ts.map piece) : Sequence S us vs := by
  induction h generalizing us with
  | nil =>
    obtain rfl : us = [] := by simpa using hp
    exact .nil
  | cons hv _ ih =>
    rw [List.map_append] at hp
    obtain ⟨us, ws, rfl, hus, hws⟩ := List.map_eq_append_iff.1 hp
    exact .cons (hR _ _ hv _ hus) (ih hws)

theorem Entry.of_pieces {ts us : List Token} {e : Value × Value} (h : Entry Placeless ts e)
    (hp : us.map piece = ts.map piece) : Entry Expression us e := by
  obtain ⟨hk, hv⟩ := h
  rw [List.map_append] at hp
  obtain ⟨us, ws, rfl, hus, hws⟩ := List.map_eq_append_iff.1 hp
  exact ⟨hk _ hus, hv _ hws⟩

theorem bracketed_of_same_pieces {m n : Reader.Mark} {first last : Token} {ts us : List Token}
    (hf : IsMark m first) (hl : IsMark n last)
    (hp : us.map piece = (first :: ts ++ [last]).map piece) :
    ∃ first' us' last', us = first' :: us' ++ [last'] ∧ IsMark m first' ∧ IsMark n last' ∧
      us'.map piece = ts.map piece := by
  rw [List.cons_append, List.map_cons, List.map_append] at hp
  obtain ⟨first', us, rfl, hfirst, hp⟩ := List.map_eq_cons_iff.1 hp
  obtain ⟨us', us'', rfl, hinner, hp⟩ := List.map_eq_append_iff.1 hp
  obtain ⟨last', us'', rfl, hlast, hnil⟩ := List.map_eq_cons_iff.1 hp
  obtain rfl : us'' = [] := by simpa using hnil
  exact ⟨first', us', last', rfl, hf.of_piece hfirst, hl.of_piece hlast, hinner⟩

theorem placeless_closed : Closed Placeless where
  leaf hl us hp := by
    obtain ⟨u, us, rfl, hu, hnil⟩ := List.map_eq_cons_iff.1 hp
    obtain rfl : us = [] := by simpa using hnil
    exact .bare (.leaf (hl.of_piece hu))
  apply hf hs hl us hp := by
    obtain ⟨first, us, last, rfl, hf, hl, hp⟩ := bracketed_of_same_pieces hf hl hp
    exact .bare (.apply hf (hs.of_pieces (fun _ _ h => h) hp) hl)
  list hf hs hl us hp := by
    obtain ⟨first, us, last, rfl, hf, hl, hp⟩ := bracketed_of_same_pieces hf hl hp
    exact .bare (.list hf (hs.of_pieces (fun _ _ h => h) hp) hl)
  map hf hs hl us hp := by
    obtain ⟨first, us, last, rfl, hf, hl, hp⟩ := bracketed_of_same_pieces hf hl hp
    exact .bare (.map hf (hs.of_pieces (fun _ _ h _ => h.of_pieces) hp) hl)
  quote hf hb us hp := by
    obtain ⟨first, us, rfl, hfirst, hp⟩ := List.map_eq_cons_iff.1 hp
    exact .bare (.quote (hf.of_piece hfirst) (hb us hp))
  unquote hf hb us hp := by
    obtain ⟨first, us, rfl, hfirst, hp⟩ := List.map_eq_cons_iff.1 hp
    exact .bare (.unquote (hf.of_piece hfirst) (hb us hp))
  drill hform hq hb ha hk us hp := by
    rw [List.map_append] at hp
    obtain ⟨us, ws, rfl, hus, hws⟩ := List.map_eq_append_iff.1 hp
    exact .drill ((hb us hus).form hform) hq (ha.of_pieces hws) hk

theorem statements_of_pieces {ts us : List Token} {vs : List Value}
    (h : Sequence Expression ts vs) (hp : us.map piece = ts.map piece) :
    Sequence Expression us vs :=
  h.of_pieces (fun _ _ hv => hv.of_closed placeless_closed) hp

end EmbeddedLisp.Grammar

namespace EmbeddedLisp
open Token Grammar

/-- The program of a text is this sequence of expressions. -/
def Holds (source : String) (vs : List Value) : Prop :=
  readSource source = .ok (.apply (.symbol "do" :: vs))

theorem holds_iff {source : String} {vs : List Value} : Holds source vs ↔
    ∃ ts, tokenize source = .ok ts ∧ Sequence Expression ts vs ∧
      ∀ v ∈ vs, v.nesting ≤ Reader.nestingLimit := by
  rw [Holds, readSource_ok_iff]
  constructor
  · rintro ⟨ts, ws, ht, hw, h⟩
    simp only [Value.apply.injEq, List.cons.injEq, true_and] at hw
    exact ⟨ts, ht, hw ▸ h⟩
  · rintro ⟨ts, ht, h⟩
    exact ⟨ts, vs, ht, rfl, h⟩

theorem Holds.of_ok {source : String} {program : Value} (h : readSource source = .ok program) :
    ∃ vs, Holds source vs := by
  obtain ⟨ts, vs, _, rfl, _⟩ := readSource_ok_iff.1 h
  exact ⟨vs, h⟩

/-- No name in the text begins with a quote. -/
def Unopened (source : String) : Prop := ∀ ts, tokenize source = .ok ts → ¬ Opened ts

instance (p : Piece) : Decidable p.Opens := inferInstanceAs (Decidable (_ ∧ _))

instance (ts : List Token) : Decidable (Opened ts) :=
  inferInstanceAs (Decidable (∃ t ∈ ts, t.piece.Opens))

instance (source : String) : Decidable (Unopened source) :=
  match h : tokenize source with
  | .ok ts => decidable_of_iff (¬ Opened ts) ⟨fun ho us hu => by simp_all, fun ho => ho ts h⟩
  | .error e => isTrue fun ts ht => by simp [h] at ht

theorem holds_line {source more text : String} {vs ws : List Value} (h : Holds source vs)
    (ho : Unopened source) (hm : Holds more ws)
    (ht : text.toList = source.toList ++ '\n' :: more.toList) : Holds text (vs ++ ws) := by
  obtain ⟨ts, hts, hvs, hn⟩ := holds_iff.1 h
  obtain ⟨us, hus, hws, hn'⟩ := holds_iff.1 hm
  obtain ⟨ps, hps, hp⟩ := cut_of_tokenize hts
  obtain ⟨qs, hqs, hq⟩ := cut_of_tokenize hus
  have hopen : ∀ p ∈ ps, ¬ p.Opens := by
    intro p hmem hopens
    have hsig : p ∈ significant ps :=
      List.mem_filter.2 ⟨hmem, by rw [hopens.1]; rfl⟩
    rw [← hp] at hsig
    obtain ⟨t, ht, rfl⟩ := List.mem_map.1 hsig
    exact ho ts hts ⟨t, ht, hopens⟩
  obtain ⟨rs, hrs, hr⟩ := hps.append_line hopen hqs
  rw [← ht] at hrs
  obtain ⟨tokens, htokens, hpieces⟩ := tokenize_of_cut hrs
  rw [hr, ← hp, ← hq, ← List.map_append] at hpieces
  refine holds_iff.2 ⟨tokens, htokens, statements_of_pieces (hvs.append hws) hpieces, ?_⟩
  intro v hv
  rcases List.mem_append.1 hv with hv | hv
  · exact hn v hv
  · exact hn' v hv

theorem holds_empty : Holds "" [] := by
  have hcut : Cut "".toList [] := .nil
  obtain ⟨ts, hts, hp⟩ := tokenize_of_cut hcut
  obtain rfl : ts = [] := by simpa [significant] using hp
  exact holds_iff.2 ⟨[], hts, .nil, by simp⟩

def expressionsOf (source : String) : List Value :=
  match readSource source with
  | .ok (.apply (_ :: vs)) => vs
  | _ => []

theorem Holds.expressionsOf {source : String} {vs : List Value} (h : Holds source vs) :
    expressionsOf source = vs := by
  unfold EmbeddedLisp.expressionsOf
  rw [h]

def joinLines (sources : List String) : String := "\n".intercalate sources

theorem holds_joinLines {sources : List String} (hr : ∀ s ∈ sources, ∃ vs, Holds s vs)
    (ho : ∀ s ∈ sources.dropLast, Unopened s) :
    Holds (joinLines sources) (sources.flatMap expressionsOf) := by
  match sources with
  | [] => exact holds_empty
  | [source] =>
    obtain ⟨vs, hvs⟩ := hr source (by simp)
    have hone : joinLines [source] = source := by
      rw [← String.toList_inj]
      simp [joinLines]
    simpa [hone, hvs.expressionsOf] using hvs
  | source :: next :: rest =>
    obtain ⟨vs, hvs⟩ := hr source (by simp)
    have hrest : Holds (joinLines (next :: rest)) ((next :: rest).flatMap expressionsOf) :=
      holds_joinLines (fun s hs => hr s (by simp [hs])) fun s hs => ho s (by simp [hs])
    have hline : (joinLines (source :: next :: rest)).toList =
        source.toList ++ '\n' :: (joinLines (next :: rest)).toList := by
      simp [joinLines, String.toList_intercalate]
    rw [List.flatMap_cons, hvs.expressionsOf]
    exact holds_line hvs (ho source (by simp)) hrest hline

namespace Evaluation
variable {σ : Type} {host : Host σ} {limit : Option Nat}

theorem evalSequence_append (vs ws : List Value) (last : Value) (depth : Nat) :
    evalSequence host limit (vs ++ ws) last depth = (do
      evalSequence host limit ws (← evalSequence host limit vs last depth) depth) := by
  induction vs generalizing last with
  | nil => simp [evalSequence]
  | cons v vs ih => simp only [List.cons_append, evalSequence, ih, bind_assoc]

theorem evaluate_statements (vs : List Value) :
    evaluate host (.apply (.symbol "do" :: vs)) =
      evalSequence host (some depthLimit) vs .nil 1 := by
  have hf : Form.of? (.symbol "do") = some .sequence := by decide
  simp [evaluate, evalAt, within, evalApply_sequence hf]

end Evaluation

namespace Machine
open Evaluation
variable {σ : Type}

def close : EStateM.Result Stop (Machine σ) Value → Except Halt Value × Machine σ
  | .ok v m => (.ok v, m)
  | .error stop m => (.error (contain stop), m)

theorem eval_of_holds (host : Host σ) {source : String} {vs : List Value} (h : Holds source vs)
    (m : Machine σ) :
    m.eval host source = close (evalSequence host (some depthLimit) vs .nil 1 m) := by
  simp only [eval, show readSource source = _ from h, evaluate, evaluate_statements]
  cases evalSequence host (some depthLimit) vs .nil 1 m <;> rfl

/-- Evaluates texts in turn, up to the first that fails. The value is that of the last text
that holds an expression, or the given one if none does. -/
def evalEach (host : Host σ) : List String → Value → Machine σ → Except Halt Value × Machine σ
  | [], last, m => (.ok last, m)
  | source :: rest, last, m =>
    match m.eval host source with
    | (.error halt, m) => (.error halt, m)
    | (.ok v, m) => evalEach host rest (if (expressionsOf source).isEmpty then last else v) m

theorem evalEach_eq (host : Host σ) {sources : List String}
    (hr : ∀ s ∈ sources, ∃ vs, Holds s vs) (last : Value) (m : Machine σ) :
    m.evalEach host sources last =
      close (evalSequence host (some depthLimit) (sources.flatMap expressionsOf) last 1 m) := by
  induction sources generalizing last m with
  | nil => simp [evalEach, evalSequence, pure, EStateM.pure, close]
  | cons source rest ih =>
    obtain ⟨vs, hvs⟩ := hr source (by simp)
    have ih := ih fun s hs => hr s (by simp [hs])
    rw [evalEach, eval_of_holds host hvs, List.flatMap_cons, evalSequence_append,
      hvs.expressionsOf]
    change _ = close (EStateM.bind _ _ m)
    unfold EStateM.bind
    cases vs with
    | nil => simpa [evalSequence, pure, EStateM.pure, close] using ih last m
    | cons v vs =>
      have hlast : evalSequence host (some depthLimit) (v :: vs) last 1 m =
          evalSequence host (some depthLimit) (v :: vs) .nil 1 m := by
        simp only [evalSequence]
      rw [hlast]
      cases evalSequence host (some depthLimit) (v :: vs) .nil 1 m with
      | ok w left => exact ih w left
      | error stop left => rfl

end Machine

/-- Texts that are joined by line breaks give the same value or error, the same bindings and
the same output as the texts in turn, up to the first that fails. Only the last of them may
leave a quote open. -/
theorem eval_joined_eq_evalEach {σ : Type} (host : Host σ) (sources : List String)
    (hr : ∀ s ∈ sources, ∃ program, readSource s = .ok program)
    (ho : ∀ s ∈ sources.dropLast, Unopened s) (m : Machine σ) :
    m.eval host (joinLines sources) = m.evalEach host sources .nil := by
  have hholds : ∀ s ∈ sources, ∃ vs, Holds s vs := by
    intro s hs
    obtain ⟨program, hp⟩ := hr s hs
    exact Holds.of_ok hp
  rw [m.eval_of_holds host (holds_joinLines hholds ho), m.evalEach_eq host hholds]

theorem exists_ok_of_isOk {source : String} (h : (readSource source).isOk = true) :
    ∃ program, readSource source = .ok program := by
  cases hs : readSource source with
  | ok program => exact ⟨program, rfl⟩
  | error e => simp [hs, Except.isOk, Except.toBool] at h

theorem lines_evaluate_in_turn :
    (∀ s ∈ ["(set! a [1 2]) // two", "", "a.1 (f \"open)"].dropLast, Unopened s) ∧
    (⟨.empty, ()⟩ : Machine Unit).eval (fun _ _ world => (.failed "closed", world))
        (joinLines ["(set! a [1 2]) // two", "", "a.1 (f \"open)"]) =
      (⟨.empty, ()⟩ : Machine Unit).evalEach (fun _ _ world => (.failed "closed", world))
        ["(set! a [1 2]) // two", "", "a.1 (f \"open)"] .nil := by
  have ho : ∀ s ∈ ["(set! a [1 2]) // two", "", "a.1 (f \"open)"].dropLast, Unopened s := by
    decide +kernel
  refine ⟨ho, eval_joined_eq_evalEach _ _ ?_ ho _⟩
  simp only [List.forall_mem_cons]
  refine ⟨exists_ok_of_isOk ?_, exists_ok_of_isOk ?_, exists_ok_of_isOk ?_, by simp⟩
  all_goals decide +kernel

end EmbeddedLisp
