import Mathlib.Data.List.Induction
import EmbeddedLisp.Proofs.Scanning

/-!
# Lines and columns

A position tells a place in a text by its line and column. The lines before it, with their
line feeds, and the beginning of its own line spell all that stands in front of that place, so
that no other place has the same position, and later places have later positions. A complaint
of the lexer names the line and column at which the character stands that no rule takes.
-/

set_option autoImplicit false

namespace EmbeddedLisp

def sourceLines (source : List Char) : List (List Char) := source.splitOn '\n'

def endedText (lines : List (List Char)) : List Char := lines.flatMap (· ++ ['\n'])

theorem ended_snoc (lines : List (List Char)) (line : List Char) :
    endedText (lines ++ [line]) = endedText lines ++ (line ++ ['\n']) := by
  simp [endedText]

theorem sourceLines_ended {lines : List (List Char)} (h : ∀ line ∈ lines, '\n' ∉ line)
    (rest : List Char) : sourceLines (endedText lines ++ rest) = lines ++ sourceLines rest := by
  induction lines with
  | nil => rfl
  | cons line lines ih =>
    obtain ⟨hline, hlines⟩ := List.forall_mem_cons.1 h
    have hcons : endedText (line :: lines) ++ rest = line ++ '\n' :: (endedText lines ++ rest) := by
      simp [endedText]
    rw [hcons, sourceLines, List.splitOn_append_cons_self_of_not_mem hline, ← sourceLines,
      ih hlines]
    rfl

theorem sourceLines_front {front : List Char} (h : '\n' ∉ front) (rest : List Char) :
    ∃ back more, sourceLines (front ++ rest) = (front ++ back) :: more := by
  induction front with
  | nil =>
    obtain ⟨back, more, hsplit⟩ := List.exists_cons_of_ne_nil (List.splitOn_ne_nil '\n' rest)
    exact ⟨back, more, hsplit⟩
  | cons c front ih =>
    simp only [List.mem_cons, not_or] at h
    obtain ⟨back, more, hsplit⟩ := ih h.2
    have hc : ¬ (c == '\n') = true := by simpa using Ne.symm h.1
    refine ⟨back, more, ?_⟩
    rw [sourceLines] at hsplit ⊢
    rw [List.cons_append, List.splitOn_cons_eq_if_modifyHead, if_neg hc, hsplit]
    rfl

namespace Position

def Before (p q : Position) : Prop := p.line < q.line ∨ p.line = q.line ∧ p.column < q.column

theorem Before.trans {p q r : Position} (h : p.Before q) (h' : q.Before r) : p.Before r := by
  unfold Before at h h' ⊢
  omega

theorem Before.asymm {p q : Position} (h : p.Before q) : ¬ q.Before p := by
  unfold Before at h ⊢
  omega

theorem before_advance (p : Position) (c : Char) : p.Before (p.advance c) := by
  unfold advance Before
  split
  · exact .inl (Nat.lt_succ_self _)
  · exact .inr ⟨rfl, Nat.lt_succ_self _⟩

theorem Before.foldl {p q : Position} (h : p.Before q) (text : List Char) :
    p.Before (text.foldl advance q) := by
  induction text generalizing q with
  | nil => exact h
  | cons c text ih => exact ih (h.trans (q.before_advance c))

theorem after_before (front : List Char) {text : List Char} (h : text ≠ []) :
    (after front).Before (after (front ++ text)) := by
  obtain ⟨c, text, rfl⟩ := List.exists_cons_of_ne_nil h
  rw [after_append]
  exact (before_advance _ c).foldl text

/-- The line of a position is one of the text, its column is on that line or just behind it,
and what is in front of it consists of the lines above and the beginning of its own line. -/
structure Spells (p : Position) (source front : List Char) : Prop where
  line_pos : 0 < p.line
  column_pos : 0 < p.column
  spelled : ∃ own, (sourceLines source)[p.line - 1]? = some own ∧ p.column - 1 ≤ own.length ∧
    endedText ((sourceLines source).take (p.line - 1)) ++ own.take (p.column - 1) = front

theorem Spells.unique {p : Position} {source front front' : List Char}
    (h : p.Spells source front) (h' : p.Spells source front') : front = front' := by
  obtain ⟨own, hown, _, hfront⟩ := h.spelled
  obtain ⟨own', hown', _, hfront'⟩ := h'.spelled
  rw [hown] at hown'
  obtain rfl := Option.some.inj hown'
  rw [← hfront, ← hfront']

end Position

/-- A text is made of lines that have ended and the beginning of one more, which are what the
position behind it counts. -/
structure Divided (front : List Char) (lines : List (List Char)) (last : List Char) : Prop where
  spelled : endedText lines ++ last = front
  unbroken : ∀ line ∈ lines, '\n' ∉ line
  last_unbroken : '\n' ∉ last
  position : Position.after front = ⟨lines.length + 1, last.length + 1⟩

theorem exists_divided (front : List Char) : ∃ lines last, Divided front lines last := by
  induction front using List.reverseRecOn with
  | nil => exact ⟨[], [], rfl, by simp, by simp, rfl⟩
  | append_singleton front c ih =>
    obtain ⟨lines, last, hspelled, hlines, hlast, hposition⟩ := ih
    have hnext : Position.after (front ++ [c]) = (Position.after front).advance c :=
      Position.after_append front [c]
    rw [hposition] at hnext
    by_cases hc : c = '\n'
    · subst hc
      refine ⟨lines ++ [last], [], ?_, ?_, by simp, ?_⟩
      · rw [ended_snoc, List.append_nil, ← List.append_assoc, hspelled]
      · exact List.forall_mem_append.2 ⟨hlines, by simpa using hlast⟩
      · rw [hnext, List.length_append]
        rfl
    · refine ⟨lines, last ++ [c], ?_, hlines, ?_, ?_⟩
      · rw [← List.append_assoc, hspelled]
      · simpa [hlast] using Ne.symm hc
      · rw [hnext, List.length_append, Position.advance, if_neg hc]
        rfl

namespace Divided
variable {front last : List Char} {lines : List (List Char)}

theorem sourceLines_append (h : Divided front lines last) (rest : List Char) :
    sourceLines (front ++ rest) = lines ++ sourceLines (last ++ rest) := by
  rw [← h.spelled, List.append_assoc, sourceLines_ended h.unbroken]

theorem spells (h : Divided front lines last) (rest : List Char) :
    (Position.after front).Spells (front ++ rest) front := by
  obtain ⟨back, more, hlast⟩ := sourceLines_front h.last_unbroken rest
  rw [h.position]
  refine ⟨Nat.succ_pos _, Nat.succ_pos _, last ++ back, ?_, ?_, ?_⟩
  · simp [h.sourceLines_append, hlast]
  · simp
  · simpa [h.sourceLines_append] using h.spelled

theorem character (h : Divided front lines last) {c : Char} (hc : c ≠ '\n') (rest : List Char) :
    ∃ own, (sourceLines (front ++ c :: rest))[(Position.after front).line - 1]? = some own ∧
      own[(Position.after front).column - 1]? = some c := by
  have hunbroken : '\n' ∉ last ++ [c] := by simpa [h.last_unbroken] using Ne.symm hc
  obtain ⟨back, more, hlast⟩ := sourceLines_front hunbroken rest
  have hlines : sourceLines (front ++ c :: rest) = lines ++ (last ++ [c] ++ back) :: more := by
    rw [h.sourceLines_append, ← hlast, List.append_assoc, List.singleton_append]
  rw [h.position, hlines]
  exact ⟨last ++ [c] ++ back, by simp, by simp⟩

end Divided

theorem takeBytes_zero (text : List Char) : takeBytes 0 text = [] := by
  cases text with
  | nil => rfl
  | cons c text => exact if_neg (Nat.not_le.2 c.utf8Size_pos)

theorem location_of_cut {source front rest : List Char} {offset : Nat}
    (h : cutAt? offset source = some (front, rest)) :
    location source offset = Position.after front := by
  obtain ⟨rfl, rfl⟩ := cutAt?_eq_some_iff.1 h
  rw [location, takeBytes_append, takeBytes_zero, List.append_nil]

theorem location_spells {source front rest : List Char} {offset : Nat}
    (h : cutAt? offset source = some (front, rest)) :
    (location source offset).Spells source front := by
  obtain ⟨lines, last, hdivided⟩ := exists_divided front
  rw [location_of_cut h, (cutAt?_eq_some_iff.1 h).1]
  exact hdivided.spells rest

theorem location_before {source : List Char} {o o' : Nat} {parts parts' : List Char × List Char}
    (h : cutAt? o source = some parts) (h' : cutAt? o' source = some parts') (hlt : o < o') :
    (location source o).Before (location source o') := by
  obtain ⟨hsource, rfl⟩ := cutAt?_eq_some_iff.1 h
  obtain ⟨hsource', rfl⟩ := cutAt?_eq_some_iff.1 h'
  rw [location_of_cut h, location_of_cut h']
  rcases List.append_eq_append_iff.1 (hsource.symm.trans hsource') with ⟨text, heq, _⟩ | ⟨text, heq, _⟩
  · rw [heq] at hlt ⊢
    refine Position.after_before _ fun hnil => ?_
    simp [hnil] at hlt
  · rw [heq, byteLength_append] at hlt
    omega

theorem location_injective {source : List Char} {o o' : Nat} {parts parts' : List Char × List Char}
    (h : cutAt? o source = some parts) (h' : cutAt? o' source = some parts')
    (heq : location source o = location source o') : o = o' := by
  obtain ⟨_, rfl⟩ := cutAt?_eq_some_iff.1 h
  obtain ⟨_, rfl⟩ := cutAt?_eq_some_iff.1 h'
  have hspells := location_spells h
  rw [heq] at hspells
  rw [hspells.unique (location_spells h')]

theorem location_before_iff {source : List Char} {o o' : Nat}
    {parts parts' : List Char × List Char} (h : cutAt? o source = some parts)
    (h' : cutAt? o' source = some parts') :
    o < o' ↔ (location source o).Before (location source o') := by
  refine ⟨location_before h h', fun hbefore => Nat.lt_of_not_le fun hle => ?_⟩
  obtain rfl | hlt := Nat.eq_or_lt_of_le hle
  · exact hbefore.asymm hbefore
  · exact hbefore.asymm (location_before h' h hlt)

example : location ['a', 'é', '\n', 'b'] 3 = ⟨1, 3⟩ ∧ location ['a', 'é', '\n', 'b'] 4 = ⟨2, 1⟩ := by
  decide

namespace Lexer

theorem fault_of_next {l : Lexer} {n : Nat} {e : Unmatched}
    (h : (l.after n).next.1 = some (.error e)) : l.run.fault = some e := by
  rw [next_after] at h
  have hmem := List.mem_of_getElem? h
  simpa [Scan.steps] using hmem

theorem fault_of_tokenize {source : String} {e : Unmatched} (h : tokenize source = .error e) :
    (ofSource none source).run.fault = some e := by
  unfold tokenize at h
  dsimp only at h
  split at h
  · cases h
  · next e' he =>
    obtain rfl := Except.error.inj h
    exact he

theorem cutAt_fault {name : Option String} {source : String} {e : Unmatched}
    (h : (ofSource name source).run.fault = some e) :
    e.source = source ∧ e.character = Token.formFeed ∧
      ∃ front rest, cutAt? e.offset source.toList = some (front, e.character :: rest) := by
  obtain ⟨ps, left, htaken, hbyte, _, hends⟩ := run_takes (ofSource name source)
  obtain ⟨hnone, _⟩ | ⟨hfault, hleft⟩ := hends
  · rw [hnone] at h
    cases h
  · rw [hfault, Option.some.injEq] at h
    subst h
    obtain ⟨rest, rfl⟩ := List.head?_eq_some_iff.1 hleft
    refine ⟨rfl, rfl, Token.concat (Token.place 0 ps), rest, ?_⟩
    refine cutAt?_eq_some_iff.2 ⟨htaken.concat_place 0, ?_⟩
    rw [hbyte]
    exact (Nat.zero_add _).symm

end Lexer

/-- The position of each offset between two characters spells the text in front of it, so that
positions are in the order of the offsets and no two of them are the same. A complaint of the
lexer, whether a call or cutting the whole text gives it, has such an offset, and at its
position stands the character that it reports. -/
theorem locations_are_faithful (name : Option String) (source : String) :
    let text := source.toList
    (∀ offset front rest, cutAt? offset text = some (front, rest) →
      (location text offset).Spells text front) ∧
    (∀ o o' parts parts', cutAt? o text = some parts → cutAt? o' text = some parts' →
      (o < o' ↔ (location text o).Before (location text o')) ∧
      (location text o = location text o' → o = o')) ∧
    ∀ e, ((∃ n, ((Lexer.ofSource name source).after n).next.1 = some (.error e)) ∨
        tokenize source = .error e) →
      (∃ front rest, cutAt? e.offset text = some (front, e.character :: rest)) ∧
      e.position = location text e.offset ∧
      ∃ own, (sourceLines text)[e.position.line - 1]? = some own ∧
        own[e.position.column - 1]? = some e.character := by
  intro text
  refine ⟨fun offset front rest h => location_spells h, fun o o' parts parts' h h' =>
    ⟨location_before_iff h h', location_injective h h'⟩, fun e he => ?_⟩
  obtain ⟨hsource, hcharacter, front, rest, hcut⟩ : e.source = source ∧
      e.character = Token.formFeed ∧
      ∃ front rest, cutAt? e.offset text = some (front, e.character :: rest) := by
    obtain ⟨n, hn⟩ | ht := he
    · exact Lexer.cutAt_fault (Lexer.fault_of_next hn)
    · exact Lexer.cutAt_fault (Lexer.fault_of_tokenize ht)
  have hposition : e.position = location text e.offset := by
    rw [Unmatched.position, hsource]
  have hbreak : e.character ≠ '\n' := by
    rw [hcharacter]
    decide
  obtain ⟨lines, last, hdivided⟩ := exists_divided front
  refine ⟨⟨front, rest, hcut⟩, hposition, ?_⟩
  rw [hposition, location_of_cut hcut, (cutAt?_eq_some_iff.1 hcut).1]
  exact hdivided.character hbreak rest

theorem form_feed_on_second_line :
    let source := "a\né\x0c"
    let e : Unmatched := ⟨"<input>", source, 4, '\x0c'⟩
    tokenize source = .error e ∧ e.position = ⟨2, 2⟩ ∧
      ∃ own, (sourceLines source.toList)[1]? = some own ∧ own[1]? = some '\x0c' := by
  intro source e
  have htokens : tokenize source = .error e := by decide +kernel
  have hposition : e.position = ⟨2, 2⟩ := by decide
  obtain ⟨_, _, hline⟩ := (locations_are_faithful none source).2.2 e (.inr htokens)
  rw [hposition] at hline
  exact ⟨htokens, hposition, hline⟩

end EmbeddedLisp
