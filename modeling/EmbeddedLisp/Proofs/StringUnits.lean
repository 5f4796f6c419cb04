import EmbeddedLisp.Proofs.Literals
import EmbeddedLisp.Proofs.Reading
import EmbeddedLisp.Proofs.Scanning

/-!
# Strings by units

A string is read from left to right in units: a backslash with the character behind it, or
a single other character. Only the last backslash may have nothing behind it. Writing a
string, decoding a literal and looking for the closing quote all go by these units, so
that each of them is a map, or a test, on the units alone. It follows which strings come
back from their own text, and that the text itself always does unless a backslash dangles
at the end, where it would protect the closing quote.
-/

set_option autoImplicit false

namespace EmbeddedLisp

inductive StringUnit where
  | bare (c : Char)
  | pair (c : Char)
  | dangling
  deriving DecidableEq, Repr

namespace StringUnit

def text : StringUnit → List Char
  | .bare c => [c]
  | .pair c => ['\\', c]
  | .dangling => ['\\']

def spell (us : List StringUnit) : List Char := us.flatMap text

theorem spell_cons (u : StringUnit) (us : List StringUnit) :
    spell (u :: us) = u.text ++ spell us := List.flatMap_cons

def units : List Char → List StringUnit
  | [] => []
  | ['\\'] => [.dangling]
  | '\\' :: c :: rest => .pair c :: units rest
  | c :: rest => .bare c :: units rest

/-- How a unit is written in a literal. -/
def shown : StringUnit → StringUnit
  | .bare '\n' => .pair 'n'
  | .bare '\t' => .pair 't'
  | .bare '"' => .pair '"'
  | u => u

/-- What a unit of a literal stands for. -/
def decoded : StringUnit → StringUnit
  | .pair 'n' => .bare '\n'
  | .pair 't' => .bare '\t'
  | u => u

def IsProper (u : StringUnit) : Prop := u ≠ .dangling ∧ u ≠ .bare '\\'

/-- A unit that writing and decoding give back. -/
def IsStable (u : StringUnit) : Prop :=
  u ≠ .dangling ∧ u ≠ .bare '"' ∧ u ≠ .pair 'n' ∧ u ≠ .pair 't'

instance (u : StringUnit) : Decidable u.IsProper := inferInstanceAs (Decidable (_ ∧ _))

instance (u : StringUnit) : Decidable u.IsStable := inferInstanceAs (Decidable (_ ∧ _))

theorem units_bare {c : Char} (h : c ≠ '\\') (rest : List Char) :
    units (c :: rest) = .bare c :: units rest := by
  rw [units]
  · exact fun hc _ => h hc
  · exact fun _ _ hc _ => h hc

theorem spell_units (s : List Char) : spell (units s) = s := by
  fun_induction units s with
  | case1 => rfl
  | case2 => rfl
  | case3 c rest ih => simpa [spell, text] using ih
  | case4 c rest _ _ ih => simpa [spell, text] using ih

theorem units_text_append {u : StringUnit} (h : u.IsProper) (rest : List Char) :
    units (u.text ++ rest) = u :: units rest := by
  cases u with
  | bare c => exact units_bare (fun hc => h.2 (by rw [hc])) rest
  | pair c => rfl
  | dangling => exact absurd rfl h.1

theorem units_spell {us : List StringUnit} (h : ∀ u ∈ us, u.IsProper) : units (spell us) = us := by
  induction us with
  | nil => rfl
  | cons u us ih =>
    obtain ⟨hu, hus⟩ := List.forall_mem_cons.1 h
    rw [spell_cons, units_text_append hu, ih hus]

theorem bare_backslash_not_mem (s : List Char) : .bare '\\' ∉ units s := by
  fun_induction units s with
  | case1 => simp
  | case2 => simp
  | case3 c rest ih => simpa using ih
  | case4 c rest hd hp ih =>
    have hc : '\\' ≠ c := by
      rintro rfl
      cases rest with
      | nil => exact hd rfl rfl
      | cons d rest => exact hp d rest rfl rfl
    simpa [hc] using ih

theorem isProper_of_mem {s : List Char} (h : .dangling ∉ units s) :
    ∀ u ∈ units s, u.IsProper := by
  intro u hu
  refine ⟨?_, ?_⟩
  · rintro rfl
    exact h hu
  · rintro rfl
    exact bare_backslash_not_mem s hu

theorem IsProper.shown {u : StringUnit} (h : u.IsProper) : u.shown.IsProper := by
  unfold StringUnit.shown
  split
  · decide
  · decide
  · decide
  · exact h

theorem IsProper.decoded {u : StringUnit} (h : u.IsProper) : u.decoded.IsProper := by
  unfold StringUnit.decoded
  split
  · decide
  · decide
  · exact h

end StringUnit

open StringUnit

theorem text_shown_bare (c : Char) : (shown (.bare c)).text = Value.bareCharacter c := by
  unfold Value.bareCharacter
  by_cases hn : c = '\n'
  · subst hn; rfl
  · by_cases ht : c = '\t'
    · subst ht; rfl
    · by_cases hq : c = '"'
      · subst hq; rfl
      · simp [shown, hn, ht, hq, StringUnit.text]

theorem stringBody_eq_spell (s : List Char) :
    Value.stringBody s = spell ((units s).map shown) := by
  fun_induction units s with
  | case1 => rfl
  | case2 => rfl
  | case3 c rest ih => simp [Value.stringBody, ih, spell, shown, StringUnit.text]
  | case4 c rest hd hp ih =>
    rw [Value.stringBody, ih, List.map_cons, spell_cons, text_shown_bare]
    exact hp

theorem unescape_decoded_pair (c : Char) (rest : List Char) :
    Reader.unescape ('\\' :: c :: rest) = (decoded (.pair c)).text ++ Reader.unescape rest := by
  by_cases hn : c = 'n'
  · subst hn; rfl
  · by_cases ht : c = 't'
    · subst ht; rfl
    · rw [unescape_pair hn ht]
      simp [decoded, hn, ht, StringUnit.text]

theorem unescape_eq_spell (s : List Char) :
    Reader.unescape s = spell ((units s).map decoded) := by
  fun_induction units s with
  | case1 => rfl
  | case2 => rfl
  | case3 c rest ih => rw [unescape_decoded_pair, ih, List.map_cons, spell_cons]
  | case4 c rest hd hp ih =>
    rw [Reader.unescape, ih]
    · simp [spell, decoded, StringUnit.text]
    · exact fun _ => hp _ _
    · exact fun _ => hp _ _
    · exact hp

theorem isBody_iff_units (s : List Char) :
    Token.isBody s = true ↔ .bare '"' ∉ units s ∧ .dangling ∉ units s := by
  fun_induction units s with
  | case1 => simp [Token.isBody]
  | case2 => simp [Token.isBody]
  | case3 c rest ih => simp [Token.isBody, ih]
  | case4 c rest hd hp ih =>
    by_cases hq : c = '"'
    · subst hq
      simp [Token.isBody]
    · rw [Token.isBody.eq_5 c rest hq hd hp, ih]
      simp [Ne.symm hq]

theorem shown_decoded_shown (u : StringUnit) : u.shown.decoded.shown = u.shown := by
  fun_cases shown u with
  | case1 => rfl
  | case2 => rfl
  | case3 => rfl
  | case4 u hn ht hq =>
    fun_cases decoded u with
    | case1 => rfl
    | case2 => rfl
    | case3 u _ _ => rw [shown.eq_4 u hn ht hq]

theorem decoded_shown_eq_iff {u : StringUnit} (h : u ≠ .dangling) :
    u.shown.decoded = u ↔ u.IsStable := by
  unfold IsStable shown
  split
  · simp [decoded]
  · simp [decoded]
  · simp [decoded]
  · next hn ht hq =>
    unfold decoded
    split
    · simp
    · simp
    · next hpn hpt => simpa using ⟨h, hq, hpn, hpt⟩

theorem isStable_decoded {u : StringUnit} (hd : u ≠ .dangling) (hq : u ≠ .bare '"') :
    u.decoded.IsStable := by
  unfold decoded IsStable
  split
  · simp
  · simp
  · next hn ht => exact ⟨hd, hq, hn, ht⟩

section
variable {s : List Char}

theorem units_stringBody (h : .dangling ∉ units s) :
    units (Value.stringBody s) = (units s).map shown := by
  rw [stringBody_eq_spell, units_spell]
  simpa using fun u hu => (isProper_of_mem h u hu).shown

theorem units_unescape (h : .dangling ∉ units s) :
    units (Reader.unescape s) = (units s).map decoded := by
  rw [unescape_eq_spell, units_spell]
  simpa using fun u hu => (isProper_of_mem h u hu).decoded

theorem isBody_stringBody (h : .dangling ∉ units s) :
    Token.isBody (Value.stringBody s) = true := by
  rw [isBody_iff_units, units_stringBody h]
  simp only [List.mem_map, not_exists, not_and]
  constructor
  · intro u _ heq
    unfold shown at heq
    split at heq <;> simp_all
  · intro u hu heq
    exact ((isProper_of_mem h u hu).shown).1 heq

theorem units_reread (h : .dangling ∉ units s) :
    units (Reader.unescape (Value.stringBody s)) =
      (units s).map fun u => u.shown.decoded := by
  have hbody := ((isBody_iff_units _).1 (isBody_stringBody h)).2
  rw [units_unescape hbody, units_stringBody h, List.map_map]
  rfl

theorem reread_eq_iff (h : .dangling ∉ units s) :
    Reader.unescape (Value.stringBody s) = s ↔ ∀ u ∈ units s, u.IsStable := by
  have hunits : Reader.unescape (Value.stringBody s) = s ↔
      (units s).map (fun u => u.shown.decoded) = units s := by
    rw [← units_reread h]
    refine ⟨congrArg units, fun heq => ?_⟩
    rw [← spell_units (Reader.unescape _), heq, spell_units]
  have hfixed : (units s).map (fun u => u.shown.decoded) = units s ↔
      ∀ u ∈ units s, u.shown.decoded = u := by
    simpa using List.map_inj_left (l := units s) (f := fun u => u.shown.decoded) (g := id)
  rw [hunits, hfixed]
  refine forall_congr' fun u => imp_congr_right fun hu => decoded_shown_eq_iff ?_
  rintro rfl
  exact h hu

theorem stringBody_reread (h : .dangling ∉ units s) :
    Value.stringBody (Reader.unescape (Value.stringBody s)) = Value.stringBody s := by
  rw [stringBody_eq_spell (Reader.unescape _), units_reread h, List.map_map,
    stringBody_eq_spell s]
  exact congrArg spell (List.map_congr_left fun u _ => shown_decoded_shown u)

theorem isStable_unescape (h : Token.isBody s = true) :
    ∀ u ∈ units (Reader.unescape s), u.IsStable := by
  obtain ⟨hquote, hdangling⟩ := (isBody_iff_units s).1 h
  rw [units_unescape hdangling]
  intro u hu
  obtain ⟨v, hv, rfl⟩ := List.mem_map.1 hu
  refine isStable_decoded ?_ ?_
  · rintro rfl
    exact hdangling hv
  · rintro rfl
    exact hquote hv

theorem closing?_dangling (h : .dangling ∈ units s) :
    Token.closing? (Value.stringBody s ++ ['"']) = none := by
  fun_induction units s with
  | case1 => simp at h
  | case2 => rfl
  | case3 c rest ih => simpa [Value.stringBody, Token.closing?] using ih (by simpa using h)
  | case4 c rest hd hp ih =>
    have ih := ih (by simpa using h)
    rw [Value.stringBody, List.append_assoc]
    · unfold Value.bareCharacter
      split
      · simpa [Token.closing?] using ih
      · split
        · simpa [Token.closing?] using ih
        · split
          · simpa [Token.closing?] using ih
          · next hq =>
            have hplain : Token.Plain c := Token.plain_of_ne hq hd hp
            simpa [Token.closing?_plain hplain] using ih
    · exact hp

end

namespace Value
variable {s : String}

theorem toList_render_str (s : String) :
    (Value.str s).render.toList = '"' :: Value.stringBody s.toList ++ ['"'] := by
  rw [Value.render, String.toList_ofList, text_str, stringText]

theorem tokenize_render_str (h : .dangling ∉ units s.toList) :
    tokenize (Value.str s).render = .ok [⟨.string, (Value.str s).render, 0⟩] := by
  have hfits : Token.Fits .string (Value.str s).render.toList [] :=
    ⟨_, toList_render_str s, isBody_stringBody h⟩
  have hcut : Token.Cut ((Value.str s).render.toList ++ []) _ := .cons hfits .nil
  rw [List.append_nil] at hcut
  rw [tokenize_eq_of_cut hcut]
  simp [Token.place, Token.Kind.isDiscarded]

theorem readFirst_render_str (h : .dangling ∉ units s.toList) :
    readFirst (Value.str s).render =
      .ok (.str (String.ofList (Reader.unescape (Value.stringBody s.toList)))) := by
  have hleaf : Grammar.Leaf ⟨.string, (Value.str s).render, 0⟩ _ :=
    .string rfl (toList_render_str s) (Grammar.decoded_unescape _)
  rw [readFirst_ok_iff]
  refine ⟨[_], [], tokenize_render_str h, .bare (.leaf hleaf), ?_, ?_⟩
  · simp [Value.nesting, Reader.nestingLimit]
  · simp [Grammar.NoDot]

theorem kind_of_readFirst_str {source : String} {t : String}
    (h : readFirst source = .ok (.str t)) :
    ∃ first rest, tokenize source = .ok (first :: rest) ∧ first.kind = .string := by
  obtain ⟨us, rest, ht, hE, _⟩ := readFirst_ok_iff.1 h
  cases hE with
  | bare hform =>
    cases hform with
    | leaf hleaf =>
      cases hleaf with
      | string hk _ _ => exact ⟨_, rest, ht, hk⟩

theorem kind_of_open_quote {source : String} {tail : List Char} {first : Token}
    {rest : List Token} (hs : source.toList = '"' :: tail) (hc : Token.closing? tail = none)
    (h : tokenize source = .ok (first :: rest)) : first.kind ≠ .string := by
  intro hk
  obtain ⟨ps, hcut, hps⟩ := cut_of_tokenize h
  rw [hs] at hcut
  generalize hinput : '"' :: tail = input at hcut
  cases hcut with
  | nil => simp at hinput
  | @cons kind text left ps hf _ =>
    have hrule := (Token.firstMatch?_eq_some_iff.1 (Token.firstMatch?_of_fits hf)).1
    rw [← hinput] at hrule
    cases kind with
    | comment => simp [Token.Kind.rule, Token.comment?] at hrule
    | whitespace => simp [Token.Kind.rule, Token.run?, Token.isSpace] at hrule
    | string => simp [Token.Kind.rule, Token.string?, hc] at hrule
    | _ =>
      have hhead := congrArg (Option.map Token.Piece.kind) (congrArg List.head? hps)
      simp [Token.significant, Token.Kind.isDiscarded, Token.piece, hk] at hhead

theorem isStable_of_literal {source : String} {ts : List Token} {t : Token}
    (h : tokenize source = .ok ts) (ht : t ∈ ts) (hl : Reader.literal? t = some (.ok (.str s))) :
    ∀ u ∈ units s.toList, u.IsStable := by
  obtain ⟨rest, hf⟩ := fits_of_tokenize h ht
  have hleaf : Grammar.Leaf t (.str s) := Grammar.leaf_of_literal hl (wellQuoted_of_tokenize h t ht)
  cases hleaf.isLiteral hf with
  | str hbody =>
    rw [String.toList_ofList]
    exact isStable_unescape hbody

theorem dangling_not_mem (h : ∀ u ∈ units s.toList, u.IsStable) : .dangling ∉ units s.toList :=
  fun hd => (h _ hd).1 rfl

theorem readFirst_render_dangling (h : .dangling ∈ units s.toList) (t : String) :
    readFirst (Value.str s).render ≠ .ok (.str t) := by
  intro hr
  obtain ⟨first, rest, ht, hk⟩ := kind_of_readFirst_str hr
  exact kind_of_open_quote (toList_render_str s) (closing?_dangling h) ht hk

theorem readFirst_render_str_iff (s : String) :
    readFirst (Value.str s).render = .ok (.str s) ↔ ∀ u ∈ units s.toList, u.IsStable := by
  by_cases hd : .dangling ∈ units s.toList
  · exact ⟨fun hr => absurd hr (readFirst_render_dangling hd s),
      fun hstable => absurd hd (dangling_not_mem hstable)⟩
  · rw [readFirst_render_str hd, ← reread_eq_iff hd, Except.ok.injEq, Value.str.injEq,
      ← String.toList_inj, String.toList_ofList]

end Value

/-- A string comes back from its own text exactly if no backslash dangles at its end and no
unit is a bare quote or one of the pairs for a line break and a tab. These are the strings
that literals stand for. Unless a backslash dangles, the text is one literal, and the string
that is read from it has the same text. If one does, no string is read from the text. -/
theorem string_reads_back_iff_units_stable (s : String) :
    (readFirst (Value.str s).render = .ok (.str s) ↔ ∀ u ∈ units s.toList, u.IsStable) ∧
    ((∀ u ∈ units s.toList, u.IsStable) ↔ ∃ source ts t, tokenize source = .ok ts ∧ t ∈ ts ∧
      t.kind = .string ∧ Reader.literal? t = some (.ok (.str s))) ∧
    (.dangling ∉ units s.toList →
      tokenize (Value.str s).render = .ok [⟨.string, (Value.str s).render, 0⟩] ∧
      ∃ t, readFirst (Value.str s).render = .ok (.str t) ∧
        (Value.str t).render = (Value.str s).render) ∧
    (.dangling ∈ units s.toList → ∀ t, readFirst (Value.str s).render ≠ .ok (.str t)) := by
  refine ⟨Value.readFirst_render_str_iff s, ⟨fun hstable => ?_, ?_⟩, fun hd => ?_,
    Value.readFirst_render_dangling⟩
  · have hd := Value.dangling_not_mem hstable
    have hbody : String.ofList (Reader.unescape (Value.stringBody s.toList)) = s := by
      rw [(reread_eq_iff hd).2 hstable, String.ofList_toList]
    refine ⟨_, _, _, Value.tokenize_render_str hd, List.mem_singleton_self _, rfl, ?_⟩
    simp only [Reader.literal?, Value.toList_render_str, Grammar.stringBody?_quoted, hbody]
  · rintro ⟨source, ts, t, h, ht, _, hl⟩
    exact Value.isStable_of_literal h ht hl
  · refine ⟨Value.tokenize_render_str hd, _, Value.readFirst_render_str hd, ?_⟩
    rw [← String.toList_inj, Value.toList_render_str, Value.toList_render_str,
      String.toList_ofList, stringBody_reread hd]

theorem bare_quotes_and_dangling_backslash :
    let bare := "say \"hi\""
    let dangling := "a\\"
    .dangling ∉ units bare.toList ∧ .dangling ∈ units dangling.toList ∧
    (∃ t, readFirst (Value.str bare).render = .ok (.str t) ∧ t ≠ bare ∧
      (Value.str t).render = (Value.str bare).render) ∧
    ∀ t, readFirst (Value.str dangling).render ≠ .ok (.str t) := by
  intro bare dangling
  have hbare : .dangling ∉ units bare.toList := by decide
  have hdangling : .dangling ∈ units dangling.toList := by decide
  obtain ⟨hstable, _, hread, _⟩ := string_reads_back_iff_units_stable bare
  obtain ⟨_, t, ht, hrender⟩ := hread hbare
  refine ⟨hbare, hdangling, ⟨t, ht, ?_, hrender⟩,
    (string_reads_back_iff_units_stable dangling).2.2.2 hdangling⟩
  rintro rfl
  exact absurd (hstable.1 ht) (by decide)

end EmbeddedLisp
