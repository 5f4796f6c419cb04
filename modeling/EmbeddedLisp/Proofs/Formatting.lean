import EmbeddedLisp.Builtin.Format

/-!
# Formats by directives

A format is read from left to right in directives: a percent sign with the character behind
it, or a single other character. Only the last percent sign may have nothing behind it. Verbs
are the four letters behind a percent sign that take an operand, and what each of them makes
of its operand is spelled out here. They take the operands in turn, each of them one, so that
a directive shows the operand whose index is the number of verbs before it. It follows what
happens to operands when there are too few or too many, and that formats may be put one
behind another with their operands.
-/

set_option autoImplicit false

namespace EmbeddedLisp.Format

inductive Directive where
  | copied (c : Char)
  | percent
  | verb (letter : Char)
  | unknown (c : Char)
  | unfinished
  deriving DecidableEq, Repr

def letters : List Char := ['v', 'd', 's', 'q']

/-- A string as it is, any other value in its surface form. -/
def unquoted : Value → List Char
  | .str s => s.toList
  | v => v.render.toList

/-- Whether an operand is of the type that a verb asks for. -/
def suits : Char → Value → Bool
  | 'd', .int _ => true
  | 's', .str _ => true
  | letter, _ => letter = 'v' || letter = 'q'

def substituted (letter : Char) (v : Value) : List Char :=
  if letter = 'q' then v.render.toList
  else if suits letter v then unquoted v
  else ['%', '!', letter, '('] ++ v.typeName.toList ++ ['='] ++ unquoted v ++ [')']

namespace Directive

def text : Directive → List Char
  | .copied c => [c]
  | .percent => ['%', '%']
  | .verb letter => ['%', letter]
  | .unknown c => ['%', c]
  | .unfinished => ['%']

def behindPercent (c : Char) : Directive :=
  if c = '%' then .percent else if c ∈ letters then .verb c else .unknown c

def isVerb : Directive → Bool
  | .verb _ => true
  | _ => false

def takes (d : Directive) : Nat := if d.isVerb then 1 else 0

/-- What a directive gives, with the operand that is there for it. -/
def shown : Directive → Option Value → List Char
  | .copied c, _ => [c]
  | .percent, _ => ['%']
  | .verb letter, some operand => substituted letter operand
  | .verb letter, none => ['%', '!', letter] ++ "(MISSING)".toList
  | .unknown c, _ => ['%', c]
  | .unfinished, _ => "%!(NOVERB)".toList

end Directive

def directives : List Char → List Directive
  | [] => []
  | c :: rest =>
    if c = '%' then
      match rest with
      | [] => [.unfinished]
      | d :: rest => .behindPercent d :: directives rest
    else .copied c :: directives rest

def verbs (ds : List Directive) : Nat := ds.countP Directive.isVerb

/-- What directives give, each with the operand that the verbs before it leave for it. -/
def shownAll (ds : List Directive) (operands : List Value) : List Char :=
  (ds.mapIdx fun i d => d.shown operands[verbs (ds.take i)]?).flatten

def shownExtra (operands : List Value) : List Char :=
  operands.flatMap fun v => "%!(EXTRA ".toList ++ v.render.toList ++ [')']

@[simp] theorem verbs_nil : verbs [] = 0 := rfl

@[simp] theorem verbs_cons (d : Directive) (ds : List Directive) :
    verbs (d :: ds) = d.takes + verbs ds := by
  rw [verbs, List.countP_cons, Nat.add_comm, verbs, Directive.takes]

theorem verbs_append (ds es : List Directive) : verbs (ds ++ es) = verbs ds + verbs es :=
  List.countP_append

@[simp] theorem shownAll_nil (operands : List Value) : shownAll [] operands = [] := rfl

theorem shownAll_cons (d : Directive) (ds : List Directive) (operands : List Value) :
    shownAll (d :: ds) operands =
      d.shown operands.head? ++ shownAll ds (operands.drop d.takes) := by
  simp only [shownAll, List.mapIdx_cons, List.flatten_cons, List.take_zero, verbs_nil,
    List.take_succ_cons, verbs_cons, List.getElem?_drop, List.head?_eq_getElem?]

theorem Directive.shown_of_not_verb {d : Directive} (h : d.isVerb = false)
    (operand : Option Value) : d.shown operand = d.shown none := by
  cases d with
  | verb v => cases h
  | _ => rfl

theorem shownAll_append (ds es : List Directive) {xs : List Value} (h : xs.length = verbs ds)
    (ys : List Value) : shownAll (ds ++ es) (xs ++ ys) = shownAll ds xs ++ shownAll es ys := by
  induction ds generalizing xs with
  | nil => simp [List.eq_nil_of_length_eq_zero h]
  | cons d ds ih =>
    rw [verbs_cons] at h
    have hrest : (xs.drop d.takes).length = verbs ds := by
      rw [List.length_drop]
      omega
    have hshown : d.shown (xs ++ ys).head? = d.shown xs.head? := by
      cases hv : d.isVerb with
      | false => rw [d.shown_of_not_verb hv, d.shown_of_not_verb hv xs.head?]
      | true =>
        cases xs with
        | nil =>
          simp only [Directive.takes, hv, List.length_nil, if_true] at h
          omega
        | cons x xs => rfl
    rw [List.cons_append, shownAll_cons, shownAll_cons, hshown,
      List.drop_append_of_le_length (by omega), ih hrest, List.append_assoc]

theorem text_behindPercent (c : Char) : (Directive.behindPercent c).text = ['%', c] := by
  unfold Directive.behindPercent
  split
  · next hc => rw [hc, Directive.text]
  · split <;> rfl

theorem of?_letter (v : Verb) : Verb.of? v.letter = some v := by
  cases v <;> rfl

theorem mem_letters_iff {c : Char} : c ∈ letters ↔ ∃ v : Verb, v.letter = c := by
  constructor
  · intro h
    simp only [letters, List.mem_cons, List.not_mem_nil, or_false] at h
    rcases h with rfl | rfl | rfl | rfl
    · exact ⟨.value, rfl⟩
    · exact ⟨.decimal, rfl⟩
    · exact ⟨.string, rfl⟩
    · exact ⟨.quoted, rfl⟩
  · rintro ⟨v, rfl⟩
    cases v <;> decide

theorem of?_eq_none {c : Char} (h : c ∉ letters) : Verb.of? c = none := by
  cases hv : Verb.of? c with
  | none => rfl
  | some v =>
    have hletter : v.letter = c := by simpa using List.find?_some hv
    exact absurd (mem_letters_iff.2 ⟨v, hletter⟩) h

theorem text_eq_substituted (verb : Verb) (v : Value) :
    verb.text v = substituted verb.letter v := by
  have hrender : v.render.toList = v.text := String.toList_ofList
  have hplain : plain v = unquoted v := by
    cases v with
    | str s => rfl
    | _ => exact String.toList_ofList.symm
  cases verb with
  | quoted => exact hrender.symm
  | value => exact hplain
  | decimal =>
    cases v with
    | int n => exact hplain
    | _ => simp [Verb.text, mismatch, hplain, substituted, suits, Verb.letter]
  | string =>
    cases v with
    | str s => exact hplain
    | _ => simp [Verb.text, mismatch, hplain, substituted, suits, Verb.letter]

theorem flatMap_text_directives (format : List Char) :
    (directives format).flatMap Directive.text = format := by
  fun_induction directives format with
  | case1 => rfl
  | case2 => rfl
  | case3 c rest ih => rw [List.flatMap_cons, text_behindPercent, ih]; rfl
  | case4 c rest _ ih => rw [List.flatMap_cons, ih]; rfl

theorem expand_copied {c : Char} (h : c ≠ '%') (rest : List Char) (operands : List Value) :
    expand (c :: rest) operands = c :: expand rest operands := by
  rw [expand]
  all_goals simp [h]

theorem expand_behindPercent (c : Char) (rest : List Char) (operands : List Value) :
    expand ('%' :: c :: rest) operands =
      (Directive.behindPercent c).shown operands.head? ++
        expand rest (operands.drop (Directive.behindPercent c).takes) := by
  unfold Directive.behindPercent
  split
  · next hc =>
    subst hc
    rfl
  · next hc =>
    split
    · next hletter =>
      obtain ⟨verb, rfl⟩ := mem_letters_iff.1 hletter
      cases operands with
      | nil =>
        rw [expand]
        · rfl
        · exact hc
        · exact of?_letter verb
      | cons operand operands =>
        rw [expand, text_eq_substituted]
        · rfl
        · exact hc
        · exact of?_letter verb
    · next hletter =>
      rw [expand]
      · rfl
      · exact hc
      · exact of?_eq_none hletter

theorem flatMap_extra (operands : List Value) : operands.flatMap extra = shownExtra operands := by
  simp only [shownExtra, Value.render, String.toList_ofList]
  rfl

theorem expand_eq_shownAll (format : List Char) (operands : List Value) :
    expand format operands = shownAll (directives format) operands ++
      shownExtra (operands.drop (verbs (directives format))) := by
  fun_induction directives format generalizing operands with
  | case1 => exact flatMap_extra operands
  | case2 =>
    rw [expand, flatMap_extra, shownAll_cons, verbs_cons]
    rfl
  | case3 c rest ih =>
    rw [expand_behindPercent, ih, shownAll_cons, verbs_cons, List.append_assoc, List.drop_drop]
  | case4 c rest hc ih =>
    rw [expand_copied hc, ih, shownAll_cons, verbs_cons, ← List.drop_drop]
    rfl

theorem directives_copied {c : Char} (h : c ≠ '%') (rest : List Char) :
    directives (c :: rest) = .copied c :: directives rest := by
  rw [directives.eq_def]
  exact if_neg h

theorem directives_append {f : List Char} (h : .unfinished ∉ directives f) (g : List Char) :
    directives (f ++ g) = directives f ++ directives g := by
  fun_induction directives f with
  | case1 => rfl
  | case2 => simp at h
  | case3 c rest ih =>
    have ih := ih (List.not_mem_of_not_mem_cons h)
    simp [directives, ih]
  | case4 c rest hc ih =>
    have ih := ih (List.not_mem_of_not_mem_cons h)
    rw [List.cons_append, directives_copied hc, ih, List.cons_append]

theorem expand_append {f : List Char} (hf : .unfinished ∉ directives f) {xs : List Value}
    (hxs : xs.length = verbs (directives f)) (g : List Char) (ys : List Value) :
    expand (f ++ g) (xs ++ ys) = expand f xs ++ expand g ys := by
  have hused : xs.drop (verbs (directives f)) = [] := by
    rw [← hxs, List.drop_length]
  have hleft : (xs ++ ys).drop (verbs (directives f) + verbs (directives g)) =
      ys.drop (verbs (directives g)) := by
    rw [← hxs, List.drop_length_add_append]
  rw [expand_eq_shownAll, directives_append hf, shownAll_append _ _ hxs, verbs_append, hleft,
    expand_eq_shownAll f, hused, expand_eq_shownAll g]
  simp [shownExtra]

def doubled (t : List Char) : List Char := t.flatMap fun c => if c = '%' then ['%', '%'] else [c]

theorem expand_doubled (t : List Char) : expand (doubled t) [] = t := by
  induction t with
  | nil => rfl
  | cons c t ih =>
    rw [doubled, List.flatMap_cons, ← doubled]
    by_cases hc : c = '%'
    · rw [if_pos hc, hc]
      exact congrArg ('%' :: ·) ih
    · rw [if_neg hc]
      exact (expand_copied hc _ _).trans (congrArg (c :: ·) ih)

/-- Formats may be put one behind another together with their operands, if the first one ends
inside of no directive and has an operand for each verb. Every format gives what its directives
give, the verbs taking the operands in turn as long as there are any, and then the operands that
are left. A text with its percent signs doubled comes back unchanged. -/
theorem format_uses_each_operand_once :
    (∀ (f g : String) (xs ys : List Value), .unfinished ∉ directives f.toList →
      xs.length = verbs (directives f.toList) →
      formatted (.str (f ++ g) :: (xs ++ ys)) =
        formatted (.str f :: xs) ++ formatted (.str g :: ys)) ∧
    (∀ (f : String) (operands : List Value),
      (directives f.toList).flatMap Directive.text = f.toList ∧
      formatted (.str f :: operands) = shownAll (directives f.toList) operands ++
        shownExtra (operands.drop (verbs (directives f.toList)))) ∧
    ∀ t : String, formatted [.str (String.ofList (doubled t.toList))] = t.toList := by
  refine ⟨fun f g xs ys hf hxs => ?_, fun f operands => ?_, fun t => ?_⟩
  · rw [formatted, String.toList_append]
    exact expand_append hf hxs g.toList ys
  · exact ⟨flatMap_text_directives f.toList, expand_eq_shownAll f.toList operands⟩
  · rw [formatted, String.toList_ofList]
    exact expand_doubled t.toList

theorem format_of_two_parts :
    let f := "%d%% "
    let g := "%s %v%z"
    .unfinished ∉ directives f.toList ∧ [Value.int 7].length = verbs (directives f.toList) ∧
    formatted (.str (f ++ g) :: ([.int 7] ++ [.str "a"])) = "7% a %!v(MISSING)%z".toList := by
  intro f g
  have hf : .unfinished ∉ directives f.toList := by decide
  have hxs : [Value.int 7].length = verbs (directives f.toList) := by decide
  refine ⟨hf, hxs, (format_uses_each_operand_once.1 f g [.int 7] [.str "a"] hf hxs).trans ?_⟩
  decide

example : formatted [.str ("%" ++ "s"), .str "x"] = ['x'] ∧
    formatted [.str "%"] ++ formatted [.str "s", .str "x"] ≠ ['x'] := by decide

end EmbeddedLisp.Format
