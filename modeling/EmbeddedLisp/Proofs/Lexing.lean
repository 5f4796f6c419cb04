import EmbeddedLisp.Token.Lexer

/-!
# Texts as sequences of pieces

What the rules take off the front of a text is described without the order in which
they are tried: a piece of a kind fits in front of the text that follows it. A source
text is cut into tokens exactly when it is a sequence of pieces that fit, and the
tokens are those pieces that are not passed over.
-/

set_option autoImplicit false

namespace EmbeddedLisp.Token
open EmbeddedLisp.Digits

def Stops (belongs : Char → Bool) (rest : List Char) : Prop :=
  ∀ c ∈ rest.head?, belongs c = false

/-- The inside of a string literal: a backslash protects the character behind it, and no
other character is a quote. -/
def isBody : List Char → Bool
  | [] => true
  | '"' :: _ => false
  | ['\\'] => false
  | '\\' :: _ :: text => isBody text
  | _ :: text => isBody text

def Fraction (rest : List Char) : Prop :=
  ∃ d tail, rest = '.' :: d :: tail ∧ isDigit d = true

/-- A piece of the given kind and text may stand in front of the rest. A quote begins an
identifier only if no closing quote follows, however far away. -/
def Fits : Kind → List Char → List Char → Prop
  | .comment, text, rest => ∃ line, text = '/' :: '/' :: line ∧ (∀ c ∈ line, c ≠ '\n') ∧
      Stops (· ≠ '\n') rest
  | .float, text, rest => ∃ whole part, text = whole ++ '.' :: part ∧ whole ≠ [] ∧ part ≠ [] ∧
      (∀ c ∈ whole, isDigit c = true) ∧ (∀ c ∈ part, isDigit c = true) ∧ Stops isDigit rest
  | .integer, text, rest => text ≠ [] ∧ (∀ c ∈ text, isDigit c = true) ∧ Stops isDigit rest ∧
      ¬ Fraction rest
  | .string, text, _ => ∃ body, text = '"' :: body ++ ['"'] ∧ isBody body = true
  | .punctuation, text, _ => ∃ c, text = [c] ∧ isPunctuation c = true
  | .whitespace, text, rest => text ≠ [] ∧ (∀ c ∈ text, isSpace c = true) ∧ Stops isSpace rest
  | .identifier, text, rest => text ≠ [] ∧ (∀ c ∈ text, isIdentifierChar c = true) ∧
      Stops isIdentifierChar rest ∧ (∀ c ∈ text.head?, isDigit c = false) ∧
      (∀ tail, text ≠ '/' :: '/' :: tail) ∧
      ∀ name, text = '"' :: name → closing? (name ++ rest) = none

theorem takeWhile_of_stops {belongs : Char → Bool} {rest : List Char} (h : Stops belongs rest) :
    rest.takeWhile belongs = [] := by
  cases rest with
  | nil => rfl
  | cons c rest => simp [h c (by simp)]

theorem dropWhile_of_stops {belongs : Char → Bool} {rest : List Char} (h : Stops belongs rest) :
    rest.dropWhile belongs = rest := by
  cases rest with
  | nil => rfl
  | cons c rest => simp [h c (by simp)]

theorem stops_dropWhile (belongs : Char → Bool) (text : List Char) :
    Stops belongs (text.dropWhile belongs) := by
  intro c hc
  simpa [Option.mem_def.1 hc] using List.head?_dropWhile_not belongs text

theorem takeWhile_run {belongs : Char → Bool} {text rest : List Char}
    (ht : ∀ c ∈ text, belongs c = true) (hr : Stops belongs rest) :
    (text ++ rest).takeWhile belongs = text := by
  rw [List.takeWhile_append_of_pos ht, takeWhile_of_stops hr, List.append_nil]

theorem dropWhile_run {belongs : Char → Bool} {text rest : List Char}
    (ht : ∀ c ∈ text, belongs c = true) (hr : Stops belongs rest) :
    (text ++ rest).dropWhile belongs = rest := by
  rw [List.dropWhile_append_of_pos ht, dropWhile_of_stops hr]

theorem run?_of_stops {belongs : Char → Bool} {rest : List Char} (h : Stops belongs rest) :
    run? belongs rest = none := by
  simp [run?, takeWhile_of_stops h]

theorem run?_run {belongs : Char → Bool} {text rest : List Char} (hne : text ≠ [])
    (ht : ∀ c ∈ text, belongs c = true) (hr : Stops belongs rest) :
    run? belongs (text ++ rest) = some text.length := by
  rw [run?, takeWhile_run ht hr]
  cases text with
  | nil => exact absurd rfl hne
  | cons c text => rfl

theorem run?_eq_some {belongs : Char → Bool} {input : List Char} {n : Nat}
    (h : run? belongs input = some n) :
    ∃ text rest, input = text ++ rest ∧ text.length = n ∧ text ≠ [] ∧
      (∀ c ∈ text, belongs c = true) ∧ Stops belongs rest := by
  have hn : (input.takeWhile belongs).length = n ∧ 0 < n := by
    unfold run? at h
    split at h
    · simp at h
    · next m hm =>
      simp only [Option.some.injEq] at h
      omega
  refine ⟨input.takeWhile belongs, input.dropWhile belongs, List.takeWhile_append_dropWhile.symm,
    hn.1, ?_, fun c hc => (List.all_eq_true.1 List.all_takeWhile) c hc, stops_dropWhile _ _⟩
  intro he
  rw [he] at hn
  simp only [List.length_nil] at hn
  omega

/-- Neither a quote nor a backslash: such a character does not matter to a closing quote. -/
def Plain (c : Char) : Prop := c ≠ '"' ∧ c ≠ '\\'

instance (c : Char) : Decidable (Plain c) := inferInstanceAs (Decidable (_ ∧ _))

theorem plain_of_ne {c : Char} {text : List Char} (hq : c = '"' → False)
    (hb : c = '\\' → text = [] → False)
    (hb' : ∀ d tail, c = '\\' → text = d :: tail → False) : Plain c := by
  refine ⟨hq, fun hc => ?_⟩
  cases text with
  | nil => exact hb hc rfl
  | cons d tail => exact hb' d tail hc rfl

theorem closing?_plain {c : Char} (h : Plain c) (rest : List Char) :
    closing? (c :: rest) = (closing? rest).map (· + 1) := by
  rw [closing?.eq_5]
  · exact h.1
  · intro hc _
    exact h.2 hc
  · intro _ _ hc _
    exact h.2 hc

theorem closing?_plain_eq_none {c : Char} (h : Plain c) {rest : List Char} :
    closing? (c :: rest) = none ↔ closing? rest = none := by
  simp [closing?_plain h]

theorem closing?_plain_append {text : List Char} (h : ∀ c ∈ text, Plain c) {rest : List Char} :
    closing? (text ++ rest) = none ↔ closing? rest = none := by
  induction text with
  | nil => rfl
  | cons c text ih =>
    rw [List.cons_append, closing?_plain_eq_none (h c (by simp)), ih fun d hd => h d (by simp [hd])]

theorem closing?_append {text rest : List Char} {c : Char} (h : Plain c) :
    closing? (text ++ c :: rest) = none ↔ closing? text = none ∧ closing? rest = none := by
  fun_induction closing? text with
  | case1 => simp [closing?_plain_eq_none h]
  | case2 text => simp [closing?]
  | case3 => simp [closing?]
  | case4 d text ih => simp [closing?, ih]
  | case5 d text hq hb hb' ih =>
    have hd : Plain d := plain_of_ne hq hb hb'
    simp [closing?_plain hd, ih]

theorem closing?_body {body : List Char} (h : isBody body = true) (rest : List Char) :
    closing? (body ++ '"' :: rest) = some (body.length + 1) := by
  fun_induction isBody body with
  | case1 => simp [closing?]
  | case2 => simp at h
  | case3 => simp at h
  | case4 d text ih => simp [closing?, ih h]
  | case5 d text hq hb hb' ih =>
    have hd : Plain d := plain_of_ne hq hb hb'
    simp [closing?_plain hd, ih h]

theorem closing?_eq_some {input : List Char} {n : Nat} (h : closing? input = some n) :
    ∃ body rest, input = body ++ '"' :: rest ∧ body.length + 1 = n ∧ isBody body = true := by
  fun_induction closing? input generalizing n with
  | case1 => simp at h
  | case2 text =>
    simp only [Option.some.injEq] at h
    exact ⟨[], text, rfl, h, rfl⟩
  | case3 => simp at h
  | case4 d text ih =>
    obtain ⟨m, hm, rfl⟩ := Option.map_eq_some_iff.1 h
    obtain ⟨body, rest, rfl, rfl, hb⟩ := ih hm
    exact ⟨'\\' :: d :: body, rest, rfl, rfl, hb⟩
  | case5 d text hq hb hb' ih =>
    obtain ⟨m, hm, rfl⟩ := Option.map_eq_some_iff.1 h
    obtain ⟨body, rest, rfl, rfl, hB⟩ := ih hm
    refine ⟨d :: body, rest, rfl, rfl, ?_⟩
    rw [isBody.eq_5]
    · exact hB
    · exact hq
    · rintro hd rfl
      exact hb' _ _ hd rfl
    · rintro e tail hd rfl
      exact hb' _ _ hd rfl

theorem comment?_fits {input : List Char} {n : Nat} (h : comment? input = some n) :
    ∃ text rest, input = text ++ rest ∧ text.length = n ∧ Fits .comment text rest := by
  unfold comment? at h
  split at h
  · next tail =>
    simp only [Option.some.injEq] at h
    refine ⟨'/' :: '/' :: tail.takeWhile (· ≠ '\n'), tail.dropWhile (· ≠ '\n'), ?_, ?_, _, rfl, ?_,
      stops_dropWhile _ _⟩
    · simp only [List.cons_append, List.takeWhile_append_dropWhile]
    · simpa using h
    · intro c hc
      simpa using (List.all_eq_true.1 List.all_takeWhile) c hc
  · simp at h

theorem float?_fits {input : List Char} {n : Nat} (h : float? input = some n) :
    ∃ text rest, input = text ++ rest ∧ text.length = n ∧ Fits .float text rest := by
  unfold float? at h
  split at h
  · next m tail hw hd =>
    obtain ⟨k, hk, rfl⟩ := Option.map_eq_some_iff.1 h
    obtain ⟨whole, rest, rfl, rfl, hne, hw, hr⟩ := run?_eq_some hw
    rw [dropWhile_run hw hr] at hd
    obtain ⟨part, rest', rfl, rfl, hne', hp, hr'⟩ := run?_eq_some hk
    exact ⟨whole ++ '.' :: part, rest', by simp [hd], by simp; omega, whole, part, rfl, hne, hne',
      hw, hp, hr'⟩
  · simp at h

theorem integer_fits {input : List Char} {n : Nat} (hf : float? input = none)
    (h : run? isDigit input = some n) :
    ∃ text rest, input = text ++ rest ∧ text.length = n ∧ Fits .integer text rest := by
  obtain ⟨text, rest, rfl, rfl, hne, ht, hr⟩ := run?_eq_some h
  refine ⟨text, rest, rfl, rfl, hne, ht, hr, ?_⟩
  rintro ⟨d, tail, rfl, hd⟩
  have hpart : run? isDigit (d :: tail) ≠ none := by
    simp [run?, hd]
  unfold float? at hf
  rw [dropWhile_run ht hr, run?_run hne ht hr] at hf
  simp only [Option.map_eq_none_iff] at hf
  exact hpart hf

theorem string?_fits {input : List Char} {n : Nat} (h : string? input = some n) :
    ∃ text rest, input = text ++ rest ∧ text.length = n ∧ Fits .string text rest := by
  unfold string? at h
  split at h
  · next tail =>
    obtain ⟨m, hm, rfl⟩ := Option.map_eq_some_iff.1 h
    obtain ⟨body, rest, rfl, rfl, hb⟩ := closing?_eq_some hm
    exact ⟨'"' :: body ++ ['"'], rest, by simp, by simp, body, rfl, hb⟩
  · simp at h

theorem punctuation?_fits {input : List Char} {n : Nat} (h : punctuation? input = some n) :
    ∃ text rest, input = text ++ rest ∧ text.length = n ∧ Fits .punctuation text rest := by
  unfold punctuation? at h
  split at h
  · next c tail =>
    split at h
    · next hc =>
      simp only [Option.some.injEq] at h
      exact ⟨[c], tail, rfl, h, c, rfl, hc⟩
    · simp at h
  · simp at h

theorem whitespace_fits {input : List Char} {n : Nat} (h : run? isSpace input = some n) :
    ∃ text rest, input = text ++ rest ∧ text.length = n ∧ Fits .whitespace text rest := by
  obtain ⟨text, rest, rfl, rfl, hne, ht, hr⟩ := run?_eq_some h
  exact ⟨text, rest, rfl, rfl, hne, ht, hr⟩

theorem identifier_fits {input : List Char} {n : Nat} (hc : comment? input = none)
    (hi : run? isDigit input = none) (hs : string? input = none)
    (h : run? isIdentifierChar input = some n) :
    ∃ text rest, input = text ++ rest ∧ text.length = n ∧ Fits .identifier text rest := by
  obtain ⟨text, rest, rfl, rfl, hne, ht, hr⟩ := run?_eq_some h
  refine ⟨text, rest, rfl, rfl, hne, ht, hr, ?_, ?_, ?_⟩
  · intro c hc
    cases text with
    | nil => simp at hc
    | cons d text =>
      obtain rfl : d = c := by simpa using hc
      cases hd : isDigit d with
      | false => rfl
      | true => simp [run?, hd] at hi
  · rintro tail rfl
    simp [comment?] at hc
  · rintro name rfl
    simpa [string?] using hs

theorem firstMatch?_eq_some_iff {input : List Char} {kind : Kind} {n : Nat} :
    firstMatch? input = some (kind, n) ↔ kind.rule input = some n ∧
      ∀ k ∈ precedence.takeWhile (· ≠ kind), k.rule input = none := by
  have hmem : kind ∈ precedence := by cases kind <;> decide
  unfold firstMatch?
  generalize precedence = kinds at hmem ⊢
  induction kinds with
  | nil => simp at hmem
  | cons k ks ih =>
    by_cases hk : k = kind
    · subst hk
      cases hr : k.rule input with
      | some m => simp [hr]
      | none =>
        simp only [List.findSome?_cons, hr, Option.map_none, reduceCtorEq, false_and, iff_false]
        intro h
        obtain ⟨j, _, hj⟩ := List.exists_of_findSome?_eq_some h
        obtain ⟨m, hm, he⟩ := Option.map_eq_some_iff.1 hj
        obtain rfl : j = k := congrArg Prod.fst he
        simp [hr] at hm
    · have hks : kind ∈ ks := by simpa [Ne.symm hk] using hmem
      cases hr : k.rule input with
      | some m => simp [hr, hk]
      | none => simpa [hr, hk] using ih hks

theorem fits_of_firstMatch? {input : List Char} {kind : Kind} {n : Nat}
    (h : firstMatch? input = some (kind, n)) :
    ∃ text rest, input = text ++ rest ∧ text.length = n ∧ Fits kind text rest := by
  obtain ⟨hr, hb⟩ := firstMatch?_eq_some_iff.1 h
  cases kind with
  | comment => exact comment?_fits hr
  | float => exact float?_fits hr
  | integer => exact integer_fits (hb .float (by decide)) hr
  | string => exact string?_fits hr
  | punctuation => exact punctuation?_fits hr
  | whitespace => exact whitespace_fits hr
  | identifier =>
    exact identifier_fits (hb .comment (by decide)) (hb .integer (by decide))
      (hb .string (by decide)) hr

theorem comment?_of_ne {c : Char} {tail : List Char} (h : c ≠ '/') :
    comment? (c :: tail) = none := by
  simp [comment?, h]

theorem string?_of_ne {c : Char} {tail : List Char} (h : c ≠ '"') : string? (c :: tail) = none := by
  simp [string?, h]

theorem digits_none {c : Char} {tail : List Char} (h : isDigit c = false) :
    float? (c :: tail) = none ∧ run? isDigit (c :: tail) = none := by
  have hr : run? isDigit (c :: tail) = none := run?_of_stops (by simpa [Stops] using h)
  exact ⟨by simp [float?, hr], hr⟩

theorem isPunctuation_cases {c : Char} (h : isPunctuation c = true) :
    c ≠ '/' ∧ isDigit c = false ∧ c ≠ '"' ∧ isSpace c = false ∧ Plain c := by
  simp only [isPunctuation, List.mem_cons, List.not_mem_nil, or_false, decide_eq_true_eq] at h
  unfold Plain
  rcases h with rfl | rfl | rfl | rfl | rfl | rfl | rfl | rfl | rfl <;> decide

theorem isSpace_cases {c : Char} (h : isSpace c = true) :
    c ≠ '/' ∧ isDigit c = false ∧ c ≠ '"' ∧ isPunctuation c = false ∧ Plain c := by
  simp only [isSpace, List.mem_cons, List.not_mem_nil, or_false, decide_eq_true_eq] at h
  unfold Plain
  rcases h with rfl | rfl | rfl | rfl <;> decide

theorem isDigit_cases {c : Char} (h : isDigit c = true) : c ≠ '/' ∧ Plain c := by
  refine ⟨?_, ?_, ?_⟩ <;> rintro rfl <;> exact absurd h (by decide)

theorem isIdentifierChar_cases {c : Char} (h : isIdentifierChar c = true) :
    isPunctuation c = false ∧ isSpace c = false := by
  simp only [isIdentifierChar, isBreak, Bool.and_eq_true, Bool.not_eq_true',
    Bool.or_eq_false_iff] at h
  exact ⟨h.2, h.1.1⟩

theorem float?_of_fits {text rest : List Char} (h : Fits .float text rest) :
    float? (text ++ rest) = some text.length := by
  obtain ⟨whole, part, rfl, hne, hne', hw, hp, hr⟩ := h
  have hdot : Stops isDigit ('.' :: (part ++ rest)) := by simp [Stops, isDigit]
  rw [List.append_assoc, List.cons_append, float?, run?_run hne hw hdot, dropWhile_run hw hdot]
  simp only [run?_run hne' hp hr, Option.map_some, Option.some.injEq, List.length_append,
    List.length_cons]
  omega

theorem float?_of_integer {text rest : List Char} (h : Fits .integer text rest) :
    float? (text ++ rest) = none := by
  obtain ⟨hne, ht, hr, hf⟩ := h
  rw [float?, run?_run hne ht hr, dropWhile_run ht hr]
  split
  · next tail _ =>
    have hs : Stops isDigit tail := by
      intro d hd
      cases tail with
      | nil => simp at hd
      | cons e tail =>
        obtain rfl : e = d := by simpa using hd
        cases he : isDigit e with
        | false => rfl
        | true => exact absurd ⟨e, tail, rfl, he⟩ hf
    simp [run?_of_stops hs]
  · rfl

theorem comment?_of_identifier {text rest : List Char} (h : Fits .identifier text rest) :
    comment? (text ++ rest) = none := by
  obtain ⟨hne, _, hr, _, hc, _⟩ := h
  unfold comment?
  split
  · next tail he =>
    match text, hne with
    | [c], _ =>
      simp only [List.cons_append, List.nil_append, List.cons.injEq] at he
      have := hr '/' (by simp [he.2])
      exact absurd this (by decide)
    | c :: d :: text, _ =>
      simp only [List.cons_append, List.cons.injEq] at he
      exact absurd (by rw [he.1, he.2.1]) (hc text)
  · rfl

theorem string?_of_identifier {text rest : List Char} (h : Fits .identifier text rest) :
    string? (text ++ rest) = none := by
  obtain ⟨hne, _, _, _, _, hq⟩ := h
  cases text with
  | nil => exact absurd rfl hne
  | cons c text =>
    by_cases hc : c = '"'
    · subst hc
      simp [string?, hq text rfl]
    · exact string?_of_ne hc

theorem punctuation?_of_not {c : Char} {tail : List Char} (h : isPunctuation c = false) :
    punctuation? (c :: tail) = none := by
  simp [punctuation?, h]

theorem firstMatch?_of_fits {kind : Kind} {text rest : List Char} (h : Fits kind text rest) :
    firstMatch? (text ++ rest) = some (kind, text.length) := by
  rw [firstMatch?_eq_some_iff]
  cases kind with
  | comment =>
    obtain ⟨line, rfl, hl, hr⟩ := h
    have ht : (line ++ rest).takeWhile (· ≠ '\n') = line := takeWhile_run (by simpa using hl) hr
    exact ⟨by simp only [Kind.rule, List.cons_append, comment?, ht, List.length_cons],
      by simp [precedence]⟩
  | float =>
    refine ⟨float?_of_fits h, ?_⟩
    obtain ⟨whole, part, rfl, hne, _, hw, _, _⟩ := h
    cases whole with
    | nil => exact absurd rfl hne
    | cons c whole =>
      have hc := (isDigit_cases (hw c (by simp))).1
      simp [precedence, Kind.rule, comment?_of_ne hc]
  | integer =>
    have hf := float?_of_integer h
    obtain ⟨hne, ht, hr, _⟩ := h
    refine ⟨run?_run hne ht hr, ?_⟩
    cases text with
    | nil => exact absurd rfl hne
    | cons c text =>
      have hc := (isDigit_cases (ht c (by simp))).1
      simpa [precedence, Kind.rule, comment?_of_ne hc] using hf
  | string =>
    obtain ⟨body, rfl, hb⟩ := h
    have hd : isDigit '"' = false := by decide
    refine ⟨by simp [Kind.rule, string?, closing?_body hb], ?_⟩
    simp [precedence, Kind.rule, digits_none hd, comment?]
  | punctuation =>
    obtain ⟨c, rfl, hc⟩ := h
    obtain ⟨hs, hd, hq, _, _⟩ := isPunctuation_cases hc
    refine ⟨by simp [Kind.rule, punctuation?, hc], ?_⟩
    simp [precedence, Kind.rule, comment?_of_ne hs, digits_none hd, string?_of_ne hq]
  | whitespace =>
    obtain ⟨hne, ht, hr⟩ := h
    refine ⟨run?_run hne ht hr, ?_⟩
    cases text with
    | nil => exact absurd rfl hne
    | cons c text =>
      obtain ⟨hs, hd, hq, hp, _⟩ := isSpace_cases (ht c (by simp))
      simp [precedence, Kind.rule, comment?_of_ne hs, digits_none hd, string?_of_ne hq,
        punctuation?_of_not hp]
  | identifier =>
    have hc := comment?_of_identifier h
    have hs := string?_of_identifier h
    obtain ⟨hne, ht, hr, hd, _, _⟩ := h
    refine ⟨run?_run hne ht hr, ?_⟩
    cases text with
    | nil => exact absurd rfl hne
    | cons c text =>
      obtain ⟨hp, hw⟩ := isIdentifierChar_cases (ht c (by simp))
      have hw' : run? isSpace (c :: (text ++ rest)) = none :=
        run?_of_stops (by simpa [Stops] using hw)
      simpa [precedence, Kind.rule, digits_none (hd c (by simp)), punctuation?_of_not hp, hw']
        using ⟨hc, hs⟩

structure Piece where
  kind : Kind
  text : List Char
  deriving DecidableEq, Repr

def piece (t : Token) : Piece := ⟨t.kind, t.literal.toList⟩

/-- A text as a sequence of pieces, each of which fits in front of what follows it. -/
inductive Cut : List Char → List Piece → Prop
  | nil : Cut [] []
  | cons {kind : Kind} {text rest : List Char} {ps : List Piece} :
      Fits kind text rest → Cut rest ps → Cut (text ++ rest) (⟨kind, text⟩ :: ps)

def significant (ps : List Piece) : List Piece := ps.filter fun p => !p.kind.isDiscarded

end EmbeddedLisp.Token

namespace EmbeddedLisp.Lexer
open Token

theorem next_nil {l : Lexer} (h : l.rest = []) : l.next = (none, l) := by
  rw [next.eq_def]
  split
  · rfl
  · next hr => simp [h] at hr

theorem next_of_fits {l : Lexer} {kind : Kind} {text rest : List Char} (hf : Fits kind text rest)
    (hl : l.rest = text ++ rest) :
    l.next = if kind.isDiscarded then (l.drop text.length).next
      else (some (.ok (l.piece kind text.length)), l.drop text.length) := by
  have hm : firstMatch? l.rest = some (kind, text.length) := hl ▸ firstMatch?_of_fits hf
  have hpos := firstMatch?_pos hm
  rw [next.eq_def]
  split
  · next hr =>
    rw [hl, List.append_eq_nil_iff] at hr
    simp [hr.1] at hpos
  · split
    · next hn => simp [hm] at hn
    · next hk =>
      rw [hm, Option.some.injEq, Prod.mk.injEq] at hk
      obtain ⟨rfl, rfl⟩ := hk
      rfl

theorem next_error {l : Lexer} {c : Char} {tail : List Char} (hl : l.rest = c :: tail)
    (hm : firstMatch? l.rest = none) :
    l.next = (some (.error ⟨l.name, l.source, l.byte, c⟩), { l with rest := [] }) := by
  rw [next.eq_def]
  split
  · next hr => simp [hl] at hr
  · next d tail' hr =>
    obtain ⟨rfl, rfl⟩ : d = c ∧ tail' = tail := by simpa [hl, eq_comm] using hr
    split
    · rfl
    · next hk => simp [hm] at hk

theorem run_eq {l : Lexer} : l.run = match l.next with
    | (none, l') => ⟨[], none, l'.byte⟩
    | (some (.error e), l') => ⟨[], some e, l'.byte⟩
    | (some (.ok t), l') => { l'.run with tokens := t :: l'.run.tokens } := by
  rw [run.eq_def]
  split <;> next h => simp only [h]

theorem drop_rest {l : Lexer} {text rest : List Char} (hl : l.rest = text ++ rest) :
    (l.drop text.length).rest = rest := by
  simp [drop, hl]

theorem piece_of_append {l : Lexer} {kind : Kind} {text rest : List Char}
    (hl : l.rest = text ++ rest) : (l.piece kind text.length).piece = ⟨kind, text⟩ := by
  simp [piece, Token.piece, hl]

theorem run_of_cut {l : Lexer} {ps : List Piece} (h : Cut l.rest ps) :
    l.run.fault = none ∧ l.run.tokens.map Token.piece = significant ps := by
  generalize hr : l.rest = input at h
  induction h generalizing l with
  | nil =>
    rw [run_eq, next_nil hr]
    exact ⟨rfl, rfl⟩
  | @cons kind text rest ps hf _ ih =>
    have ih := ih (drop_rest hr)
    cases hd : kind.isDiscarded with
    | true =>
      rw [run_eq, next_of_fits hf hr, if_pos hd, ← run_eq]
      simpa [significant, hd] using ih
    | false =>
      rw [run_eq, next_of_fits hf hr, if_neg (by simp [hd])]
      simpa [significant, hd, piece_of_append hr] using ih

theorem run_fault_of_fits {l : Lexer} {kind : Kind} {text rest : List Char}
    (hf : Fits kind text rest) (hl : l.rest = text ++ rest) :
    l.run.fault = (l.drop text.length).run.fault := by
  cases hd : kind.isDiscarded with
  | true => rw [run_eq, next_of_fits hf hl, if_pos hd, ← run_eq]
  | false => rw [run_eq, next_of_fits hf hl, if_neg (by simp [hd])]

theorem exists_cut {l : Lexer} (h : l.run.fault = none) : ∃ ps, Cut l.rest ps := by
  generalize hn : l.rest.length = n
  induction n using Nat.strongRecOn generalizing l with
  | _ n ih =>
    cases hl : l.rest with
    | nil => exact ⟨[], .nil⟩
    | cons c tail =>
      cases hm : firstMatch? l.rest with
      | none => simp [run_eq, next_error hl hm] at h
      | some found =>
        obtain ⟨kind, k⟩ := found
        obtain ⟨text, rest, hr, rfl, hf⟩ := fits_of_firstMatch? hm
        have hshort := drop_length hl (firstMatch?_pos hm)
        rw [run_fault_of_fits hf hr] at h
        obtain ⟨ps, hps⟩ := ih _ (hn ▸ hshort) h rfl
        rw [drop_rest hr] at hps
        exact ⟨⟨kind, text⟩ :: ps, hl ▸ hr ▸ .cons hf hps⟩

end EmbeddedLisp.Lexer

namespace EmbeddedLisp
open Token

theorem tokenize_of_cut {source : String} {ps : List Piece} (h : Cut source.toList ps) :
    ∃ ts, tokenize source = .ok ts ∧ ts.map Token.piece = significant ps := by
  have hrun := Lexer.run_of_cut (l := Lexer.ofSource none source) h
  exact ⟨_, by simp [tokenize, hrun.1], hrun.2⟩

theorem cut_of_tokenize {source : String} {ts : List Token} (h : tokenize source = .ok ts) :
    ∃ ps, Cut source.toList ps ∧ ts.map Token.piece = significant ps := by
  unfold tokenize at h
  cases hf : (Lexer.ofSource none source).run.fault with
  | some e => simp [hf] at h
  | none =>
    obtain ⟨ps, hps⟩ := Lexer.exists_cut hf
    simp only [hf, Except.ok.injEq] at h
    exact ⟨ps, hps, h ▸ (Lexer.run_of_cut hps).2⟩

end EmbeddedLisp
