import EmbeddedLisp.Proofs.Lexing

/-!
# Lexing by bytes

The rules can count bytes in place of characters: runs of digits and of blanks on the
bytes of the text itself, everything else by the offset at which a character begins. A
text is then cut at byte offsets, and a cut that is not between two characters is a
fault. A lexer that works in this way never runs into the fault, on any text, and gives
what the lexer on characters gives.
-/

set_option autoImplicit false

namespace EmbeddedLisp

theorem byteLength_eq_zero {text : List Char} (h : byteLength text = 0) : text = [] := by
  cases text with
  | nil => rfl
  | cons c text =>
    have := c.utf8Size_pos
    rw [byteLength_cons] at h
    omega

theorem byteLength_pos {text : List Char} (h : text ≠ []) : 0 < byteLength text :=
  Nat.pos_of_ne_zero fun hz => h (byteLength_eq_zero hz)

/-- A text in two, cut at a byte offset. There is no cut inside a character, and none
behind the end. -/
def cutAt? : Nat → List Char → Option (List Char × List Char)
  | 0, text => some ([], text)
  | _ + 1, [] => none
  | n + 1, c :: text =>
    if c.utf8Size ≤ n + 1 then
      (cutAt? (n + 1 - c.utf8Size) text).map fun (front, rest) => (c :: front, rest)
    else none

/-- The text of the given number of bytes at a byte offset. -/
def slice? (offset length : Nat) (text : List Char) : Option (List Char) :=
  match cutAt? offset text with
  | some (_, rest) => (cutAt? length rest).map Prod.fst
  | none => none

theorem cutAt?_cons {n : Nat} {c : Char} {text : List Char} (h : c.utf8Size ≤ n) :
    cutAt? n (c :: text) =
      (cutAt? (n - c.utf8Size) text).map fun (front, rest) => (c :: front, rest) := by
  obtain ⟨k, rfl⟩ : ∃ k, n = k + 1 :=
    Nat.exists_eq_succ_of_ne_zero (by have := c.utf8Size_pos; omega)
  rw [cutAt?, if_pos h]

theorem cutAt?_append (front rest : List Char) :
    cutAt? (byteLength front) (front ++ rest) = some (front, rest) := by
  induction front with
  | nil => cases rest <;> rfl
  | cons c front ih =>
    rw [byteLength_cons, List.cons_append, cutAt?_cons (by omega), Nat.add_sub_cancel_left, ih]
    rfl

theorem cutAt?_eq_some_iff {n : Nat} {text front rest : List Char} :
    cutAt? n text = some (front, rest) ↔ text = front ++ rest ∧ byteLength front = n := by
  constructor
  · intro h
    induction text generalizing n front with
    | nil =>
      cases n with
      | zero => simp_all [cutAt?]
      | succ n => simp [cutAt?] at h
    | cons c text ih =>
      cases n with
      | zero =>
        simp only [cutAt?, Option.some.injEq, Prod.mk.injEq] at h
        simp [← h.1, h.2]
      | succ n =>
        rw [cutAt?] at h
        split at h
        · obtain ⟨⟨front', rest'⟩, hc, he⟩ := Option.map_eq_some_iff.1 h
          simp only [Prod.mk.injEq] at he
          obtain ⟨rfl, rfl⟩ := he
          obtain ⟨rfl, hn⟩ := ih hc
          exact ⟨rfl, by rw [byteLength_cons]; omega⟩
        · simp at h
  · rintro ⟨rfl, rfl⟩
    exact cutAt?_append front rest

example : cutAt? 1 ['é', 'x'] = none ∧ cutAt? 2 ['é', 'x'] = some (['é'], ['x']) := by decide

theorem cutAt?_inside (front : List Char) (c : Char) (rest : List Char) {k : Nat} (hpos : 0 < k)
    (hlt : k < c.utf8Size) : cutAt? (byteLength front + k) (front ++ c :: rest) = none := by
  induction front with
  | nil =>
    obtain ⟨n, rfl⟩ : ∃ n, k = n + 1 := Nat.exists_eq_succ_of_ne_zero (by omega)
    rw [byteLength_nil, Nat.zero_add, List.nil_append, cutAt?, if_neg (by omega)]
  | cons d front ih =>
    rw [byteLength_cons, List.cons_append, cutAt?_cons (by omega), Nat.add_assoc,
      Nat.add_sub_cancel_left, ih]
    rfl

theorem slice?_append (before text after : List Char) :
    slice? (byteLength before) (byteLength text) (before ++ (text ++ after)) = some text := by
  simp [slice?, cutAt?_append]

theorem slice?_eq_some_iff {offset length : Nat} {source text : List Char} :
    slice? offset length source = some text ↔ ∃ before after,
      source = before ++ (text ++ after) ∧ byteLength before = offset ∧
        byteLength text = length := by
  constructor
  · intro h
    unfold slice? at h
    split at h
    · next before rest hc =>
      obtain ⟨⟨text', after⟩, hc', rfl⟩ := Option.map_eq_some_iff.1 h
      obtain ⟨rfl, hb⟩ := cutAt?_eq_some_iff.1 hc
      obtain ⟨rfl, ht⟩ := cutAt?_eq_some_iff.1 hc'
      exact ⟨before, after, rfl, hb, ht⟩
    · simp at h
  · rintro ⟨before, after, rfl, rfl, rfl⟩
    exact slice?_append before text after

theorem slice?_ne_of_end {source : List Char} {o : Nat} (ho : byteLength source ≤ o) (c : Char) :
    slice? o 1 source ≠ some [c] := by
  intro h
  obtain ⟨before, after, rfl, rfl, hl⟩ := slice?_eq_some_iff.1 h
  simp only [byteLength_append] at ho
  omega

/-- A text was to be cut where no cut is possible. -/
structure BadCut where
  text : List Char
  offset : Nat
  deriving DecidableEq, Repr

def cutAt (text : List Char) (offset : Nat) : Except BadCut (List Char × List Char) :=
  match cutAt? offset text with
  | some parts => .ok parts
  | none => .error ⟨text, offset⟩

theorem cutAt_append (front rest : List Char) :
    cutAt (front ++ rest) (byteLength front) = .ok (front, rest) := by
  simp [cutAt, cutAt?_append]

namespace Token
open EmbeddedLisp.Digits

def isDigitByte (b : UInt8) : Bool := 48 ≤ b && b ≤ 57

def isSpaceByte (b : UInt8) : Bool := b ∈ [32, 9, 10, 13]

def countBytes (belongs : UInt8 → Bool) (text : List Char) : Nat :=
  ((text.flatMap String.utf8EncodeChar).takeWhile belongs).length

def findByte (test : Char → Bool) : List Char → Nat
  | [] => 0
  | c :: text => if test c then 0 else c.utf8Size + findByte test text

def nonEmpty : Nat → Option Nat
  | 0 => none
  | n + 1 => some (n + 1)

def floatBytes (text : List Char) : Except BadCut (Option Nat) :=
  match nonEmpty (countBytes isDigitByte text) with
  | none => .ok none
  | some whole =>
    match cutAt text whole with
    | .error e => .error e
    | .ok (_, '.' :: rest) =>
      .ok ((nonEmpty (countBytes isDigitByte rest)).map fun part => whole + 1 + part)
    | .ok _ => .ok none

/-- The length of a string literal, both quotes included, of which the given offset was
reached behind the opening one. -/
def closingByte? (offset : Nat) : List Char → Option Nat
  | [] => none
  | '"' :: _ => some (offset + 2)
  | ['\\'] => none
  | '\\' :: c :: text => closingByte? (offset + 1 + c.utf8Size) text
  | c :: text => closingByte? (offset + c.utf8Size) text

def Kind.ruleBytes : Kind → List Char → Except BadCut (Option Nat)
  | .comment, '/' :: '/' :: text => .ok (some (findByte (· = '\n') ('/' :: '/' :: text)))
  | .comment, _ => .ok none
  | .float, text => floatBytes text
  | .integer, text => .ok (nonEmpty (countBytes isDigitByte text))
  | .string, '"' :: text => .ok (closingByte? 0 text)
  | .string, _ => .ok none
  | .punctuation, text => .ok (punctuation? text)
  | .whitespace, text => .ok (nonEmpty (countBytes isSpaceByte text))
  | .identifier, text => .ok (nonEmpty (findByte (fun c => isBreak c || isPunctuation c) text))

def firstMatchBytes (text : List Char) : List Kind → Except BadCut (Option (Kind × Nat))
  | [] => .ok none
  | kind :: kinds =>
    match kind.ruleBytes text with
    | .error e => .error e
    | .ok (some n) => .ok (some (kind, n))
    | .ok none => firstMatchBytes text kinds

def frontBytes (text : List Char) : Except BadCut (Option (Piece × Nat × List Char)) :=
  match firstMatchBytes text precedence with
  | .error e => .error e
  | .ok none => .ok none
  | .ok (some (kind, n)) => (cutAt text n).map fun (front, rest) => some (⟨kind, front⟩, n, rest)

theorem utf8EncodeChar_cases (c : Char) :
    (∃ b, String.utf8EncodeChar c = [b] ∧ b.toNat = c.toNat ∧ c.utf8Size = 1) ∨
      (∃ b bs, String.utf8EncodeChar c = b :: bs ∧ 128 ≤ b.toNat ∧ 128 ≤ c.toNat) := by
  by_cases hc : c.val ≤ 127
  · refine .inl ⟨_, String.utf8EncodeChar_eq_singleton (Char.utf8Size_eq_one_iff.2 hc), ?_,
      Char.utf8Size_eq_one_iff.2 hc⟩
    have : c.val.toNat ≤ 127 := UInt32.le_iff_toNat_le.1 hc
    simp only [UInt32.toNat_toUInt8, Char.toNat]
    omega
  · have hn : ¬ c.val.toNat ≤ 127 := fun h => hc (UInt32.le_iff_toNat_le.2 h)
    refine .inr ?_
    unfold String.utf8EncodeChar
    simp only [if_neg hn]
    split
    · refine ⟨_, _, rfl, ?_, by simp only [Char.toNat]; omega⟩
      simp only [UInt8.toNat_ofNat']
      omega
    · split
      · refine ⟨_, _, rfl, ?_, by simp only [Char.toNat]; omega⟩
        simp only [UInt8.toNat_ofNat']
        omega
      · refine ⟨_, _, rfl, ?_, by simp only [Char.toNat]; omega⟩
        simp only [UInt8.toNat_ofNat']
        omega

structure SameClass (ofByte : UInt8 → Bool) (ofChar : Char → Bool) : Prop where
  same : ∀ b c, b.toNat = c.toNat → ofByte b = ofChar c
  byte : ∀ b, 128 ≤ b.toNat → ofByte b = false
  char : ∀ c, 128 ≤ c.toNat → ofChar c = false

theorem sameClass_digit : SameClass isDigitByte isDigit where
  same b c h := by
    simp [isDigitByte, isDigit, UInt8.le_iff_toNat_le, Char.le_def, UInt32.le_iff_toNat_le, h]
  byte b h := by
    simp only [isDigitByte, UInt8.le_iff_toNat_le, Bool.and_eq_false_iff, decide_eq_false_iff_not]
    right
    change ¬ b.toNat ≤ 57
    omega
  char c h := by
    simp only [isDigit, Char.le_def, UInt32.le_iff_toNat_le, Bool.and_eq_false_iff,
      decide_eq_false_iff_not]
    right
    change ¬ c.toNat ≤ 57
    omega

theorem sameClass_space : SameClass isSpaceByte isSpace where
  same b c h := by
    simp only [isSpaceByte, isSpace, List.mem_cons, List.not_mem_nil, or_false,
      ← UInt8.toNat_inj, ← Char.toNat_inj, h]
    rfl
  byte b h := by
    simp only [isSpaceByte, List.mem_cons, List.not_mem_nil, or_false, ← UInt8.toNat_inj,
      decide_eq_false_iff_not]
    change ¬ (b.toNat = 32 ∨ b.toNat = 9 ∨ b.toNat = 10 ∨ b.toNat = 13)
    omega
  char c h := by
    simp only [isSpace, List.mem_cons, List.not_mem_nil, or_false, ← Char.toNat_inj,
      decide_eq_false_iff_not]
    change ¬ (c.toNat = 32 ∨ c.toNat = 9 ∨ c.toNat = 10 ∨ c.toNat = 13)
    omega

theorem countBytes_eq {ofByte : UInt8 → Bool} {ofChar : Char → Bool} (h : SameClass ofByte ofChar)
    (text : List Char) : countBytes ofByte text = byteLength (text.takeWhile ofChar) := by
  unfold countBytes
  induction text with
  | nil => rfl
  | cons c text ih =>
    rw [List.flatMap_cons, List.takeWhile_cons]
    rcases utf8EncodeChar_cases c with ⟨b, hb, hc, hsize⟩ | ⟨b, bs, hb, hhigh, hc⟩
    · rw [hb, List.singleton_append, List.takeWhile_cons, h.same b c hc]
      split
      · rw [List.length_cons, ih, byteLength_cons, hsize, Nat.add_comm]
      · rfl
    · simp [hb, h.byte b hhigh, h.char c hc]

theorem findByte_eq (test : Char → Bool) (text : List Char) :
    findByte test text = byteLength (text.takeWhile fun c => !test c) := by
  induction text with
  | nil => rfl
  | cons c text ih =>
    rw [findByte, List.takeWhile_cons]
    cases hc : test c with
    | true => simp
    | false => simp [ih]

theorem closingByte?_eq (offset : Nat) (text : List Char) :
    closingByte? offset text =
      (closing? text).map fun n => offset + 1 + byteLength (text.take n) := by
  fun_induction closing? text generalizing offset with
  | case1 => rfl
  | case2 text =>
    have : '"'.utf8Size = 1 := by decide
    simp [closingByte?, this]
  | case3 => rfl
  | case4 c text ih =>
    have : '\\'.utf8Size = 1 := by decide
    rw [closingByte?, ih]
    cases closing? text with
    | none => rfl
    | some n =>
      simp only [Option.map_some, List.take_succ_cons, byteLength_cons, Option.some.injEq]
      omega
  | case5 c text hq hb hb' ih =>
    rw [closingByte?.eq_5 _ _ _ hq hb hb', ih]
    cases closing? text with
    | none => rfl
    | some n =>
      simp only [Option.map_some, List.take_succ_cons, byteLength_cons, Option.some.injEq]
      omega

theorem nonEmpty_of_pos {n : Nat} (h : 0 < n) : nonEmpty n = some n := by
  cases n with
  | zero => omega
  | succ n => rfl

theorem take_length_takeWhile (belongs : Char → Bool) (text : List Char) :
    text.take (text.takeWhile belongs).length = text.takeWhile belongs :=
  (List.prefix_iff_eq_take.1 (List.takeWhile_prefix belongs)).symm

theorem nonEmpty_run {belongs : Char → Bool} (text : List Char) :
    nonEmpty (byteLength (text.takeWhile belongs)) =
      (run? belongs text).map fun n => byteLength (text.take n) := by
  by_cases hnil : text.takeWhile belongs = []
  · simp [run?, hnil, nonEmpty]
  · have hs : Stops belongs (text.dropWhile belongs) := stops_dropWhile belongs text
    have hf : ∀ c ∈ text.takeWhile belongs, belongs c = true :=
      List.all_eq_true.1 List.all_takeWhile
    have hr : run? belongs text = some (text.takeWhile belongs).length := by
      simpa using run?_run hnil hf hs
    rw [hr, Option.map_some, take_length_takeWhile, nonEmpty_of_pos (byteLength_pos hnil)]

theorem nonEmpty_digits (text : List Char) : nonEmpty (countBytes isDigitByte text) =
    (run? isDigit text).map fun n => byteLength (text.take n) := by
  rw [countBytes_eq sameClass_digit, nonEmpty_run]

theorem byteLength_dot : byteLength ['.'] = 1 := by decide

theorem floatBytes_eq (text : List Char) :
    floatBytes text = .ok ((float? text).map fun n => byteLength (text.take n)) := by
  unfold floatBytes float?
  rw [nonEmpty_digits]
  cases hr : run? isDigit text with
  | none => rfl
  | some n =>
    obtain ⟨whole, rest, rfl, rfl, hne, hw, hs⟩ := run?_eq_some hr
    simp only [Option.map_some, List.take_left, cutAt_append, dropWhile_run hw hs]
    cases rest with
    | nil => rfl
    | cons c rest =>
      by_cases hc : c = '.'
      · subst hc
        simp only [nonEmpty_digits]
        cases run? isDigit rest with
        | none => rfl
        | some part =>
          have ht : (whole ++ '.' :: rest).take (whole.length + 1 + part) =
              whole ++ ['.'] ++ rest.take part := by
            rw [List.append_cons, ← List.length_singleton (a := '.'), ← List.length_append,
              List.take_length_add_append]
          simp only [Option.map_some, ht, byteLength_append, byteLength_dot]
      · simp [hc]

theorem isIdentifierChar_eq : isIdentifierChar = fun c => !(isBreak c || isPunctuation c) := by
  funext c
  simp [isIdentifierChar]

theorem byteLength_of_punctuation {c : Char} (h : isPunctuation c = true) : c.utf8Size = 1 := by
  simp only [isPunctuation, List.mem_cons, List.not_mem_nil, or_false, decide_eq_true_eq] at h
  rcases h with rfl | rfl | rfl | rfl | rfl | rfl | rfl | rfl | rfl <;> decide

theorem ruleBytes_eq (kind : Kind) (text : List Char) :
    kind.ruleBytes text = .ok ((kind.rule text).map fun n => byteLength (text.take n)) := by
  cases kind with
  | comment =>
    simp only [Kind.rule, comment?]
    split
    · next tail =>
      rw [Kind.ruleBytes, findByte_eq, Option.map_some, List.take_succ_cons, List.take_succ_cons,
        take_length_takeWhile]
      simp
    · next h => rw [Kind.ruleBytes.eq_2 _ h]; rfl
  | float => exact floatBytes_eq text
  | integer => rw [Kind.ruleBytes, nonEmpty_digits]; rfl
  | string =>
    simp only [Kind.rule, string?]
    split
    · next tail =>
      rw [Kind.ruleBytes, closingByte?_eq]
      cases closing? tail with
      | none => rfl
      | some n =>
        have : '"'.utf8Size = 1 := by decide
        simp [this]
    · next h => rw [Kind.ruleBytes.eq_6 _ h]; rfl
  | punctuation =>
    simp only [Kind.rule, Kind.ruleBytes, punctuation?]
    split
    · split
      · next hc => simp [byteLength_of_punctuation hc]
      · rfl
    · rfl
  | whitespace =>
    rw [Kind.ruleBytes, countBytes_eq sameClass_space, nonEmpty_run]
    rfl
  | identifier =>
    rw [Kind.ruleBytes, findByte_eq, ← isIdentifierChar_eq, nonEmpty_run]
    rfl

theorem firstMatchBytes_eq (text : List Char) (kinds : List Kind) :
    firstMatchBytes text kinds =
      .ok ((kinds.findSome? fun kind => (kind.rule text).map (kind, ·)).map
        fun found => (found.1, byteLength (text.take found.2))) := by
  induction kinds with
  | nil => rfl
  | cons kind kinds ih =>
    rw [firstMatchBytes, ruleBytes_eq, List.findSome?_cons]
    cases kind.rule text with
    | none => exact ih
    | some n => rfl

theorem frontBytes_eq (text : List Char) :
    frontBytes text = .ok ((firstMatch? text).map fun found =>
      (⟨found.1, text.take found.2⟩, byteLength (text.take found.2), text.drop found.2)) := by
  unfold frontBytes
  rw [firstMatchBytes_eq, ← firstMatch?]
  cases firstMatch? text with
  | none => rfl
  | some found =>
    have hcut := cutAt_append (text.take found.2) (text.drop found.2)
    rw [List.take_append_drop] at hcut
    simp only [Option.map_some, hcut]
    rfl

end Token

namespace Lexer
open Token

theorem frontBytes_shorter {text rest : List Char} {p : Piece} {n : Nat}
    (h : frontBytes text = .ok (some (p, n, rest))) : rest.length < text.length := by
  rw [frontBytes_eq, Except.ok.injEq] at h
  obtain ⟨⟨kind, k⟩, hm, he⟩ := Option.map_eq_some_iff.1 h
  have hpos := firstMatch?_pos hm
  obtain ⟨front, back, rfl, rfl, _⟩ := fits_of_firstMatch? hm
  simp only [Prod.mk.injEq, List.drop_left] at he
  rw [← he.2.2, List.length_append]
  omega

def nextBytes (l : Lexer) : Except BadCut (Option (Except Unmatched Token) × Lexer) :=
  match l.rest.head? with
  | none => .ok (none, l)
  | some c =>
    match _h : frontBytes l.rest with
    | .error e => .error e
    | .ok none => .ok (some (.error ⟨l.name, l.source, l.byte, c⟩), { l with rest := [] })
    | .ok (some (p, n, rest)) =>
      let behind : Lexer := { l with rest, byte := l.byte + n }
      if p.kind.isDiscarded then behind.nextBytes
      else .ok (some (.ok ⟨p.kind, String.ofList p.text, l.byte⟩), behind)
termination_by l.rest.length
decreasing_by exact frontBytes_shorter _h

theorem nextBytes_of_match {l : Lexer} {c : Char} {text : List Char} {found : Option (Kind × Nat)}
    (hr : l.rest = c :: text) (hm : firstMatch? l.rest = found) :
    l.nextBytes = match found with
      | none => .ok (some (.error ⟨l.name, l.source, l.byte, c⟩), { l with rest := [] })
      | some (kind, n) =>
        if kind.isDiscarded then (l.drop n).nextBytes
        else .ok (some (.ok (l.piece kind n)), l.drop n) := by
  have hf := frontBytes_eq l.rest
  have hc : l.rest.head? = some c := by rw [hr]; rfl
  rw [hm] at hf
  rw [nextBytes.eq_def]
  simp only [hc]
  cases found with
  | none =>
    split
    · next h => simp [hf] at h
    · rfl
    · next h => simp [hf] at h
  | some found =>
    split
    · next h => simp [hf] at h
    · next h => simp [hf] at h
    · next p n rest h =>
      simp only [hf, Option.map_some, Except.ok.injEq, Option.some.injEq, Prod.mk.injEq] at h
      obtain ⟨rfl, rfl, rfl⟩ := h
      rfl

theorem nextBytes_eq (l : Lexer) : l.nextBytes = .ok l.next := by
  fun_induction next l with
  | case1 l hr =>
    rw [nextBytes.eq_def]
    simp [hr]
  | case2 l c text hr hm => exact nextBytes_of_match hr hm
  | case3 l c text hr kind n hm hd ih =>
    rw [nextBytes_of_match hr hm]
    exact (if_pos hd).trans ih
  | case4 l c text hr kind n hm hd =>
    rw [nextBytes_of_match hr hm]
    exact if_neg hd

theorem nextBytes_shorter {l l' : Lexer} {step : Except Unmatched Token}
    (h : l.nextBytes = .ok (some step, l')) : l'.rest.length < l.rest.length := by
  rw [nextBytes_eq, Except.ok.injEq] at h
  exact next_shorter h

/-- Runs a lexer to its end, with the text cut at byte offsets. -/
def runBytes (l : Lexer) : Except BadCut Scan :=
  match _h : l.nextBytes with
  | .error e => .error e
  | .ok (none, l') => .ok ⟨[], none, l'.byte⟩
  | .ok (some (.error e), l') => .ok ⟨[], some e, l'.byte⟩
  | .ok (some (.ok t), l') =>
    l'.runBytes.map fun scan => { scan with tokens := t :: scan.tokens }
termination_by l.rest.length
decreasing_by exact nextBytes_shorter _h

theorem runBytes_eq (l : Lexer) : l.runBytes = .ok l.run := by
  generalize hn : l.rest.length = n
  induction n using Nat.strongRecOn generalizing l with
  | _ n ih =>
    rw [runBytes.eq_def, run_eq]
    have hnext := nextBytes_eq l
    split
    · next h => simp [h] at hnext
    · next h => simp [← Except.ok.inj (h.symm.trans hnext)]
    · next h => simp [← Except.ok.inj (h.symm.trans hnext)]
    · next t l' h =>
      have hl := Except.ok.inj (h.symm.trans hnext)
      rw [ih _ (hn ▸ nextBytes_shorter h) l' rfl]
      simp [← hl, Except.map]

end Lexer

end EmbeddedLisp
