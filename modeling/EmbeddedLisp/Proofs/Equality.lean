import Mathlib.Algebra.Order.Ring.Int
import Mathlib.Data.List.Forall2
import EmbeddedLisp.Proofs.Legible

/-!
# What equality of values is

Two values are equal if their heads match and the values just inside of them are equal one
by one. Heads match as equal leaves do: floats when they stand for the same number, host
objects when they are one object. That makes equality symmetric and transitive, and leaves
one exception to a value being equal to itself, a float inside of it that is no number.
-/

set_option autoImplicit false

namespace EmbeddedLisp

namespace Binary64

def exponent (x : Binary64) : Nat := x.bits.toNat / 2 ^ 52 % 2 ^ 11

def fraction (x : Binary64) : Nat := x.bits.toNat % 2 ^ 52

/-- What a bit pattern may stand for. A number is counted in the smallest magnitude. -/
inductive Meaning where
  | number (units : Int)
  | infinity (negative : Bool)
  | none
  deriving DecidableEq, Repr

/-- Above the least exponent a significand has a leading one, and each exponent more doubles
the magnitude. -/
def magnitude (x : Binary64) : Nat :=
  if x.exponent = 0 then x.fraction else (2 ^ 52 + x.fraction) * 2 ^ (x.exponent - 1)

def meaning (x : Binary64) : Meaning :=
  if x.exponent = 2047 then
    if x.fraction = 0 then .infinity x.negative else .none
  else .number (if x.negative then -x.magnitude else x.magnitude)

theorem code_eq (x : Binary64) : x.code = x.exponent * 2 ^ 52 + x.fraction := by
  simp only [code, signBit, exponent, fraction]
  omega

theorem exponent_lt (x : Binary64) : x.exponent < 2048 := Nat.mod_lt _ (by decide)

theorem fraction_lt (x : Binary64) : x.fraction < 2 ^ 52 := Nat.mod_lt _ (by decide)

theorem magnitude_eq_units (x : Binary64) : x.magnitude = units x.code := by
  have hf := x.fraction_lt
  have hdiv : x.code / perBinade = x.exponent := by
    rw [code_eq, perBinade]
    omega
  rw [magnitude, units, hdiv, Nat.shiftLeft_eq, code_eq, perBinade]
  by_cases he : x.exponent = 0
  · simp [he]
  · obtain ⟨e, he'⟩ := Nat.exists_eq_succ_of_ne_zero he
    rw [if_neg he, he', Nat.succ_sub_one]
    congr 1
    omega

theorem units_injective {c d : Nat} (hc : c < infinite) (hd : d < infinite)
    (h : units c = units d) : c = d := by
  have hone : 0 < unitsPerOne := by
    obtain ⟨n, _, hone⟩ := unitsPerOne_eq
    rw [hone, Nat.one_shiftLeft]
    exact Nat.two_pow_pos n
  have hback {code : Nat} (hcode : code < infinite) : nearest (units code) unitsPerOne = code :=
    nearest_exact hone hcode rfl
  rw [← hback hc, h, hback hd]

theorem isNaN_iff (x : Binary64) : x.isNaN = true ↔ x.meaning = .none := by
  have he := x.exponent_lt
  have hf := x.fraction_lt
  simp only [isNaN, decide_eq_true_eq, code_eq, infinite, meaning]
  split
  · split
    · simp only [reduceCtorEq, iff_false]
      omega
    · simp only [iff_true]
      omega
  · simp only [reduceCtorEq, iff_false]
    omega

theorem bits_eq_iff (x y : Binary64) :
    x.bits = y.bits ↔ x.negative = y.negative ∧ x.code = y.code := by
  have hx := x.bits.toNat_lt
  have hy := y.bits.toNat_lt
  have hsign : x.negative = y.negative ↔ (signBit ≤ x.bits.toNat ↔ signBit ≤ y.bits.toNat) :=
    decide_eq_decide
  rw [← UInt64.toNat_inj, hsign, code, code, signBit]
  omega

theorem code_cases {x : Binary64} (h : x.isNaN = false) :
    x.code = infinite ∧ x.meaning = .infinity x.negative ∨
    x.code < infinite ∧
      x.meaning = .number (if x.negative then -units x.code else units x.code) := by
  have he := x.exponent_lt
  have hf := x.fraction_lt
  simp only [isNaN, decide_eq_false_iff_not] at h
  rw [← magnitude_eq_units]
  rw [code_eq, infinite] at h ⊢
  rw [meaning]
  by_cases htop : x.exponent = 2047
  · left
    have hzero : x.fraction = 0 := by omega
    exact ⟨by omega, by rw [if_pos htop, if_pos hzero]⟩
  · right
    exact ⟨by omega, by rw [if_neg htop]⟩

theorem meaning_eq_iff {x y : Binary64} (hx : x.isNaN = false) (hy : y.isNaN = false) :
    x.meaning = y.meaning ↔ x.bits = y.bits ∨ x.code = 0 ∧ y.code = 0 := by
  have hzero : units 0 = 0 := by decide
  rw [bits_eq_iff]
  obtain ⟨hcx, hmx⟩ | ⟨hcx, hmx⟩ := code_cases hx <;>
    obtain ⟨hcy, hmy⟩ | ⟨hcy, hmy⟩ := code_cases hy <;>
    rw [hmx, hmy]
  · have hne : infinite ≠ 0 := by decide
    simp [hcx, hcy, hne]
  · simp only [reduceCtorEq, false_iff]
    omega
  · simp only [reduceCtorEq, false_iff]
    omega
  · simp only [Meaning.number.injEq]
    constructor
    · intro h
      have hunits : units x.code = units y.code := by
        split at h <;> split at h <;> omega
      have hcode := units_injective hcx hcy hunits
      by_cases hz : x.code = 0
      · exact .inr ⟨hz, hcode ▸ hz⟩
      · have hpos : units x.code ≠ 0 := fun hu => hz (units_eq_zero hu)
        refine .inl ⟨?_, hcode⟩
        cases hnx : x.negative <;> cases hny : y.negative <;> simp [hnx, hny] at h ⊢ <;> omega
    · rintro (⟨hs, hc⟩ | ⟨hzx, hzy⟩)
      · rw [hs, hc]
      · simp [hzx, hzy, hzero]

theorem equal_iff_meaning (x y : Binary64) :
    x.equal y = true ↔ x.meaning = y.meaning ∧ x.meaning ≠ .none := by
  by_cases hx : x.isNaN = true
  · simp [equal, hx, (isNaN_iff x).1 hx]
  · by_cases hy : y.isNaN = true
    · simp [equal, hy, (isNaN_iff y).1 hy]
    · rw [ne_eq, ← isNaN_iff, and_iff_left hx,
        meaning_eq_iff (by simpa using hx) (by simpa using hy)]
      simp [equal, hx, hy]

end Binary64

namespace Value

/-- The values just inside of a value. What a table holds is not among them. -/
def inner : Value → List Value
  | .apply items => items
  | .list items => items
  | .map entries => entries.flatMap fun e => [e.1, e.2]
  | .drill chain => chain
  | .quote body => [body]
  | .unquote body => [body]
  | _ => []

/-- Two values match, apart from what is inside of them. -/
inductive HeadsMatch : Value → Value → Prop
  | nil : HeadsMatch .nil .nil
  | int (n : Int64) : HeadsMatch (.int n) (.int n)
  | float {x y : Binary64} : x.equal y = true → HeadsMatch (.float x) (.float y)
  | str (s : String) : HeadsMatch (.str s) (.str s)
  | symbol (s : String) : HeadsMatch (.symbol s) (.symbol s)
  | apply (xs ys : List Value) : HeadsMatch (.apply xs) (.apply ys)
  | list (xs ys : List Value) : HeadsMatch (.list xs) (.list ys)
  | map (es fs : List (Value × Value)) : HeadsMatch (.map es) (.map fs)
  | drill (xs ys : List Value) : HeadsMatch (.drill xs) (.drill ys)
  | quote (v w : Value) : HeadsMatch (.quote v) (.quote w)
  | unquote (v w : Value) : HeadsMatch (.unquote v) (.unquote w)
  | function {f g : HostFunction} :
      f.reference = g.reference → HeadsMatch (.function f) (.function g)
  | table (r : Reference Library) (n m : String) (fs gs : List (String × Value)) :
      HeadsMatch (.table r n fs) (.table r m gs)

def Equal (v w : Value) : Prop := v.equal w = true

theorem equalItems_iff {vs ws : List Value} :
    equalItems vs ws = true ↔ List.Forall₂ Equal vs ws := by
  induction vs generalizing ws with
  | nil => cases ws <;> simp [equalItems]
  | cons v vs ih => cases ws <;> simp [equalItems, ih, Equal]

theorem equalEntries_iff {es fs : List (Value × Value)} :
    equalEntries es fs = true ↔
      List.Forall₂ Equal (es.flatMap fun e => [e.1, e.2]) (fs.flatMap fun e => [e.1, e.2]) := by
  induction es generalizing fs with
  | nil => cases fs <;> simp [equalEntries]
  | cons e es ih => cases fs <;> simp [equalEntries, ih, Equal, and_assoc]

theorem equal_iff {v w : Value} :
    Equal v w ↔ HeadsMatch v w ∧ List.Forall₂ Equal v.inner w.inner := by
  constructor
  · intro h
    unfold Equal equal at h
    split at h
    · exact ⟨.nil, .nil⟩
    · next m n => exact ⟨of_decide_eq_true h ▸ .int m, .nil⟩
    · exact ⟨.float h, .nil⟩
    · next s t => exact ⟨of_decide_eq_true h ▸ .str s, .nil⟩
    · next s t => exact ⟨of_decide_eq_true h ▸ .symbol s, .nil⟩
    · exact ⟨.apply _ _, equalItems_iff.1 h⟩
    · exact ⟨.list _ _, equalItems_iff.1 h⟩
    · exact ⟨.map _ _, equalEntries_iff.1 h⟩
    · exact ⟨.drill _ _, equalItems_iff.1 h⟩
    · exact ⟨.quote _ _, .cons h .nil⟩
    · exact ⟨.unquote _ _, .cons h .nil⟩
    · exact ⟨.function (of_decide_eq_true h), .nil⟩
    · next r n fs t m gs => exact ⟨of_decide_eq_true h ▸ .table r n m fs gs, .nil⟩
    · cases h
  · rintro ⟨hmatch, hs⟩
    unfold Equal
    cases hmatch with
    | nil => rfl
    | int n => simp [equal]
    | float hx => exact hx
    | str s => simp [equal]
    | symbol s => simp [equal]
    | apply xs ys => exact equalItems_iff.2 hs
    | list xs ys => exact equalItems_iff.2 hs
    | map es fs => exact equalEntries_iff.2 hs
    | drill xs ys => exact equalItems_iff.2 hs
    | quote v w => exact (List.forall₂_cons.1 hs).1
    | unquote v w => exact (List.forall₂_cons.1 hs).1
    | function hf => simpa [equal] using hf
    | table r n m fs gs => simp [equal]

theorem HeadsMatch.symm {v w : Value} (h : HeadsMatch v w) : HeadsMatch w v := by
  cases h with
  | float hx =>
    rw [Binary64.equal_iff_meaning] at hx
    exact .float ((Binary64.equal_iff_meaning _ _).2 ⟨hx.1.symm, hx.1 ▸ hx.2⟩)
  | function hf => exact .function hf.symm
  | _ => constructor

theorem HeadsMatch.trans {u v w : Value} (h : HeadsMatch u v) (h' : HeadsMatch v w) :
    HeadsMatch u w := by
  cases h with
  | float hx =>
    cases h' with
    | float hy =>
      rw [Binary64.equal_iff_meaning] at hx hy
      exact .float ((Binary64.equal_iff_meaning _ _).2 ⟨hx.1.trans hy.1, hx.2⟩)
  | function hf =>
    cases h' with
    | function hg => exact .function (hf.trans hg)
  | _ =>
    cases h'
    constructor

theorem headsMatch_self_iff {v : Value} :
    HeadsMatch v v ↔ ∀ x, v = .float x → x.meaning ≠ .none := by
  constructor
  · rintro h x rfl
    cases h with
    | float hx => exact ((Binary64.equal_iff_meaning _ _).1 hx).2
  · intro h
    cases v with
    | float x => exact .float ((Binary64.equal_iff_meaning _ _).2 ⟨rfl, h x rfl⟩)
    | function f => exact .function rfl
    | _ => constructor

theorem sizeOf_lt_of_mem_inner {u v : Value} (h : u ∈ v.inner) : sizeOf u < sizeOf v := by
  cases v with
  | apply items | list items | drill items =>
    have hsize : sizeOf u < sizeOf items := List.sizeOf_lt_of_mem h
    simp only [apply.sizeOf_spec, list.sizeOf_spec, drill.sizeOf_spec]
    omega
  | map entries =>
    obtain ⟨⟨k, w⟩, he, hu⟩ := List.mem_flatMap.1 h
    have hsize : 1 + sizeOf k + sizeOf w < sizeOf entries := List.sizeOf_lt_of_mem he
    simp only [List.mem_cons, List.not_mem_nil, or_false] at hu
    rw [map.sizeOf_spec]
    rcases hu with rfl | rfl <;> omega
  | quote body | unquote body =>
    obtain rfl := List.mem_singleton.1 h
    simp only [quote.sizeOf_spec, unquote.sizeOf_spec]
    omega
  | _ => cases h

@[elab_as_elim]
theorem inner_induction {P : Value → Prop} (step : ∀ v, (∀ u ∈ v.inner, P u) → P v)
    (v : Value) : P v :=
  step v fun u hu =>
    have := sizeOf_lt_of_mem_inner hu
    inner_induction step u
termination_by sizeOf v

section
variable {R : Value → Value → Prop} {us vs ws : List Value}

theorem forall₂_symm (h : List.Forall₂ R us vs) (hR : ∀ u ∈ us, ∀ v, R u v → R v u) :
    List.Forall₂ R vs us := by
  induction h with
  | nil => exact .nil
  | cons huv _ ih =>
    obtain ⟨hu, hus⟩ := List.forall_mem_cons.1 hR
    exact .cons (hu _ huv) (ih hus)

theorem forall₂_trans (h : List.Forall₂ R us vs) (h' : List.Forall₂ R vs ws)
    (hR : ∀ u ∈ us, ∀ v w, R u v → R v w → R u w) : List.Forall₂ R us ws := by
  induction h generalizing ws with
  | nil => exact h'
  | cons huv _ ih =>
    obtain ⟨hu, hus⟩ := List.forall_mem_cons.1 hR
    cases h' with
    | cons hvw hrest => exact .cons (hu _ _ huv hvw) (ih hrest hus)

end

theorem equal_symm {v w : Value} (h : Equal v w) : Equal w v := by
  induction v using inner_induction generalizing w with
  | step v ih =>
    obtain ⟨hmatch, hs⟩ := equal_iff.1 h
    exact equal_iff.2 ⟨hmatch.symm, forall₂_symm hs fun u hu _ => ih u hu⟩

theorem equal_trans {u v w : Value} (h : Equal u v) (h' : Equal v w) : Equal u w := by
  induction u using inner_induction generalizing v w with
  | step u ih =>
    obtain ⟨hmatch, hs⟩ := equal_iff.1 h
    obtain ⟨hmatch', hs'⟩ := equal_iff.1 h'
    exact equal_iff.2 ⟨hmatch.trans hmatch', forall₂_trans hs hs' fun x hx _ _ => ih x hx⟩

theorem part_iff {u v : Value} : Part u v ↔ u = v ∨ ∃ w ∈ v.inner, Part u w := by
  constructor
  · intro h
    cases h with
    | self => exact .inl rfl
    | apply hp hm => exact .inr ⟨_, hm, hp⟩
    | list hp hm => exact .inr ⟨_, hm, hp⟩
    | key hp hm => exact .inr ⟨_, List.mem_flatMap.2 ⟨_, hm, by simp⟩, hp⟩
    | value hp hm => exact .inr ⟨_, List.mem_flatMap.2 ⟨_, hm, by simp⟩, hp⟩
    | drill hp hm => exact .inr ⟨_, hm, hp⟩
    | quote hp => exact .inr ⟨_, List.mem_singleton.2 rfl, hp⟩
    | unquote hp => exact .inr ⟨_, List.mem_singleton.2 rfl, hp⟩
  · rintro (rfl | ⟨w, hw, hp⟩)
    · exact .self
    · cases v with
      | apply items => exact .apply hp hw
      | list items => exact .list hp hw
      | map entries =>
        obtain ⟨⟨k, x⟩, he, hmem⟩ := List.mem_flatMap.1 hw
        simp only [List.mem_cons, List.not_mem_nil, or_false] at hmem
        rcases hmem with rfl | rfl
        · exact .key hp he
        · exact .value hp he
      | drill chain => exact .drill hp hw
      | quote body => exact .quote (List.mem_singleton.1 hw ▸ hp)
      | unquote body => exact .unquote (List.mem_singleton.1 hw ▸ hp)
      | _ => cases hw

theorem equal_self_iff {v : Value} :
    Equal v v ↔ ∀ x, Part (.float x) v → x.meaning ≠ .none := by
  induction v using inner_induction with
  | step v ih =>
    rw [equal_iff, headsMatch_self_iff, List.forall₂_same]
    constructor
    · rintro ⟨hself, hinner⟩ x hx
      obtain hv | ⟨w, hw, hp⟩ := part_iff.1 hx
      · exact hself x hv.symm
      · exact (ih w hw).1 (hinner w hw) x hp
    · intro h
      refine ⟨fun x hv => h x (part_iff.2 (.inl hv.symm)), fun u hu => ?_⟩
      exact (ih u hu).2 fun x hx => h x (part_iff.2 (.inr ⟨u, hu, hx⟩))

end Value

/-- Equality of values is symmetric and transitive, and a value differs from itself exactly if
a float that is no number occurs in it. Floats are equal if their bit patterns stand for the
same number or infinity, so that one which is no number equals nothing and the two zeros are
equal. Functions and tables are equal if they are one object of the host, and all other values
if their heads match and what is just inside of them is equal. -/
theorem equality_partial_up_to_nan :
    (∀ a b : Value, (a == b) = true → (b == a) = true) ∧
    (∀ a b c : Value, (a == b) = true → (b == c) = true → (a == c) = true) ∧
    (∀ a : Value, (a == a) = true ↔ ∀ x, Value.Part (.float x) a → x.meaning ≠ .none) ∧
    (∀ x y : Binary64, (Value.float x == Value.float y) = true ↔
      x.meaning = y.meaning ∧ x.meaning ≠ .none) ∧
    (∀ x : Binary64, x.meaning = .none → ∀ v : Value,
      (Value.float x == v) = false ∧ (v == Value.float x) = false) ∧
    (Value.float ⟨0⟩ == Value.float ⟨0x8000000000000000⟩) = true ∧
    (∀ f g : HostFunction, (Value.function f == Value.function g) = true ↔
      f.reference = g.reference) ∧
    (∀ r s n m fs gs, (Value.table r n fs == Value.table s m gs) = true ↔ r = s) ∧
    ∀ a b : Value, (a == b) = true ↔
      a.HeadsMatch b ∧ List.Forall₂ (fun v w => (v == w) = true) a.inner b.inner := by
  refine ⟨fun _ _ => Value.equal_symm, fun _ _ _ => Value.equal_trans,
    fun _ => Value.equal_self_iff, Binary64.equal_iff_meaning, fun x hx v => ?_, by decide, fun _ _ => decide_eq_true_iff,
    fun _ _ _ _ _ _ => decide_eq_true_iff, fun _ _ => Value.equal_iff⟩
  have hself : ¬ Value.Equal (.float x) (.float x) :=
    fun h => ((Binary64.equal_iff_meaning x x).1 h).2 hx
  constructor
  · exact Bool.eq_false_iff.2 fun h => hself (Value.equal_trans h (Value.equal_symm h))
  · exact Bool.eq_false_iff.2 fun h => hself (Value.equal_trans (Value.equal_symm h) h)

theorem zeros_equal_inside_lists :
    let a : Value := .list [.float ⟨0⟩]
    let b : Value := .list [.float ⟨0x8000000000000000⟩]
    (a == b) = true ∧ (b == a) = true ∧ (a == a) = true := by
  intro a b
  obtain ⟨hsymm, htrans, _⟩ := equality_partial_up_to_nan
  have hab : (a == b) = true := by decide
  have hba : (b == a) = true := hsymm a b hab
  exact ⟨hab, hba, htrans a b a hab hba⟩

example :
    let table : Value := .table (.foreign 0) "t" [("x", .float Binary64.nan)]
    let quoted : Value := .quote (.float Binary64.nan)
    (table == table) = true ∧ (quoted == quoted) = false := by decide

end EmbeddedLisp
