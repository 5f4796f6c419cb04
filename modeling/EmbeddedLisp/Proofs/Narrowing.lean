import Mathlib.Algebra.Order.Ring.Int
import Mathlib.Data.Int.ModEq
import EmbeddedLisp.Output.Sink
import EmbeddedLisp.Proofs.Footprint
import EmbeddedLisp.Proofs.Summation

/-!
# Narrowing integers

A conversion to an integer type keeps as many low bits as the type is wide. What is left is
the one integer of the type that agrees with the given one modulo two to the width. Narrowing
in two steps is narrowing to the lesser width, and narrowing the operands of a sum does not
change the narrowed sum.
-/

set_option autoImplicit false

namespace EmbeddedLisp

namespace Integer

def InWidth (width : Nat) (n : Int) : Prop := -2 ^ (width - 1) ≤ n ∧ n < 2 ^ (width - 1)

instance (width : Nat) (n : Int) : Decidable (InWidth width n) :=
  inferInstanceAs (Decidable (_ ∧ _))

/-- An integer of a width that agrees with `n` modulo two to that width. -/
structure Residue (width : Nat) (n k : Int) : Prop where
  inWidth : InWidth width k
  congruent : k ≡ n [ZMOD 2 ^ width]

section
variable {width wider : Nat} {n : Int}

theorem two_pow_width (h : 0 < width) : 2 ^ width = 2 * 2 ^ (width - 1) := by
  rw [← Nat.pow_succ', Nat.succ_eq_add_one, Nat.sub_add_cancel h]

theorem InWidth.mono (h : InWidth width n) (hle : width ≤ wider) : InWidth wider n := by
  have hpow : (2 : Int) ^ (width - 1) ≤ 2 ^ (wider - 1) :=
    pow_le_pow_right₀ (by decide) (Nat.sub_le_sub_right hle 1)
  unfold InWidth at h ⊢
  omega

theorem inWidth_toInt (m : Int64) : InWidth 64 m.toInt := ⟨m.le_toInt, m.toInt_lt⟩

theorem inWidth_bmod (h : 0 < width) (n : Int) : InWidth width (n.bmod (2 ^ width)) := by
  have hpos : 0 < 2 ^ width := Nat.two_pow_pos width
  have hle := Int.le_bmod (x := n) hpos
  have hlt := Int.bmod_lt (x := n) hpos
  rw [two_pow_width h] at hle hlt ⊢
  unfold InWidth
  push_cast at hle hlt ⊢
  omega

theorem bmod_eq_of_inWidth (h : 0 < width) (hn : InWidth width n) : n.bmod (2 ^ width) = n := by
  unfold InWidth at hn
  apply Int.bmod_eq_of_le_mul_two
  all_goals
    rw [two_pow_width h]
    push_cast
    omega

theorem residue_iff (h : 0 < width) {k : Int} : Residue width n k ↔ k = n.bmod (2 ^ width) := by
  constructor
  · rintro ⟨hk, hcongr⟩
    calc k = k.bmod (2 ^ width) := (bmod_eq_of_inWidth h hk).symm
      _ = (k % (2 ^ width : Nat)).bmod (2 ^ width) := (Int.emod_bmod _ _).symm
      _ = (n % (2 ^ width : Nat)).bmod (2 ^ width) := by
        push_cast
        rw [hcongr]
      _ = n.bmod (2 ^ width) := Int.emod_bmod _ _
  · rintro rfl
    refine ⟨inWidth_bmod h n, ?_⟩
    simpa [Int.ModEq] using Int.bmod_emod (x := n) (m := 2 ^ width)

end

section
variable {width wider : Nat} (hpos : 0 < width) (hle : width ≤ 64)
include hpos hle

theorem toInt_narrow (n : Int64) : (narrow width n).toInt = n.toInt.bmod (2 ^ width) := by
  have hn := (inWidth_bmod hpos n.toInt).mono hle
  unfold narrow
  rw [Int64.toInt_ofInt]
  exact bmod_eq_of_inWidth (by decide) hn

theorem narrow_narrow (hw : width ≤ wider) (hwider : wider ≤ 64) (n : Int64) :
    narrow width (narrow wider n) = narrow width n := by
  apply Int64.toInt_inj.1
  rw [toInt_narrow hpos hle, toInt_narrow hpos hle,
    toInt_narrow (Nat.lt_of_lt_of_le hpos hw) hwider,
    Int.bmod_bmod_of_dvd (Nat.pow_dvd_pow 2 hw)]

theorem narrow_eq_self_iff {n : Int64} : narrow width n = n ↔ InWidth width n.toInt := by
  rw [← Int64.toInt_inj, toInt_narrow hpos hle]
  constructor
  · intro h
    exact h ▸ inWidth_bmod hpos n.toInt
  · exact bmod_eq_of_inWidth hpos

theorem add?_narrow {a b sum : Int64} (h : add? a b = some sum) :
    ∃ sum', add? (narrow width a) (narrow width b) = some sum' ∧
      narrow width sum' = narrow width sum := by
  have hrange : InRange ((narrow width a).toInt + (narrow width b).toInt) := by
    obtain rfl | hlt := Nat.eq_or_lt_of_le hle
    · rw [(narrow_eq_self_iff hpos hle).2 (inWidth_toInt a),
        (narrow_eq_self_iff hpos hle).2 (inWidth_toInt b), ← add?_eq_some_iff.1 h]
      exact inRange_toInt sum
    · have ha := (inWidth_bmod hpos a.toInt).mono (Nat.le_of_lt_succ hlt)
      have hb := (inWidth_bmod hpos b.toInt).mono (Nat.le_of_lt_succ hlt)
      rw [toInt_narrow hpos hle, toInt_narrow hpos hle]
      unfold InWidth at ha hb
      unfold InRange greatest
      omega
  obtain ⟨sum', hsum'⟩ := exists_toInt_eq hrange
  refine ⟨sum', add?_eq_some_iff.2 hsum', Int64.toInt_inj.1 ?_⟩
  rw [toInt_narrow hpos hle, toInt_narrow hpos hle, hsum', toInt_narrow hpos hle,
    toInt_narrow hpos hle, ← Int.add_bmod, add?_eq_some_iff.1 h]

end

end Integer

namespace IntegerType

theorem width_pos (type : IntegerType) : 0 < type.width := by
  cases type <;> decide

theorem width_le (type : IntegerType) : type.width ≤ 64 := by
  cases type <;> decide

/-- What is left of an integer in a machine word of the type. -/
def cast : IntegerType → Int64 → Int64
  | .int, n => n
  | .int64, n => n
  | .int32, n => n.toInt32.toInt64
  | .int16, n => n.toInt16.toInt64
  | .int8, n => n.toInt8.toInt64

theorem narrow_eq_cast (type : IntegerType) (n : Int64) :
    Integer.narrow type.width n = type.cast n := by
  apply Int64.toInt_inj.1
  rw [Integer.toInt_narrow type.width_pos type.width_le]
  cases type with
  | int => exact Integer.bmod_eq_of_inWidth (by decide) (Integer.inWidth_toInt n)
  | int64 => exact Integer.bmod_eq_of_inWidth (by decide) (Integer.inWidth_toInt n)
  | int32 => simp [cast, width]
  | int16 => simp [cast, width]
  | int8 => simp [cast, width]

def conversion (type : IntegerType) (e : Value) : Value := .apply [.symbol type.name, e]

theorem form_name (type : IntegerType) : Evaluation.Form.of? (.symbol type.name) = none := by
  cases type <;> decide

end IntegerType

namespace Evaluation
variable {ω : Type} {w : Writer ω} {foreign : Foreign ω} {type : IntegerType} {limit : Option Nat}
  {depth : Nat} {m m' : Machine ω}

theorem shallower {depth' : Nat} (h : ∀ most ∈ limit, depth' ≤ most) (hle : depth ≤ depth') :
    ∀ most ∈ limit, depth ≤ most :=
  fun most hmost => Nat.le_trans hle (h most hmost)

def converter (type : IntegerType) : HostFunction :=
  ⟨.builtin (.integer type), type.name, (Builtin.integer type).signature⟩

/-- Every conversion function is bound to its own name. -/
def Converts (m : Machine ω) : Prop :=
  ∀ type : IntegerType, m.environment.get? type.name = some (.function (converter type))

theorem converts_standard (output : ω) : Converts (Machine.standard output) := by
  intro type
  cases type <;> rfl

def inconvertible (type : IntegerType) (v : Value) : Error :=
  .host (converter type) ("cannot convert " ++ v.typeName ++ " " ++ v.render ++ " to " ++ type.name)

theorem prepare_converter (type : IntegerType) (v : Value) :
    prepare (converter type) [v] = .ok [v] := by
  cases v <;> rfl

theorem call_converter_other {v : Value} (h : ∀ n, v ≠ .int n) (output : ω) :
    call (Host.standard w foreign) (converter type) [v] output =
      .error (.error (inconvertible type v)) output := by
  cases v with
  | int n => exact absurd rfl (h n)
  | _ => rfl

theorem evalAt_conversion (hm : Converts m) (hdepth : ∀ most ∈ limit, depth + 1 ≤ most)
    (e : Value) : evalAt (Host.standard w foreign) limit (type.conversion e) depth m =
      match evalAt (Host.standard w foreign) limit e (depth + 1) m with
      | .ok v m' => callValue (Host.standard w foreign) [v] (.function (converter type)) m'
      | .error stop m' => .error stop m' := by
  have hcallee : evalAt (Host.standard w foreign) limit (.symbol type.name) (depth + 1) m =
      .ok (.function (converter type)) m := by
    rw [evalAt, within_eq hdepth, lookup, hm type]
    rfl
  rw [IntegerType.conversion, evalAt, within_eq (shallower hdepth (by omega)),
    evalApply_call type.form_name]
  change EStateM.bind _ _ m = _
  unfold EStateM.bind
  rw [hcallee]
  simp only [evalItems]
  change EStateM.bind (EStateM.bind _ _) _ m = _
  unfold EStateM.bind
  cases evalAt (Host.standard w foreign) limit e (depth + 1) m <;> rfl

theorem evalAt_conversion_int (hm : Converts m) (hdepth : ∀ most ∈ limit, depth + 1 ≤ most)
    {e : Value} {n : Int64}
    (he : evalAt (Host.standard w foreign) limit e (depth + 1) m = .ok (.int n) m') :
    evalAt (Host.standard w foreign) limit (type.conversion e) depth m =
      .ok (.int (Integer.narrow type.width n)) m' := by
  rw [evalAt_conversion hm hdepth, he]
  rfl

theorem evalAt_conversion_other (hm : Converts m) (hdepth : ∀ most ∈ limit, depth + 1 ≤ most)
    {e v : Value} (he : evalAt (Host.standard w foreign) limit e (depth + 1) m = .ok v m')
    (hv : ∀ n, v ≠ .int n) :
    evalAt (Host.standard w foreign) limit (type.conversion e) depth m =
      .error (.error (inconvertible type v)) m' := by
  rw [evalAt_conversion hm hdepth, he]
  change EStateM.map bundle (onWorld (call _ (converter type) [v])) m' = _
  unfold EStateM.map onWorld
  rw [call_converter_other hv]

theorem evalAt_literal (host : Host ω) (hdepth : ∀ most ∈ limit, depth ≤ most) (n : Int64)
    (m : Machine ω) : evalAt host limit (.int n) depth m = .ok (.int n) m := by
  rw [evalAt_int, within_eq hdepth]
  rfl

theorem evalAt_add {host : Host ω} (hdepth : ∀ most ∈ limit, depth ≤ most) {e e' : Value}
    {a b : Int64} (ha : evalAt host limit e (depth + 1) m = .ok (.int a) m)
    (hb : evalAt host limit e' (depth + 1) m = .ok (.int b) m) :
    evalAt host limit (.apply [.symbol "+", e, e']) depth m =
      match Integer.add? a b with
      | some sum => .ok (.int sum) m
      | none => .error (.error .overflow) m := by
  have hzero : a.toInt = (0 : Int64).toInt + a.toInt := (Int.zero_add _).symm
  rw [evalAt_sum hdepth, evalSum_of_int ha hzero]
  cases hadd : Integer.add? a b with
  | some sum => rw [evalSum_of_int hb (Integer.add?_eq_some_iff.1 hadd), evalSum_nil]
  | none => exact evalSum_of_fault (.overflow hb (Integer.add?_eq_none_iff.1 hadd))

section
variable (w : Writer ω) (foreign : Foreign ω) (hm : Converts m) (type : IntegerType)
include hm

theorem evalAt_narrowed (hdepth : ∀ most ∈ limit, depth + 1 ≤ most) (n : Int64) :
    evalAt (Host.standard w foreign) limit (type.conversion (.int n)) depth m =
      .ok (.int (Integer.narrow type.width n)) m :=
  evalAt_conversion_int hm hdepth (evalAt_literal _ hdepth n m)

theorem evalAt_narrowed_twice (hdepth : ∀ most ∈ limit, depth + 2 ≤ most) {wider : IntegerType}
    (hle : type.width ≤ wider.width) (n : Int64) :
    evalAt (Host.standard w foreign) limit (type.conversion (wider.conversion (.int n))) depth m =
      .ok (.int (Integer.narrow type.width n)) m := by
  have hinner := evalAt_narrowed w foreign hm wider hdepth n
  rw [evalAt_conversion_int hm (shallower hdepth (by omega)) hinner,
    Integer.narrow_narrow type.width_pos type.width_le hle wider.width_le]

theorem evalAt_narrowed_sum (hdepth : ∀ most ∈ limit, depth + 2 ≤ most) {a b sum : Int64}
    (hadd : Integer.add? a b = some sum) :
    evalAt (Host.standard w foreign) limit
        (type.conversion (.apply [.symbol "+", .int a, .int b])) depth m =
      .ok (.int (Integer.narrow type.width sum)) m := by
  have hsum := evalAt_add (shallower hdepth (by omega))
    (evalAt_literal (Host.standard w foreign) hdepth a m) (evalAt_literal _ hdepth b m)
  rw [hadd] at hsum
  exact evalAt_conversion_int hm (shallower hdepth (by omega)) hsum

theorem evalAt_sum_of_narrowed (hdepth : ∀ most ∈ limit, depth + 3 ≤ most) {a b sum : Int64}
    (hadd : Integer.add? a b = some sum) :
    evalAt (Host.standard w foreign) limit (type.conversion (.apply
        [.symbol "+", type.conversion (.int a), type.conversion (.int b)])) depth m =
      .ok (.int (Integer.narrow type.width sum)) m := by
  obtain ⟨sum', hadd', hsame⟩ := Integer.add?_narrow type.width_pos type.width_le hadd
  have hsum := evalAt_add (shallower hdepth (by omega))
    (evalAt_narrowed w foreign hm type hdepth a) (evalAt_narrowed w foreign hm type hdepth b)
  rw [hadd'] at hsum
  rw [evalAt_conversion_int hm (shallower hdepth (by omega)) hsum, hsame]

end

end Evaluation

open Evaluation Integer in
/-- An integer operand is narrowed to the one integer of the width of the type that agrees with
it modulo two to that width, which is what a machine word of the type holds of it. Narrowing
after narrowing to a type as wide or wider makes no difference, narrowing changes nothing
exactly for the integers of the width, and a sum that does not overflow may as well be taken
of the narrowed operands. A conversion of anything else, nil included, fails. -/
theorem conversions_narrow_canonically {ω : Type} (w : Writer ω) (foreign : Foreign ω)
    (m : Machine ω) (hm : Converts m) :
    let host := Host.standard w foreign
    let run (e : Value) := evaluate host e m
    let sum (e e' : Value) : Value := .apply [.symbol "+", e, e']
    (∀ (type : IntegerType) e n m', operand host e m = .ok (.int n) m' →
      ∃ r, run (type.conversion e) = .ok (.int r) m' ∧
        (∀ k, Residue type.width n.toInt k ↔ k = r.toInt) ∧ r = type.cast n) ∧
    (∀ (type wider : IntegerType) n, type.width ≤ wider.width →
      run (type.conversion (wider.conversion (.int n))) = run (type.conversion (.int n))) ∧
    (∀ (type : IntegerType) n,
      run (type.conversion (.int n)) = .ok (.int n) m ↔ InWidth type.width n.toInt) ∧
    (∀ (type : IntegerType) a b,
      run (sum (.int a) (.int b)) ≠ .error (.error .overflow) m →
      ∃ r, run (type.conversion (sum (.int a) (.int b))) = .ok (.int r) m ∧
        run (type.conversion (sum (type.conversion (.int a)) (type.conversion (.int b)))) =
          .ok (.int r) m) ∧
    ∀ (type : IntegerType) v, (∀ n, v ≠ .int n) →
      prepare (converter type) [v] = .ok [v] ∧
      (∀ output, call host (converter type) [v] output =
        .error (.error (inconvertible type v)) output) ∧
      ∀ e m', operand host e m = .ok v m' →
        run (type.conversion e) = .error (.error (inconvertible type v)) m' := by
  intro host run sum
  have hdepth : ∀ most ∈ some depthLimit, 3 ≤ most := by simp [depthLimit]
  have hnarrowed (type : IntegerType) (n : Int64) :
      run (type.conversion (.int n)) = .ok (.int (narrow type.width n)) m :=
    evalAt_narrowed w foreign hm type (shallower hdepth (by decide)) n
  refine ⟨fun type e n m' he => ⟨narrow type.width n, ?_, fun k => ?_, type.narrow_eq_cast n⟩,
    fun type wider n hle => ?_, fun type n => ?_, fun type a b hsum => ?_,
    fun type v hv => ⟨prepare_converter type v, call_converter_other hv, fun e m' he => ?_⟩⟩
  · exact evalAt_conversion_int hm (shallower hdepth (by decide)) he
  · rw [toInt_narrow type.width_pos type.width_le]
    exact residue_iff type.width_pos
  · rw [hnarrowed]
    exact evalAt_narrowed_twice w foreign hm type (shallower hdepth (by decide)) hle n
  · rw [hnarrowed, ← narrow_eq_self_iff type.width_pos type.width_le]
    simp
  · cases hadd : add? a b with
    | some s =>
      exact ⟨narrow type.width s,
        evalAt_narrowed_sum w foreign hm type (shallower hdepth (by decide)) hadd,
        evalAt_sum_of_narrowed w foreign hm type hdepth hadd⟩
    | none =>
      have hshallow : ∀ most ∈ some depthLimit, 1 ≤ most := shallower hdepth (by decide)
      have hoverflow := evalAt_add (shallower hdepth (by decide))
        (evalAt_literal host hshallow a m) (evalAt_literal host hshallow b m)
      rw [hadd] at hoverflow
      exact absurd hoverflow hsum
  · exact evalAt_conversion_other hm (shallower hdepth (by decide)) he hv

open Evaluation Integer in
theorem int8_of_narrowed_operands :
    let m := Machine.standard (Sink.ofPolicy .unlimited)
    let run (e : Value) := evaluate (Host.standard Sink.writer Foreign.none) e m
    let sum (e e' : Value) : Value := .apply [.symbol "+", e, e']
    let int8 := IntegerType.int8.conversion
    Converts m ∧ run (sum (.int 200) (.int 100)) ≠ .error (.error .overflow) m ∧
      run (int8 (sum (.int 200) (.int 100))) = .ok (.int 44) m ∧
      run (int8 (sum (int8 (.int 200)) (int8 (.int 100)))) = .ok (.int 44) m := by
  intro m run sum int8
  have hm : Converts m := converts_standard _
  have hsum : run (sum (.int 200) (.int 100)) ≠ .error (.error .overflow) m := nofun
  obtain ⟨hcanonical, _, _, hsums, _⟩ := conversions_narrow_canonically Sink.writer Foreign.none m hm
  obtain ⟨r, hr, hr'⟩ := hsums .int8 200 100 hsum
  obtain ⟨r', hsame, hresidue, _⟩ := hcanonical .int8 (sum (.int 200) (.int 100)) 300 m rfl
  obtain rfl : r = r' := by
    have heq := hr.symm.trans hsame
    simpa using heq
  have h44 : (44 : Int64).toInt = r.toInt := (hresidue 44).1 ⟨by decide, by decide⟩
  rw [← Int64.toInt_inj.1 h44] at hr hr'
  exact ⟨hm, hsum, hr, hr'⟩

end EmbeddedLisp
