import Mathlib.Algebra.Order.BigOperators.Group.List
import Mathlib.Algebra.Order.Ring.Int
import Mathlib.Tactic.Push
import EmbeddedLisp.Proofs.Forms
import EmbeddedLisp.Proofs.Literals
import EmbeddedLisp.Proofs.Reading

/-!
# Sums

A sum evaluates its operands from left to right and adds them up as it goes. It is exact:
its value is the sum of the operands as whole numbers, and it has one as long as every sum
on the way is an integer of the language. Otherwise the first operand at fault decides the
error, and nothing behind that operand is evaluated. A fault is an operand without a value,
one that is no integer, or one that takes the sum out of the range.
-/

set_option autoImplicit false

namespace EmbeddedLisp

namespace Integer

theorem inRange_toInt (n : Int64) : InRange n.toInt := by
  have hle := n.le_toInt
  have hlt := n.toInt_lt
  unfold InRange greatest
  omega

theorem add?_eq_some_iff {m n sum : Int64} :
    add? m n = some sum ↔ sum.toInt = m.toInt + n.toInt := by
  unfold add?
  constructor
  · intro h
    split at h
    · next hrange =>
      unfold InRange greatest at hrange
      obtain rfl := Option.some.inj h
      rw [Int64.toInt_ofInt_of_le] <;> omega
    · cases h
  · intro h
    rw [← h, if_pos (inRange_toInt sum), Int64.ofInt_toInt]

theorem add?_eq_none_iff {m n : Int64} :
    add? m n = none ↔ ¬ InRange (m.toInt + n.toInt) := by
  simp [add?]

theorem exists_toInt_eq {n : Int} (h : InRange n) : ∃ m : Int64, m.toInt = n := by
  unfold InRange greatest at h
  exact ⟨Int64.ofInt n, Int64.toInt_ofInt_of_le (by omega) (by omega)⟩

def exactSum (ns : List Int64) : Int := (ns.map Int64.toInt).sum

@[simp] theorem exactSum_nil : exactSum [] = 0 := rfl

@[simp] theorem exactSum_cons (n : Int64) (ns : List Int64) :
    exactSum (n :: ns) = n.toInt + exactSum ns := by
  simp [exactSum]

/-- Each sum on the way from a number on is in range. -/
def Fits (start : Int) (ns : List Int64) : Prop :=
  ∀ before, before <+: ns → InRange (start + exactSum before)

theorem fits_nil {start : Int} : Fits start [] ↔ InRange start := by
  simp [Fits]

theorem fits_cons {start : Int} {n : Int64} {ns : List Int64} :
    Fits start (n :: ns) ↔ InRange start ∧ Fits (start + n.toInt) ns := by
  constructor
  · intro h
    refine ⟨by simpa using h [] List.nil_prefix, fun before hb => ?_⟩
    have hcons := h (n :: before) (List.cons_prefix_cons.2 ⟨rfl, hb⟩)
    rwa [exactSum_cons, ← Int.add_assoc] at hcons
  · rintro ⟨hstart, hrest⟩ before hb
    cases before with
    | nil => simpa using hstart
    | cons m before =>
      obtain ⟨rfl, hbefore⟩ := List.cons_prefix_cons.1 hb
      rw [exactSum_cons, ← Int.add_assoc]
      exact hrest before hbefore

theorem exactSum_nonneg {ns : List Int64} (h : ∀ n ∈ ns, 0 ≤ n.toInt) : 0 ≤ exactSum ns :=
  List.sum_nonneg (List.forall_mem_map.2 h)

def OccursInSource (n : Int64) : Prop :=
  ∃ source ts t, tokenize source = .ok ts ∧ t ∈ ts ∧ Reader.literal? t = some (.ok (.int n))

theorem occursInSource_iff {n : Int64} : OccursInSource n ↔ 0 ≤ n.toInt := by
  constructor
  · rintro ⟨source, ts, t, h, ht, hl⟩
    obtain ⟨rest, hf⟩ := fits_of_tokenize h ht
    have hleaf : Grammar.Leaf t (.int n) :=
      Grammar.leaf_of_literal hl (wellQuoted_of_tokenize h t ht)
    cases hleaf.isLiteral hf with
    | int hn => exact hn
  · intro hn
    have hliteral : (Value.int n).IsLiteral := .int hn
    have hcut : Token.Cut ((Value.int n).text ++ []) [⟨.integer, (Value.int n).text⟩] :=
      .cons hliteral.fits_alone .nil
    have hrender : (Value.int n).render.toList = (Value.int n).text ++ [] := by
      rw [Value.render, String.toList_ofList, List.append_nil]
    obtain ⟨ts, ht, hts⟩ := tokenize_of_cut (hrender ▸ hcut)
    obtain ⟨t, rfl, hp⟩ := List.map_eq_singleton_iff.1 hts
    exact ⟨_, [t], t, ht, List.mem_singleton_self t, (hliteral.leaf (by simp) hp).literal⟩

end Integer

namespace Evaluation
open Integer (InRange exactSum Fits)
variable {σ : Type}

/-- Values have results in turn, each on the machine that those before it leave. -/
inductive InTurn (eval : Value → Eval σ Value) :
    List Value → Machine σ → List Value → Machine σ → Prop
  | nil {m : Machine σ} : InTurn eval [] m [] m
  | cons {v w : Value} {vs ws : List Value} {m m' m'' : Machine σ} :
      eval v m = .ok w m' → InTurn eval vs m' ws m'' → InTurn eval (v :: vs) m (w :: ws) m''

inductive Fault (eval : Value → Eval σ Value) (sum : Int) (v : Value) (m : Machine σ) :
    Stop → Machine σ → Prop
  | fails {stop : Stop} {m' : Machine σ} : eval v m = .error stop m' → Fault eval sum v m stop m'
  | notAnInteger {w : Value} {m' : Machine σ} : eval v m = .ok w m' → (∀ n, w ≠ .int n) →
      Fault eval sum v m (.error (.notAnInteger w)) m'
  | overflow {n : Int64} {m' : Machine σ} : eval v m = .ok (.int n) m' →
      ¬ InRange (sum + n.toInt) → Fault eval sum v m (.error .overflow) m'

/-- The operand at an index is at fault, and those before it can be added to the start. -/
inductive FirstFault (eval : Value → Eval σ Value) (start : Int) (operands : List Value)
    (m : Machine σ) (i : Nat) (stop : Stop) (m' : Machine σ) : Prop
  | mk {v : Value} {ns : List Int64} {between : Machine σ} : operands[i]? = some v →
      InTurn eval (operands.take i) m (ns.map .int) between → Fits start ns →
      Fault eval (start + exactSum ns) v between stop m' →
      FirstFault eval start operands m i stop m'

section
variable {host : Host σ} {limit : Option Nat} {depth : Nat} {v : Value} {vs : List Value}
  {total : Int64} {m m' : Machine σ} {stop : Stop}

theorem evalSum_nil (total : Int64) (m : Machine σ) :
    evalSum host limit [] total depth m = .ok (.int total) m := by
  simp only [evalSum]
  rfl

theorem evalSum_cons (v : Value) (vs : List Value) (total : Int64) (m : Machine σ) :
    evalSum host limit (v :: vs) total depth m =
      match evalAt host limit v depth m with
      | .error stop m' => .error stop m'
      | .ok w m' =>
        match addTo total w with
        | .ok sum => evalSum host limit vs sum depth m'
        | .error e => .error (.error e) m' := by
  simp only [evalSum]
  change EStateM.bind _ _ m = _
  unfold EStateM.bind
  cases evalAt host limit v depth m with
  | error stop m' => rfl
  | ok w m' =>
    dsimp only
    cases addTo total w with
    | ok sum => rfl
    | error e => rfl

theorem evalSum_of_int {n sum : Int64} (h : evalAt host limit v depth m = .ok (.int n) m')
    (hsum : sum.toInt = total.toInt + n.toInt) :
    evalSum host limit (v :: vs) total depth m = evalSum host limit vs sum depth m' := by
  rw [evalSum_cons, h]
  simp only [addTo, Integer.add?_eq_some_iff.2 hsum]

theorem evalSum_of_fault (h : Fault (evalAt host limit · depth) total.toInt v m stop m') :
    evalSum host limit (v :: vs) total depth m = .error stop m' := by
  rw [evalSum_cons]
  cases h with
  | fails hv => rw [hv]
  | overflow hv hrange =>
    rw [hv]
    simp only [addTo, Integer.add?_eq_none_iff.2 hrange]
  | @notAnInteger w _ hv hw =>
    rw [hv]
    cases w with
    | int n => exact absurd rfl (hw n)
    | _ => rfl

theorem operand_cases (eval : Value → Eval σ Value) (total : Int64) (v : Value) (m : Machine σ) :
    (∃ (n sum : Int64) (m' : Machine σ),
      eval v m = .ok (.int n) m' ∧ sum.toInt = total.toInt + n.toInt) ∨
    ∃ stop m', Fault eval total.toInt v m stop m' := by
  cases hv : eval v m with
  | error stop m' => exact .inr ⟨stop, m', .fails hv⟩
  | ok w m' =>
    cases w with
    | int n =>
      cases hsum : Integer.add? total n with
      | some sum => exact .inl ⟨n, sum, m', rfl, Integer.add?_eq_some_iff.1 hsum⟩
      | none => exact .inr ⟨_, m', .overflow hv (Integer.add?_eq_none_iff.1 hsum)⟩
    | _ => exact .inr ⟨_, m', .notAnInteger hv (by simp)⟩

theorem evalSum_append {added : List Value} {ns : List Int64}
    (h : InTurn (evalAt host limit · depth) added m (ns.map .int) m')
    (hfits : Fits total.toInt ns) :
    ∃ sum : Int64, sum.toInt = total.toInt + exactSum ns ∧
      ∀ more, evalSum host limit (added ++ more) total depth m =
        evalSum host limit more sum depth m' := by
  induction ns generalizing added total m with
  | nil =>
    cases h with
    | nil => exact ⟨total, by simp, fun _ => rfl⟩
  | cons n ns ih =>
    obtain ⟨_, hrest⟩ := Integer.fits_cons.1 hfits
    cases h with
    | cons hv hvs =>
      have hrange : InRange (total.toInt + n.toInt) := by
        simpa using hrest [] List.nil_prefix
      obtain ⟨sum, hsum⟩ := Integer.exists_toInt_eq hrange
      rw [← hsum] at hrest
      obtain ⟨last, hlast, hmore⟩ := ih hvs hrest
      refine ⟨last, by rw [hlast, hsum, Integer.exactSum_cons, Int.add_assoc], fun more => ?_⟩
      rw [List.cons_append, evalSum_of_int hv hsum, hmore]

theorem evalSum_of_inTurn {operands : List Value} {ns : List Int64}
    (h : InTurn (evalAt host limit · depth) operands m (ns.map .int) m')
    (hfits : Fits total.toInt ns) : ∃ t : Int64, t.toInt = total.toInt + exactSum ns ∧
      evalSum host limit operands total depth m = .ok (.int t) m' := by
  obtain ⟨t, ht, hmore⟩ := evalSum_append h hfits
  exact ⟨t, ht, by rw [← List.append_nil operands, hmore, evalSum_nil]⟩

theorem operands_cases (eval : Value → Eval σ Value) (total : Int64) (operands : List Value)
    (m : Machine σ) :
    (∃ ns m', InTurn eval operands m (ns.map .int) m' ∧ Fits total.toInt ns) ∨
    ∃ i stop m', FirstFault eval total.toInt operands m i stop m' := by
  induction operands generalizing total m with
  | nil => exact .inl ⟨[], m, .nil, Integer.fits_nil.2 (Integer.inRange_toInt total)⟩
  | cons v vs ih =>
    have hstart := Integer.inRange_toInt total
    obtain ⟨n, sum, m₁, hv, hsum⟩ | ⟨stop, m', hfault⟩ := operand_cases eval total v m
    · have hfits {ns : List Int64} (h : Fits sum.toInt ns) : Fits total.toInt (n :: ns) :=
        Integer.fits_cons.2 ⟨hstart, hsum ▸ h⟩
      obtain ⟨ns, m', hvs, hns⟩ | ⟨i, stop, m', @⟨w, ns, between, hw, hvs, hns, hfault⟩⟩ :=
        ih sum m₁
      · exact .inl ⟨n :: ns, m', .cons hv hvs, hfits hns⟩
      · have hturn : InTurn eval ((v :: vs).take (i + 1)) m ((n :: ns).map .int) between :=
          .cons hv hvs
        rw [hsum, Int.add_assoc, ← Integer.exactSum_cons] at hfault
        exact .inr ⟨i + 1, stop, m', hw, hturn, hfits hns, hfault⟩
    · have hturn : InTurn eval ((v :: vs).take 0) m (([] : List Int64).map .int) m := .nil
      rw [← Int.add_zero total.toInt, ← Integer.exactSum_nil] at hfault
      exact .inr ⟨0, stop, m', rfl, hturn, Integer.fits_nil.2 hstart, hfault⟩

theorem FirstFault.evalSum_eq {operands : List Value} {i : Nat}
    (h : FirstFault (evalAt host limit · depth) total.toInt operands m i stop m')
    (others : List Value) (hsame : others.take (i + 1) = operands.take (i + 1)) :
    evalSum host limit others total depth m = .error stop m' := by
  obtain @⟨v, ns, between, hv, hturn, hfits, hfault⟩ := h
  obtain ⟨sum, hsum, hmore⟩ := evalSum_append hturn hfits
  have hothers : others = operands.take i ++ v :: others.drop (i + 1) := by
    calc others = others.take (i + 1) ++ others.drop (i + 1) :=
          (List.take_append_drop (i + 1) others).symm
      _ = operands.take i ++ v :: others.drop (i + 1) := by
          rw [hsame, List.take_add_one, hv, Option.toList_some, List.append_assoc,
            List.singleton_append]
  rw [hothers, hmore]
  exact evalSum_of_fault (hsum ▸ hfault)

theorem FirstFault.le {operands : List Value} {i j : Nat} {stop' : Stop} {m'' : Machine σ}
    (h : FirstFault (evalAt host limit · depth) total.toInt operands m i stop m')
    (h' : FirstFault (evalAt host limit · depth) total.toInt operands m j stop' m'') : j ≤ i := by
  apply Nat.le_of_not_lt
  intro hlt
  have herror := h.evalSum_eq (operands.take j) (by rw [List.take_take, Nat.min_eq_left hlt])
  obtain ⟨_, hturn, hfits, _⟩ := h'
  obtain ⟨t, _, hok⟩ := evalSum_of_inTurn hturn hfits
  rw [herror] at hok
  cases hok

theorem evalSum_eq_ok_iff {operands : List Value} {w : Value} :
    evalSum host limit operands total depth m = .ok w m' ↔
      ∃ ns t, InTurn (evalAt host limit · depth) operands m (ns.map .int) m' ∧
        Fits total.toInt ns ∧ w = .int t ∧ t.toInt = total.toInt + exactSum ns := by
  constructor
  · intro h
    obtain ⟨ns, last, hturn, hfits⟩ | ⟨i, stop, last, hfault⟩ :=
      operands_cases (evalAt host limit · depth) total operands m
    · obtain ⟨t, ht, hok⟩ := evalSum_of_inTurn hturn hfits
      rw [h, EStateM.Result.ok.injEq] at hok
      exact ⟨ns, t, hok.2 ▸ hturn, hfits, hok.1, ht⟩
    · rw [hfault.evalSum_eq operands rfl] at h
      cases h
  · rintro ⟨ns, t, hturn, hfits, rfl, ht⟩
    obtain ⟨sum, hsum, hok⟩ := evalSum_of_inTurn hturn hfits
    rw [hok, Int64.toInt_inj.1 (hsum.trans ht.symm)]

theorem evalSum_eq_error_iff {operands : List Value} :
    evalSum host limit operands total depth m = .error stop m' ↔
      ∃ i, FirstFault (evalAt host limit · depth) total.toInt operands m i stop m' := by
  constructor
  · intro h
    obtain ⟨ns, last, hturn, hfits⟩ | ⟨i, stop', last, hfault⟩ :=
      operands_cases (evalAt host limit · depth) total operands m
    · obtain ⟨t, _, hok⟩ := evalSum_of_inTurn hturn hfits
      rw [h] at hok
      cases hok
    · have heq := hfault.evalSum_eq operands rfl
      rw [h, EStateM.Result.error.injEq] at heq
      exact ⟨i, heq.1 ▸ heq.2 ▸ hfault⟩
  · rintro ⟨i, hfault⟩
    exact hfault.evalSum_eq operands rfl

theorem within_eq (hdepth : ∀ most ∈ limit, depth ≤ most) {α : Type} (act : Eval σ α) :
    within limit depth act = act := by
  cases limit with
  | none => rfl
  | some most => exact if_neg (Nat.not_lt.2 (hdepth most rfl))

theorem evalAt_sum (hdepth : ∀ most ∈ limit, depth ≤ most) (operands : List Value) :
    evalAt host limit (.apply (.symbol "+" :: operands)) depth =
      evalSum host limit operands 0 (depth + 1) := by
  have hf : Form.of? (.symbol "+") = some .sum := by decide
  rw [evalAt, within_eq hdepth, evalApply_sum hf]

theorem evalAt_int (n : Int64) :
    evalAt host limit (.int n) depth = within limit depth (pure (.int n)) := by
  simp only [evalAt]

theorem evalSum_literals (hdepth : ∀ most ∈ limit, depth ≤ most) {ns : List Int64}
    (hns : ∀ n ∈ ns, 0 ≤ n.toInt) (htotal : 0 ≤ total.toInt) (m : Machine σ) :
    evalSum host limit (ns.map .int) total depth m =
      if InRange (total.toInt + exactSum ns) then
        .ok (.int (Int64.ofInt (total.toInt + exactSum ns))) m
      else .error (.error .overflow) m := by
  induction ns generalizing total with
  | nil =>
    rw [List.map_nil, evalSum_nil, Integer.exactSum_nil, Int.add_zero,
      if_pos (Integer.inRange_toInt total), Int64.ofInt_toInt]
  | cons n ns ih =>
    obtain ⟨hn, hns⟩ := List.forall_mem_cons.1 hns
    have hv : evalAt host limit (.int n) depth m = .ok (.int n) m := by
      rw [evalAt_int, within_eq hdepth]
      rfl
    rw [List.map_cons, Integer.exactSum_cons, ← Int.add_assoc]
    cases hadd : Integer.add? total n with
    | some sum =>
      have hsum := Integer.add?_eq_some_iff.1 hadd
      rw [evalSum_of_int hv hsum, ih hns (by omega), hsum]
    | none =>
      have hrange := Integer.add?_eq_none_iff.1 hadd
      have hrest := Integer.exactSum_nonneg hns
      have hbeyond : ¬ InRange (total.toInt + n.toInt + exactSum ns) := by
        unfold InRange at hrange ⊢
        omega
      rw [evalSum_of_fault (.overflow hv hrange), if_neg hbeyond]

theorem evalSum_perm {ns ms : List Int64} (hns : ∀ n ∈ ns, 0 ≤ n.toInt) (hperm : ns.Perm ms)
    (m : Machine σ) :
    evalSum host limit (ns.map .int) 0 depth m = evalSum host limit (ms.map .int) 0 depth m := by
  by_cases hdepth : ∀ most ∈ limit, depth ≤ most
  · have hms : ∀ n ∈ ms, 0 ≤ n.toInt := fun n hn => hns n (hperm.mem_iff.2 hn)
    have hsum : exactSum ns = exactSum ms := (hperm.map Int64.toInt).sum_eq
    rw [evalSum_literals hdepth hns (by decide), evalSum_literals hdepth hms (by decide), hsum]
  · push Not at hdepth
    obtain ⟨most, rfl, hlt⟩ := hdepth
    have hdeep (n : Int64) :
        evalAt host (some most) (.int n) depth m = .error (.error (.tooDeep most)) m := by
      rw [evalAt_int, within, if_pos hlt]
      rfl
    cases ns with
    | nil => rw [hperm.nil_eq]
    | cons n ns =>
      cases ms with
      | nil => exact absurd hperm.eq_nil (by simp)
      | cons n' ms =>
        rw [List.map_cons, List.map_cons, evalSum_of_fault (.fails (hdeep n)),
          evalSum_of_fault (.fails (hdeep n'))]

end

end Evaluation

open Evaluation in
/-- A sum has a value if its operands are integers in turn and all sums on the way are in range,
and the value is their exact sum. Otherwise it fails as its first operand at fault does, and
leaves the machine as it is right after that operand. What stands behind that operand makes no
difference. The order of operands that are literals makes none either. -/
theorem sum_exact_up_to_first_fault {σ : Type} (host : Host σ) (limit : Option Nat) (depth : Nat)
    (hdepth : ∀ most ∈ limit, depth ≤ most) (operands : List Value) (m : Machine σ) :
    let sum (vs : List Value) := evalAt host limit (.apply (.symbol "+" :: vs)) depth
    let eval (v : Value) := evalAt host limit v (depth + 1)
    (∀ w m', sum operands m = .ok w m' ↔ ∃ ns t, InTurn eval operands m (ns.map .int) m' ∧
      Integer.Fits 0 ns ∧ w = .int t ∧ t.toInt = Integer.exactSum ns) ∧
    (∀ stop m', sum operands m = .error stop m' ↔
      ∃ i, FirstFault eval 0 operands m i stop m') ∧
    (∀ i stop m', FirstFault eval 0 operands m i stop m' →
      (∀ others, others.take (i + 1) = operands.take (i + 1) → sum others m = .error stop m') ∧
      ∀ j stop' m'', FirstFault eval 0 operands m j stop' m'' → j = i) ∧
    (∀ ns ms : List Int64, (∀ n ∈ ns, Integer.OccursInSource n) → ns.Perm ms →
      sum (ns.map .int) m = sum (ms.map .int) m) ∧
    ∀ w, (Error.notAnInteger w).message = "`+` expects integer operands, got " ++ w.render := by
  have hzero : (0 : Int64).toInt = 0 := rfl
  simp only [evalAt_sum hdepth]
  refine ⟨fun w m' => ?_, fun stop m' => ?_, fun i stop m' h => ⟨fun others hsame => ?_, ?_⟩,
    fun ns ms hns hperm => ?_, fun w => rfl⟩
  · rw [evalSum_eq_ok_iff, hzero]
    simp only [Int.zero_add]
  · rw [evalSum_eq_error_iff, hzero]
  · exact FirstFault.evalSum_eq (hzero ▸ h) others hsame
  · intro j stop' m'' h'
    exact Nat.le_antisymm (FirstFault.le (hzero ▸ h) (hzero ▸ h'))
      (FirstFault.le (hzero ▸ h') (hzero ▸ h))
  · exact evalSum_perm (fun n hn => Integer.occursInSource_iff.1 (hns n hn)) hperm m

open Evaluation in
/-- The first two operands leave the range, though all three would be in it. What the first one
binds stays bound, and the last one binds nothing. -/
theorem overflow_though_total_fits :
    let host : Host Unit := fun _ _ world => (.failed "closed", world)
    let bind (name : String) (n : Int64) : Value := .apply [.symbol "do",
      .apply [.symbol "set!", .symbol name, .int n], .int n]
    let operands : List Value := [bind "a" 5, .int 0x7FFFFFFFFFFFFFFF, bind "b" (-9)]
    let m : Machine Unit := ⟨.empty, ()⟩
    let m' : Machine Unit := ⟨Environment.empty.define "a" (.int 5), ()⟩
    (∀ most ∈ some depthLimit, 0 ≤ most) ∧
    evalAt host (some depthLimit) (.apply (.symbol "+" :: operands)) 0 m =
      .error (.error .overflow) m' := by
  intro host bind operands m m'
  have hdepth : ∀ most ∈ some depthLimit, 0 ≤ most := by simp
  have hall := sum_exact_up_to_first_fault host (some depthLimit) 0 hdepth operands m
  have hfirst : evalAt host (some depthLimit) (bind "a" 5) 1 m = .ok (.int 5) m' := rfl
  have hturn : InTurn (evalAt host (some depthLimit) · 1) (operands.take 1) m
      (([5] : List Int64).map .int) m' := .cons hfirst .nil
  have hfits : Integer.Fits 0 [5] := Integer.fits_cons.2 ⟨by decide, Integer.fits_nil.2 (by decide)⟩
  have hfault : FirstFault (evalAt host (some depthLimit) · 1) 0 operands m 1 (.error .overflow)
      m' := ⟨rfl, hturn, hfits, .overflow rfl (by decide)⟩
  exact ⟨hdepth, (hall.2.2.1 1 _ _ hfault).1 operands rfl⟩

end EmbeddedLisp
