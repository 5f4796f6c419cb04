import EmbeddedLisp.Proofs.Depth
import EmbeddedLisp.Proofs.Footprint

/-!
# The level of an evaluation

An evaluation knows at which level it runs, and uses that for the limit on depth alone. At a
lesser level it ends as it does at a greater one, unless the greater one is too deep for it. A
value whose nesting fits between its level and the limit is never too deep, and one that gives
a result has needed no more levels than there are.
-/

set_option autoImplicit false

namespace EmbeddedLisp

mutual

/-- The nesting of a value, where what is quoted, keys of accesses and targets of assignments
do not count. -/
def Value.liveNesting : Value → Nat
  | .apply items => Value.liveNestingCall items
  | .list items => Value.liveNestingItems items
  | .map entries => Value.liveNestingEntries entries
  | .drill chain => Value.liveNestingBase chain
  | _ => 0

def Value.liveNestingCall : List Value → Nat
  | [] => 0
  | callee :: args =>
    max (Value.liveNesting callee + 1)
      (match Evaluation.Form.of? callee with
      | some .assign =>
        match args with
        | [] => 0
        | _ :: vs => Value.liveNestingItems vs
      | some .access => Value.liveNestingBase args
      | _ => Value.liveNestingItems args)

def Value.liveNestingItems : List Value → Nat
  | [] => 0
  | v :: vs => max (Value.liveNesting v + 1) (Value.liveNestingItems vs)

def Value.liveNestingEntries : List (Value × Value) → Nat
  | [] => 0
  | (k, v) :: es =>
    max (max (Value.liveNesting k + 1) (Value.liveNesting v + 1)) (Value.liveNestingEntries es)

def Value.liveNestingBase : List Value → Nat
  | [] => 0
  | base :: _ => Value.liveNesting base + 1

end

namespace Value
open Evaluation (Form)

mutual

theorem reach_le_liveNesting (v : Value) : v.reach ≤ v.liveNesting := by
  match v with
  | .apply items => simpa only [reach, liveNesting] using reachCall_le_liveNesting items
  | .list items => simpa only [reach, liveNesting] using reachItems_le_liveNesting items
  | .map entries => simpa only [reach, liveNesting] using reachEntries_le_liveNesting entries
  | .drill chain => simpa only [reach, liveNesting] using reachBase_le_liveNesting chain
  | .nil | .int _ | .float _ | .str _ | .symbol _ | .quote _ | .unquote _ | .function _
  | .table _ _ _ => simp only [reach, liveNesting, Nat.le_refl]

theorem reachCall_le_liveNesting (items : List Value) :
    reachCall items ≤ liveNestingCall items := by
  match items with
  | [] => simp only [reachCall, liveNestingCall, Nat.le_refl]
  | callee :: args =>
    have hcallee := reach_le_liveNesting callee
    have hargs := reachItems_le_liveNesting args
    rw [liveNestingCall.eq_def]
    cases hf : Form.of? callee with
    | none =>
      rw [reachCall_call hf]
      simp only [hf]
      omega
    | some form =>
      cases form with
      | sequence =>
        rw [reachCall_items hf (.inl rfl)]
        simp only [hf]
        omega
      | sum =>
        rw [reachCall_items hf (.inr rfl)]
        simp only [hf]
        omega
      | assign =>
        rw [reachCall.eq_def]
        simp only [hf]
        split
        · simp only [reachItems, reach, liveNestingItems, liveNesting] at hargs ⊢
          omega
        · omega
      | access =>
        have hbase := reachBase_le_liveNesting args
        rw [reachCall_access hf]
        simp only [hf]
        omega

theorem reachItems_le_liveNesting (vs : List Value) : reachItems vs ≤ liveNestingItems vs := by
  match vs with
  | [] => simp only [reachItems, liveNestingItems, Nat.le_refl]
  | v :: vs =>
    have hv := reach_le_liveNesting v
    have hvs := reachItems_le_liveNesting vs
    simp only [reachItems, liveNestingItems]
    omega

theorem reachEntries_le_liveNesting (es : List (Value × Value)) :
    reachEntries es ≤ liveNestingEntries es := by
  match es with
  | [] => simp only [reachEntries, liveNestingEntries, Nat.le_refl]
  | (k, v) :: es =>
    have hk := reach_le_liveNesting k
    have hv := reach_le_liveNesting v
    have hes := reachEntries_le_liveNesting es
    simp only [reachEntries, liveNestingEntries]
    omega

theorem reachBase_le_liveNesting (chain : List Value) :
    reachBase chain ≤ liveNestingBase chain := by
  match chain with
  | [] => simp only [reachBase, liveNestingBase, Nat.le_refl]
  | base :: keys =>
    have hbase := reach_le_liveNesting base
    simp only [reachBase, liveNestingBase]
    omega

end

end Value

namespace Evaluation
variable {σ α β : Type} {host : Host σ} {most depth : Nat} {m m' : Machine σ}

theorem within_ok {act : Eval σ α} {w : α} (h : within (some most) depth act m = .ok w m') :
    depth ≤ most ∧ act m = .ok w m' := by
  unfold within at h
  dsimp only at h
  split at h
  · cases h
  · next hd => exact ⟨Nat.not_lt.1 hd, h⟩

theorem bind_ok {act : Eval σ α} {f : α → Eval σ β} {w : β} (h : (act >>= f) m = .ok w m') :
    ∃ v between, act m = .ok v between ∧ f v between = .ok w m' := by
  change EStateM.bind act f m = _ at h
  unfold EStateM.bind at h
  cases ha : act m with
  | ok v between =>
    rw [ha] at h
    exact ⟨v, between, rfl, h⟩
  | error stop between =>
    rw [ha] at h
    cases h

theorem map_ok {act : Eval σ α} {f : α → β} {w : β} (h : (f <$> act) m = .ok w m') :
    ∃ v, act m = .ok v m' := by
  rw [map_eq_pure_bind] at h
  obtain ⟨v, between, ha, hf⟩ := bind_ok h
  cases hf
  exact ⟨v, ha⟩

theorem depth_le_of_ok {v w : Value} (h : evalAt host (some most) v depth m = .ok w m') :
    depth ≤ most := by
  cases v <;>
  · simp only [evalAt] at h
    exact (within_ok h).1

-- A value is given only after all evaluated positions have been, so that each of them was
-- within the limit.
mutual

theorem evalAt_reach (v : Value) {depth : Nat} {m m' : Machine σ} {w : Value}
    (h : evalAt host (some most) v depth m = .ok w m') : v.reach + depth ≤ most := by
  match v with
  | .apply items =>
    simp only [evalAt] at h
    obtain ⟨hd, h⟩ := within_ok h
    exact evalApply_reach items hd h
  | .list items =>
    simp only [evalAt] at h
    obtain ⟨hd, h⟩ := within_ok h
    obtain ⟨ws, h⟩ := map_ok h
    exact evalItems_reach items hd h
  | .map entries =>
    simp only [evalAt] at h
    obtain ⟨hd, h⟩ := within_ok h
    obtain ⟨fs, h⟩ := map_ok h
    exact evalEntries_reach entries hd h
  | .drill chain =>
    simp only [evalAt] at h
    obtain ⟨hd, h⟩ := within_ok h
    exact evalChain_reach chain hd h
  | .nil | .int _ | .float _ | .str _ | .symbol _ | .quote _ | .unquote _ | .function _
  | .table _ _ _ => simpa only [Value.reach, Nat.zero_add] using depth_le_of_ok h
termination_by sizeOf v

theorem evalApply_reach (items : List Value) {depth : Nat} {m m' : Machine σ} {w : Value}
    (hd : depth ≤ most) (h : evalApply host (some most) items (depth + 1) m = .ok w m') :
    Value.reachCall items + depth ≤ most := by
  match items with
  | [] => simpa only [Value.reachCall, Nat.zero_add] using hd
  | callee :: args =>
    cases hf : Form.of? callee with
    | none =>
      rw [evalApply_call hf] at h
      obtain ⟨f, _, hcallee, h⟩ := bind_ok h
      obtain ⟨ws, _, hargs, _⟩ := bind_ok h
      have hcallee := evalAt_reach callee hcallee
      have hargs := evalItems_reach args hd hargs
      rw [Value.reachCall_call hf]
      omega
    | some form =>
      cases form with
      | sequence =>
        rw [evalApply_sequence hf] at h
        rw [Value.reachCall_items hf (.inl rfl)]
        exact evalSequence_reach args hd h
      | sum =>
        rw [evalApply_sum hf] at h
        rw [Value.reachCall_items hf (.inr rfl)]
        exact evalSum_reach args hd h
      | assign =>
        cases he : assignFault args with
        | some e =>
          rw [evalApply_assignFault hf he] at h
          cases h
        | none =>
          obtain ⟨name, v, rfl⟩ := assignFault_eq_none he
          rw [evalApply_assign hf] at h
          obtain ⟨u, _, hv, _⟩ := bind_ok h
          have hv := evalAt_reach v hv
          rw [Value.reachCall_assign hf]
          omega
      | access =>
        rw [Value.reachCall_access hf]
        match args with
        | [] => simpa only [Value.reachBase, Nat.zero_add] using hd
        | base :: keys =>
          rw [evalApply_access hf] at h
          exact evalChain_reach (base :: keys) hd h
termination_by sizeOf items

theorem evalChain_reach (chain : List Value) {depth : Nat} {m m' : Machine σ} {w : Value}
    (hd : depth ≤ most) (h : evalChain host (some most) chain (depth + 1) m = .ok w m') :
    Value.reachBase chain + depth ≤ most := by
  match chain with
  | [] => simpa only [Value.reachBase, Nat.zero_add] using hd
  | base :: keys =>
    simp only [evalChain] at h
    obtain ⟨u, _, hbase, _⟩ := bind_ok h
    have hbase := evalAt_reach base hbase
    simp only [Value.reachBase]
    omega
termination_by sizeOf chain

theorem evalSequence_reach (vs : List Value) {last : Value} {depth : Nat} {m m' : Machine σ}
    {w : Value} (hd : depth ≤ most)
    (h : evalSequence host (some most) vs last (depth + 1) m = .ok w m') :
    Value.reachItems vs + depth ≤ most := by
  match vs with
  | [] => simpa only [Value.reachItems, Nat.zero_add] using hd
  | v :: vs =>
    simp only [evalSequence] at h
    obtain ⟨u, _, hv, h⟩ := bind_ok h
    have hv := evalAt_reach v hv
    have hvs := evalSequence_reach vs hd h
    simp only [Value.reachItems]
    omega
termination_by sizeOf vs

theorem evalSum_reach (vs : List Value) {total : Int64} {depth : Nat} {m m' : Machine σ}
    {w : Value} (hd : depth ≤ most)
    (h : evalSum host (some most) vs total (depth + 1) m = .ok w m') :
    Value.reachItems vs + depth ≤ most := by
  match vs with
  | [] => simpa only [Value.reachItems, Nat.zero_add] using hd
  | v :: vs =>
    simp only [evalSum] at h
    obtain ⟨u, _, hv, h⟩ := bind_ok h
    obtain ⟨sum, _, _, h⟩ := bind_ok h
    have hv := evalAt_reach v hv
    have hvs := evalSum_reach vs hd h
    simp only [Value.reachItems]
    omega
termination_by sizeOf vs

theorem evalItems_reach (vs : List Value) {depth : Nat} {m m' : Machine σ} {ws : List Value}
    (hd : depth ≤ most) (h : evalItems host (some most) vs (depth + 1) m = .ok ws m') :
    Value.reachItems vs + depth ≤ most := by
  match vs with
  | [] => simpa only [Value.reachItems, Nat.zero_add] using hd
  | v :: vs =>
    simp only [evalItems] at h
    obtain ⟨u, _, hv, h⟩ := bind_ok h
    obtain ⟨us, _, hvs, _⟩ := bind_ok h
    have hv := evalAt_reach v hv
    have hvs := evalItems_reach vs hd hvs
    simp only [Value.reachItems]
    omega
termination_by sizeOf vs

theorem evalEntries_reach (es : List (Value × Value)) {depth : Nat} {m m' : Machine σ}
    {fs : List (Value × Value)} (hd : depth ≤ most)
    (h : evalEntries host (some most) es (depth + 1) m = .ok fs m') :
    Value.reachEntries es + depth ≤ most := by
  match es with
  | [] => simpa only [Value.reachEntries, Nat.zero_add] using hd
  | (k, v) :: es =>
    simp only [evalEntries] at h
    obtain ⟨k', _, hk, h⟩ := bind_ok h
    obtain ⟨v', _, hv, h⟩ := bind_ok h
    obtain ⟨gs, _, hes, _⟩ := bind_ok h
    have hk := evalAt_reach k hk
    have hv := evalAt_reach v hv
    have hes := evalEntries_reach es hd hes
    simp only [Value.reachEntries]
    omega
termination_by sizeOf es

end

def GoesTooDeep (ended : EStateM.Result Stop (Machine σ) α) : Prop :=
  ∃ most m', ended = .error (.error (.tooDeep most)) m'

theorem evalAt_not_tooDeep (host : Host σ) {v : Value} (h : v.reach + depth ≤ most)
    (m : Machine σ) : ¬ GoesTooDeep (evalAt host (some most) v depth m) := by
  rintro ⟨most', m', hend⟩
  rw [evalAt_within host v depth h] at hend
  exact Bool.noConfusion (unhindered_evalAt host v depth _ _ _ hend)

theorem evalAt_eq_ok_iff {v w : Value} : evalAt host (some most) v depth m = .ok w m' ↔
    evalAt host none v depth m = .ok w m' ∧ v.reach + depth ≤ most := by
  constructor
  · intro h
    have hreach := evalAt_reach v h
    exact ⟨evalAt_within host v depth hreach ▸ h, hreach⟩
  · rintro ⟨h, hreach⟩
    rw [evalAt_within host v depth hreach, h]

end Evaluation

open Evaluation in
/-- At a lesser level a value is evaluated as it is at a greater one, with the same end on the
same machine, unless it goes too deep at the greater one. It does not go too deep if its live
nesting fits between the level and the limit. It has a result if it has one without a limit
and no evaluated position in it is beyond the limit. -/
theorem level_decides_only_tooDeep {σ : Type} (host : Host σ) (most : Nat) (v : Value)
    {depth depth' : Nat} (hle : depth ≤ depth') (m : Machine σ) :
    let run := evalAt host (some most) v
    (¬ GoesTooDeep (run depth' m) → run depth m = run depth' m) ∧
    (v.liveNesting + depth ≤ most → ¬ GoesTooDeep (run depth m)) ∧
    ∀ w m', run depth m = .ok w m' ↔
      evalAt host none v depth m = .ok w m' ∧ v.reach + depth ≤ most := by
  intro run
  refine ⟨fun hfits => ?_, fun hnesting => ?_, fun w m' => evalAt_eq_ok_iff⟩
  · exact ((evalAt_deeper host (some most) hle v m).resolve_right hfits).symm
  · have hreach := v.reach_le_liveNesting
    exact evalAt_not_tooDeep host (by omega) m

open Evaluation in
theorem failing_list_at_two_levels :
    let host : Host Unit := fun _ _ world => (.failed "closed", world)
    let v : Value := .list [.apply [.symbol "set!", .symbol "x", .list [.int 1]],
      .apply [.symbol "+", .symbol "x"]]
    let m : Machine Unit := ⟨.empty, ()⟩
    let m' : Machine Unit := ⟨Environment.empty.define "x" (.list [.int 1]), ()⟩
    3 ≤ 253 ∧ ¬ GoesTooDeep (evalAt host (some depthLimit) v 253 m) ∧
      v.liveNesting + 253 = depthLimit ∧
      evalAt host (some depthLimit) v 3 m = .error (.error (.notAnInteger (.list [.int 1]))) m' := by
  intro host v m m'
  have hnesting : v.liveNesting + 253 = depthLimit := by decide
  have hfits := (level_decides_only_tooDeep host depthLimit v (Nat.le_refl 253) m).2.1
    (Nat.le_of_eq hnesting)
  have hle : 3 ≤ 253 := by decide
  exact ⟨hle, hfits, hnesting,
    ((level_decides_only_tooDeep host depthLimit v hle m).1 hfits).trans rfl⟩

end EmbeddedLisp
