import EmbeddedLisp.Evaluation.Basic

/-!
# One equation for each form

What evaluating a call comes to, by the form that its callee names. An assignment is
well formed when it has a symbol and one more operand. Any other fails with an error
that its operands decide alone.
-/

set_option autoImplicit false

namespace EmbeddedLisp.Evaluation
variable {σ : Type} {host : Host σ} {limit : Option Nat} {callee : Value} {args : List Value}
  {depth : Nat}

/-- What is wrong with the operands of an assignment, if anything is. -/
def assignFault : List Value → Option Error
  | [.symbol _, _] => none
  | [target, _] => some (.invalidTarget target)
  | args => some (.malformedForm .assign args.length)

theorem assignFault_eq_none (h : assignFault args = none) :
    ∃ name v, args = [.symbol name, v] := by
  unfold assignFault at h
  split at h
  · next name v => exact ⟨name, v, rfl⟩
  · simp at h
  · simp at h

theorem assignFault_target {target v : Value} (h : ∀ name, target = .symbol name → False) :
    assignFault [target, v] = some (.invalidTarget target) := by
  cases target with
  | symbol name => exact absurd rfl (h name)
  | _ => rfl

theorem assignFault_malformed (h : ∀ target v, args = [target, v] → False) :
    assignFault args = some (.malformedForm .assign args.length) := by
  unfold assignFault
  split
  · exact absurd rfl (h _ _)
  · exact absurd rfl (h _ _)
  · rfl

theorem evalApply_sequence (hf : Form.of? callee = some .sequence) :
    evalApply host limit (callee :: args) depth = evalSequence host limit args .nil depth := by
  rw [evalApply.eq_def]
  simp only [hf]

theorem evalApply_sum (hf : Form.of? callee = some .sum) :
    evalApply host limit (callee :: args) depth = evalSum host limit args 0 depth := by
  rw [evalApply.eq_def]
  simp only [hf]

theorem evalApply_assign (hf : Form.of? callee = some .assign) (name : String) (v : Value) :
    evalApply host limit [callee, .symbol name, v] depth = (do
      let w ← evalAt host limit v depth
      define name w
      return .nil) := by
  rw [evalApply.eq_def]
  simp only [hf]

theorem evalApply_assignFault (hf : Form.of? callee = some .assign) {e : Error}
    (he : assignFault args = some e) :
    evalApply host limit (callee :: args) depth = fail e := by
  rw [evalApply.eq_def]
  simp only [hf]
  split
  · simp [assignFault] at he
  · next target v hs =>
    rw [assignFault_target hs, Option.some.injEq] at he
    rw [he]
  · next hs ht =>
    rw [assignFault_malformed ht, Option.some.injEq] at he
    rw [he]

theorem evalApply_access (hf : Form.of? callee = some .access) (base : Value)
    (keys : List Value) : evalApply host limit (callee :: base :: keys) depth =
      evalChain host limit (base :: keys) depth := by
  rw [evalApply.eq_def, evalChain.eq_def]
  simp only [hf]

theorem evalApply_access_nil (hf : Form.of? callee = some .access) :
    evalApply host limit [callee] depth = fail (.malformedForm .access 0) := by
  rw [evalApply.eq_def]
  simp only [hf]

theorem evalApply_call (hf : Form.of? callee = none) :
    evalApply host limit (callee :: args) depth = (do
      let f ← evalAt host limit callee depth
      let args ← evalItems host limit args depth
      callValue host args f) := by
  rw [evalApply.eq_def]
  simp only [hf]

end EmbeddedLisp.Evaluation
