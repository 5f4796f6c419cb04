import EmbeddedLisp.Proofs.Coupling
import EmbeddedLisp.Session

/-!
# What evaluation leaves behind

All that evaluation does to an environment is to bind, one after another, targets of
assignments that it meets. On two environments that agree on the live names of a value it
makes the same bindings. However it ends, the other names keep their values and no name
loses its binding.
-/

set_option autoImplicit false

namespace EmbeddedLisp

theorem Bindings.find?_eq_none {α : Type} {name : String} {b : Bindings α}
    (h : ∀ binding ∈ b, binding.1 ≠ name) : find? name b = none := by
  induction b with
  | nil => rfl
  | cons binding rest ih =>
    obtain ⟨hfirst, hrest⟩ := List.forall_mem_cons.1 h
    simp only [find?, Ne.symm hfirst, if_false, ih hrest]

namespace Environment

/-- The environment with several names bound, the first of the list last of all. -/
def bindAll (e : Environment) : List (String × Value) → Environment
  | [] => e
  | (name, v) :: made => (e.bindAll made).define name v

theorem get?_bindAll (e : Environment) (made : List (String × Value)) (name : String) :
    (e.bindAll made).get? name = (Bindings.find? name made).or (e.get? name) := by
  induction made with
  | nil => rfl
  | cons binding made ih =>
    obtain ⟨n, v⟩ := binding
    by_cases h : name = n
    · subst h
      simp [bindAll, Bindings.find?]
    · simp only [bindAll, Bindings.find?, if_neg h, get?_define_of_ne _ h, ih]

@[simp] theorem enclosing_bindAll (e : Environment) (made : List (String × Value)) :
    (e.bindAll made).enclosing = e.enclosing := by
  induction made with
  | nil => rfl
  | cons binding made ih => exact ih

theorem get?_bindAll_congr {e e' : Environment} {name : String}
    (h : e.get? name = e'.get? name) (made : List (String × Value)) :
    (e.bindAll made).get? name = (e'.bindAll made).get? name := by
  rw [get?_bindAll, get?_bindAll, h]

theorem get?_bindAll_of_not_mem (e : Environment) {made : List (String × Value)} {name : String}
    (h : ∀ binding ∈ made, binding.1 ≠ name) : (e.bindAll made).get? name = e.get? name := by
  rw [get?_bindAll, Bindings.find?_eq_none h, Option.none_or]

theorem get?_bindAll_ne_none {e : Environment} {name : String} (h : e.get? name ≠ none)
    (made : List (String × Value)) : (e.bindAll made).get? name ≠ none := by
  rw [get?_bindAll]
  cases Bindings.find? name made with
  | none => exact h
  | some v => simp

end Environment

/-- Two states of the host in this relation answer alike and stay in it. -/
def Host.Respects {σ : Type} (host : Host σ) (W : σ → σ → Prop) : Prop :=
  ∀ r args s s', W s s' → (host r args s).1 = (host r args s').1 ∧
    W (host r args s).2 (host r args s').2

theorem Host.respects_eq {σ : Type} (host : Host σ) : host.Respects (· = ·) := by
  rintro r args s _ rfl
  exact ⟨rfl, rfl⟩

def Machine.define {σ : Type} (m : Machine σ) (name : String) (v : Value) : Machine σ :=
  { m with environment := m.environment.define name v }

namespace Evaluation
variable {σ α : Type} {host : Host σ}

def outcome : EStateM.Result Stop (Machine σ) α → Except Stop α
  | .ok v _ => .ok v
  | .error stop _ => .error stop

def left : EStateM.Result Stop (Machine σ) α → Machine σ
  | .ok _ m => m
  | .error _ m => m

theorem EndAlike.same {τ : Type} {I : Machine σ → Machine τ → Prop}
    {ended : EStateM.Result Stop (Machine σ) α} {ended' : EStateM.Result Stop (Machine τ) α}
    (h : EndAlike I (fun _ => False) ended ended') :
    outcome ended = outcome ended' ∧ I (left ended) (left ended') := by
  cases h with
  | ok hI => exact ⟨rfl, hI⟩
  | error hI => exact ⟨rfl, hI⟩
  | excused hx => exact hx.elim

/-- Two machines whose environments came from given ones by the same bindings. -/
structure Grown (W : σ → σ → Prop) (writes : String → Prop) (e e' : Environment)
    (m m' : Machine σ) : Prop where
  world : W m.world m'.world
  made : ∃ made : List (String × Value), (∀ binding ∈ made, writes binding.1) ∧
    m.environment = e.bindAll made ∧ m'.environment = e'.bindAll made

theorem grown_coupling {W : σ → σ → Prop} {reads : String → Prop} (writes : String → Prop)
    {e e' : Environment} (hW : host.Respects W)
    (hagree : ∀ name, reads name → e.get? name = e'.get? name) :
    Coupling host host reads writes (Grown W writes e e') where
  lookup h hname := by
    obtain ⟨made, _, he, he'⟩ := h.made
    rw [he, he']
    exact Environment.get?_bindAll_congr (hagree _ hname) made
  define {_ _ name} v h hname := by
    obtain ⟨made, hmade, he, he'⟩ := h.made
    refine ⟨h.world, (name, v) :: made, List.forall_mem_cons.2 ⟨hname, hmade⟩, ?_, ?_⟩
    · rw [he]; rfl
    · rw [he']; rfl
  answer r args h := by
    obtain ⟨hreply, hworld⟩ := hW r args _ _ h.world
    exact ⟨hreply, hworld, h.made⟩

theorem evaluate_grown {W : σ → σ → Prop} (hW : host.Respects W) {v : Value}
    {e e' : Environment} (hagree : ∀ name ∈ v.live, e.get? name = e'.get? name) {s s' : σ}
    (hs : W s s') : EndAlike (Grown W (· ∈ v.targets) e e') (fun _ => False)
      (evaluate host v ⟨e, s⟩) (evaluate host v ⟨e', s'⟩) := by
  have hc := grown_coupling (· ∈ v.targets) hW hagree
  exact hc.coupled_evalAt (.refl 0) v v.keeps_evaluated _ _ ⟨hs, [], by simp, rfl, rfl⟩

theorem evaluate_binds (host : Host σ) (v : Value) (m : Machine σ) :
    ∃ made : List (String × Value), (∀ binding ∈ made, binding.1 ∈ v.targets) ∧
      (left (evaluate host v m)).environment = m.environment.bindAll made := by
  have hends : EndAlike (Grown (· = ·) (· ∈ v.targets) m.environment m.environment)
      (fun _ => False) (evaluate host v m) (evaluate host v m) :=
    evaluate_grown host.respects_eq (fun _ _ => rfl) rfl
  obtain ⟨made, hmade, he, _⟩ := hends.same.2.made
  exact ⟨made, hmade, he⟩

theorem Form.of?_assign : Form.of? (.symbol "set!") = some .assign := by decide

/-- How a form evaluates its operand, one level inside of itself. -/
def operand (host : Host σ) (v : Value) : Eval σ Value := evalAt host (some depthLimit) v 1

theorem eq_coupling (host : Host σ) :
    Coupling host host (fun _ => True) (fun _ => True) (· = ·) where
  lookup h _ := by rw [h]
  define _ h _ := by rw [h]
  answer _ _ h := by rw [h]; exact ⟨rfl, rfl⟩

theorem evalAt_deeper (host : Host σ) (limit : Option Nat) {depth depth' : Nat}
    (hle : depth ≤ depth') (v : Value) (m : Machine σ) :
    evalAt host limit v depth' m = evalAt host limit v depth m ∨
      ∃ most m', evalAt host limit v depth' m = .error (.error (.tooDeep most)) m' := by
  have hn : Nested (fun stop => ∃ most, stop = .error (.tooDeep most)) depth depth' :=
    ⟨hle, fun _ most => ⟨most, rfl⟩⟩
  have hkeeps : ∀ u ∈ v.evaluated, u.Keeps (fun _ => True) (fun _ => True) :=
    fun _ _ => ⟨fun _ _ => trivial, fun _ _ => trivial⟩
  have hends : EndAlike (· = ·) (fun stop => ∃ most, stop = .error (.tooDeep most))
      (evalAt host limit v depth m) (evalAt host limit v depth' m) :=
    (eq_coupling host).coupled_evalAt hn v hkeeps m m rfl
  generalize evalAt host limit v depth m = ended at hends
  generalize evalAt host limit v depth' m = ended' at hends
  cases hends with
  | ok hm => exact .inl (by rw [hm])
  | error hm => exact .inl (by rw [hm])
  | excused hx =>
    obtain ⟨most, rfl⟩ := hx
    exact .inr ⟨most, _, rfl⟩

theorem operand_eq_evaluate (host : Host σ) (v : Value) (m : Machine σ) :
    operand host v m = evaluate host v m ∨
      ∃ most m', operand host v m = .error (.error (.tooDeep most)) m' :=
  evalAt_deeper host (some depthLimit) (Nat.zero_le 1) v m

end Evaluation

def Value.assignment (name : String) (v : Value) : Value :=
  .apply [.symbol "set!", .symbol name, v]

namespace Machine
open Evaluation
variable {σ : Type}

theorem evaluate_snd (host : Host σ) (v : Value) (m : Machine σ) :
    (m.evaluate host v).2 = left (Evaluation.evaluate host v m) := by
  unfold Machine.evaluate
  cases Evaluation.evaluate host v m <;> rfl

theorem evaluate_assignment (host : Host σ) (name : String) (v : Value) (m : Machine σ) :
    m.evaluate host (.assignment name v) =
      match operand host v m with
      | .ok w m' => (.ok .nil, m'.define name w)
      | .error stop m' => (.error (contain stop), m') := by
  have hrun : Evaluation.evaluate host (.assignment name v) m =
      match operand host v m with
      | .ok w m' => .ok .nil (m'.define name w)
      | .error stop m' => .error stop m' := by
    unfold Evaluation.evaluate Value.assignment
    rw [evalAt, evalApply_assign Form.of?_assign]
    change EStateM.bind (operand host v) _ m = _
    unfold EStateM.bind
    cases operand host v m <;> rfl
  unfold Machine.evaluate
  rw [hrun]
  cases operand host v m <;> rfl

theorem evaluate_malformed (host : Host σ) {args : List Value}
    (h : ∀ name v, args ≠ [.symbol name, v]) (m : Machine σ) :
    ∃ e, m.evaluate host (.apply (.symbol "set!" :: args)) =
      (.error (.error (.evaluation e)), m) := by
  cases he : assignFault args with
  | none =>
    obtain ⟨name, v, hargs⟩ := assignFault_eq_none he
    exact absurd hargs (h name v)
  | some e =>
    refine ⟨e, ?_⟩
    unfold Machine.evaluate Evaluation.evaluate
    rw [evalAt, evalApply_assignFault Form.of?_assign he]
    rfl

end Machine

open Evaluation (operand evaluate)

/-- However an evaluation ends, a name that is no target keeps its value and a bound name
stays bound. An assignment binds its name once its operand has a value, on the machine that
the operand left, and otherwise changes nothing beyond what the operand did. The operand is
evaluated as it would be alone, unless that goes too deep. An assignment with other operands
changes nothing. -/
theorem evaluation_binds_only_targets {σ : Type} (host : Host σ) (v : Value) (m : Machine σ) :
    (∀ name, name ∉ v.targets →
      (m.evaluate host v).2.environment.get? name = m.environment.get? name) ∧
    (∀ name, m.environment.get? name ≠ none →
      (m.evaluate host v).2.environment.get? name ≠ none) ∧
    (∀ name e, m.evaluate host (.assignment name e) =
      match operand host e m with
      | .ok w m' => (.ok .nil, m'.define name w)
      | .error stop m' => (.error (Machine.contain stop), m')) ∧
    (∀ e, operand host e m = evaluate host e m ∨
      ∃ most m', operand host e m = .error (.error (.tooDeep most)) m') ∧
    ∀ args, (∀ name e, args ≠ [.symbol name, e]) →
      ∃ e, m.evaluate host (.apply (.symbol "set!" :: args)) =
        (.error (.error (.evaluation e)), m) := by
  obtain ⟨made, hmade, henv⟩ := Evaluation.evaluate_binds host v m
  rw [← Machine.evaluate_snd] at henv
  refine ⟨fun name hname => ?_, fun name hname => ?_, fun name e => ?_, fun e => ?_,
    fun args hargs => ?_⟩
  · rw [henv]
    refine Environment.get?_bindAll_of_not_mem _ fun binding hb heq => ?_
    exact hname (heq ▸ hmade binding hb)
  · rw [henv]
    exact Environment.get?_bindAll_ne_none hname made
  · exact Machine.evaluate_assignment host name e m
  · exact Evaluation.operand_eq_evaluate host e m
  · exact Machine.evaluate_malformed host hargs m

theorem failing_list_keeps_other_names :
    let v : Value := .list [.assignment "x" (.int 1), .apply [.symbol "+", .str "a"],
      .assignment "y" (.int 2)]
    let m : Machine Unit := ⟨Environment.empty.define "z" (.int 7), ()⟩
    "z" ∉ v.targets ∧
    (m.evaluate (fun _ _ s => (.failed "closed", s)) v).2.environment.get? "z" =
      some (.int 7) := by
  intro v m
  have hz : "z" ∉ v.targets := by decide
  exact ⟨hz, (evaluation_binds_only_targets _ v m).1 "z" hz⟩

end EmbeddedLisp
