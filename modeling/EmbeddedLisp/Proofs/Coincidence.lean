import EmbeddedLisp.Proofs.Footprint

/-!
# Evaluation depends on the live names alone

Two environments that agree on the live names of a value make no difference to its
evaluation, whatever else is bound in them and in however many frames. The names that a run
sets are those it leaves bound in a fresh frame, and both runs set them alike. The name of a
form is not live in the form, and a stack of frames counts only for what it shows.
-/

set_option autoImplicit false

namespace EmbeddedLisp

namespace Bindings
variable {α : Type}

theorem find?_append (name : String) (b c : Bindings α) :
    find? name (b ++ c) = (find? name b).or (find? name c) := by
  induction b with
  | nil => rfl
  | cons binding rest ih =>
    obtain ⟨n, v⟩ := binding
    by_cases h : name = n
    · simp [find?, h]
    · simp [find?, h, ih]

theorem find?_flatten (name : String) (frames : List (Bindings α)) :
    find? name frames.flatten = frames.findSome? (find? name) := by
  induction frames with
  | nil => rfl
  | cons frame frames ih =>
    rw [List.flatten_cons, find?_append, ih, List.findSome?_cons]
    cases find? name frame <;> rfl

end Bindings

namespace Environment

@[simp] theorem get?_push (e : Environment) (name : String) : e.push.get? name = e.get? name :=
  rfl

/-- A single frame that shows what can be seen through all frames. -/
def flat (e : Environment) : Environment := empty.bindAll e.frames.flatten

@[simp] theorem get?_flat (e : Environment) (name : String) : e.flat.get? name = e.get? name := by
  have hempty : empty.get? name = none := rfl
  rw [flat, get?_bindAll, hempty, Option.or_none, Bindings.find?_flatten]
  rfl

@[simp] theorem depth_flat (e : Environment) : e.flat.depth = 1 := by
  simp [depth, frames, flat, empty]

theorem innermost_bindAll_congr {e e' : Environment} (h : e.innermost = e'.innermost)
    (made : List (String × Value)) : (e.bindAll made).innermost = (e'.bindAll made).innermost := by
  induction made with
  | nil => exact h
  | cons binding made ih => simp only [bindAll, define, ih]

theorem find?_innermost_push_bindAll (e : Environment) (made : List (String × Value))
    (name : String) : Bindings.find? name (e.push.bindAll made).innermost =
      Bindings.find? name made := by
  induction made with
  | nil => rfl
  | cons binding made ih =>
    obtain ⟨n, v⟩ := binding
    by_cases h : name = n
    · subst h
      simp [bindAll, define, Bindings.find?]
    · simp only [bindAll, define, Bindings.find?_insert_of_ne h, Bindings.find?, if_neg h, ih]

end Environment

namespace Value
open Evaluation (Form)

theorem mem_evaluatedItems {u : Value} {vs : List Value} :
    u ∈ evaluatedItems vs ↔ ∃ v ∈ vs, u ∈ v.evaluated := by
  induction vs with
  | nil => simp [evaluatedItems]
  | cons v vs ih => simp [evaluatedItems, ih]

theorem mem_evaluatedCall_form {callee u : Value} {args : List Value} {form : Form}
    (hf : Form.of? callee = some form) (hu : u ∈ evaluatedCall (callee :: args)) :
    ∃ v ∈ args, u ∈ v.evaluated := by
  rw [evaluatedCall.eq_def] at hu
  cases form with
  | sequence => exact mem_evaluatedItems.1 (by simpa only [hf] using hu)
  | sum => exact mem_evaluatedItems.1 (by simpa only [hf] using hu)
  | assign =>
    simp only [hf] at hu
    split at hu
    · next v => exact ⟨v, by simp, hu⟩
    · simp at hu
  | access =>
    simp only [hf] at hu
    cases args with
    | nil => simp [evaluatedBase] at hu
    | cons base keys => exact ⟨base, by simp, by simpa [evaluatedBase] using hu⟩

theorem live_form {form : Form} {args : List Value} {name : String}
    (h : name ∈ (Value.apply (.symbol form.name :: args)).live) : ∃ v ∈ args, name ∈ v.live := by
  have hf : Form.of? (.symbol form.name) = some form := by cases form <;> decide
  obtain ⟨u, hu, hname⟩ := List.mem_filterMap.1 h
  rw [evaluated, List.mem_cons] at hu
  rcases hu with rfl | hu
  · simp [lookedUp?] at hname
  · obtain ⟨v, hv, hmem⟩ := mem_evaluatedCall_form hf hu
    exact ⟨v, hv, List.mem_filterMap.2 ⟨u, hmem, hname⟩⟩

end Value

namespace Evaluation
variable {σ : Type}

/-- What a run sets: all that it leaves bound in a frame that was empty before it. -/
def assigned (host : Host σ) (v : Value) (m : Machine σ) : Bindings Value :=
  (left (evaluate host v { m with environment := m.environment.push })).environment.innermost

def IsAssigned (host : Host σ) (v : Value) (m : Machine σ) (name : String) : Prop :=
  Bindings.find? name (assigned host v m) ≠ none

/-- Two runs of a value from different environments have the same outcome, leave the host in
the same state and set the same names to the same values. A run lays what it sets over its
environment. The environments that are left agree on the live names, on the names that were
set, and where they agreed before. -/
structure SameRun (host : Host σ) (v : Value) (s : σ) (e e' : Environment) : Prop where
  outcome_eq : outcome (evaluate host v ⟨e, s⟩) = outcome (evaluate host v ⟨e', s⟩)
  world_eq : (left (evaluate host v ⟨e, s⟩)).world = (left (evaluate host v ⟨e', s⟩)).world
  assigned_eq : assigned host v ⟨e, s⟩ = assigned host v ⟨e', s⟩
  overlay : ∀ name, (left (evaluate host v ⟨e, s⟩)).environment.get? name =
    (Bindings.find? name (assigned host v ⟨e, s⟩)).or (e.get? name)
  get?_eq : ∀ name,
    name ∈ v.live ∨ IsAssigned host v ⟨e, s⟩ name ∨ e.get? name = e'.get? name →
    (left (evaluate host v ⟨e, s⟩)).environment.get? name =
      (left (evaluate host v ⟨e', s⟩)).environment.get? name

section
variable {v : Value} {e e' : Environment}

theorem get?_left (host : Host σ) (hlive : ∀ name ∈ v.live, e.get? name = e'.get? name)
    (s : σ) (name : String) :
    (left (evaluate host v ⟨e', s⟩)).environment.get? name =
      (Bindings.find? name (assigned host v ⟨e, s⟩)).or (e'.get? name) := by
  have hpush : ∀ name ∈ v.live, e.push.get? name = e'.get? name := by simpa using hlive
  obtain ⟨made, _, hfresh, he'⟩ :=
    (evaluate_grown host.respects_eq hpush (rfl : s = s)).same.2.made
  rw [he', Environment.get?_bindAll, assigned, hfresh, Environment.find?_innermost_push_bindAll]

theorem assigned_congr (host : Host σ) (hlive : ∀ name ∈ v.live, e.get? name = e'.get? name)
    (s : σ) : assigned host v ⟨e, s⟩ = assigned host v ⟨e', s⟩ := by
  have hpush : ∀ name ∈ v.live, e.push.get? name = e'.push.get? name := by simpa using hlive
  obtain ⟨made, _, hfresh, hfresh'⟩ :=
    (evaluate_grown host.respects_eq hpush (rfl : s = s)).same.2.made
  have hempty : e.push.innermost = e'.push.innermost := rfl
  rw [assigned, assigned, hfresh, hfresh']
  exact Environment.innermost_bindAll_congr hempty made

theorem sameRun_of_live (host : Host σ) (hlive : ∀ name ∈ v.live, e.get? name = e'.get? name)
    (s : σ) : SameRun host v s e e' := by
  obtain ⟨houtcome, hgrown⟩ :=
    (evaluate_grown host.respects_eq hlive (rfl : s = s)).same
  refine ⟨houtcome, hgrown.world, assigned_congr host hlive s,
    get?_left host (fun _ _ => rfl) s, fun name h => ?_⟩
  rw [get?_left host (fun _ _ => rfl) s, get?_left host hlive s]
  rcases h with h | h | h
  · rw [hlive name h]
  · obtain ⟨w, hw⟩ := Option.ne_none_iff_exists'.1 h
    simp [hw]
  · rw [h]

end

end Evaluation

open Evaluation (Form SameRun sameRun_of_live)

/-- Environments that agree on the live names of a value make no difference to its
evaluation. To bind the names of forms does not change how forms are evaluated. A stack of
frames can be replaced by the single frame that shows the same bindings. -/
theorem evaluation_depends_on_live_names {σ : Type} (host : Host σ) (v : Value) (s : σ)
    (e e' : Environment) (hlive : ∀ name ∈ v.live, e.get? name = e'.get? name) :
    SameRun host v s e e' ∧
    (∀ (form other : Form) (args : List Value) (w : Value), (∀ u ∈ args, other.name ∉ u.live) →
      SameRun host (.apply (.symbol form.name :: args)) s e (e.define other.name w)) ∧
    e.flat.depth = 1 ∧ (∀ name, e.flat.get? name = e.get? name) ∧
    SameRun host v s e e.flat := by
  refine ⟨sameRun_of_live host hlive s, fun form other args w hargs => ?_, e.depth_flat,
    e.get?_flat, sameRun_of_live host (fun name _ => (e.get?_flat name).symm) s⟩
  refine sameRun_of_live host (fun name hname => ?_) s
  have hne : name ≠ other.name := by
    rintro rfl
    obtain ⟨u, hu, hmem⟩ := Value.live_form hname
    exact hargs u hu hmem
  rw [Environment.get?_define_of_ne e hne]

theorem sequence_runs_alike_in_two_frames :
    let v : Value := .apply [.symbol "do", .assignment "x" (.symbol "y"),
      .apply [.symbol "f", .symbol "y"]]
    let e := (Environment.empty.define "y" (.int 1)).push.define "do" .nil
    let e' := (Environment.empty.define "y" (.int 1)).define "x" (.int 9)
    (∀ name ∈ v.live, e.get? name = e'.get? name) ∧
    SameRun (fun _ _ s => (.failed "closed", s)) v () e e' := by
  intro v e e'
  have hnames : v.live = ["y", "f", "y"] := by decide
  have hlive : ∀ name ∈ v.live, e.get? name = e'.get? name := by
    rw [hnames]
    simp only [List.forall_mem_cons]
    exact ⟨rfl, rfl, rfl, by simp⟩
  exact ⟨hlive, (evaluation_depends_on_live_names _ v () e e' hlive).1⟩

end EmbeddedLisp
