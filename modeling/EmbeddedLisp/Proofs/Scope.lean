import EmbeddedLisp.Proofs.Faultless
import EmbeddedLisp.Proofs.Footprint

/-!
# Frames over a whole session

A session may bind names, look them up, evaluate and open and close frames in any order.
There is always a frame to bind in, and the outermost one is never closed. Evaluation binds
in the innermost frame only. When as many frames are closed as were opened, and none of the
frames below, an open frame around it all gives back the environment from before.
-/

set_option autoImplicit false

namespace EmbeddedLisp

inductive Step where
  | define (name : String) (v : Value)
  | get (name : String)
  | evaluate (v : Value)
  | eval (source : String)
  | push
  | pop

namespace Step

def isPush : Step → Bool
  | .push => true
  | _ => false

def isPop : Step → Bool
  | .pop => true
  | _ => false

def pushes (steps : List Step) : Nat := steps.countP isPush

def pops (steps : List Step) : Nat := steps.countP isPop

theorem pushes_cons (step : Step) (steps : List Step) :
    pushes (step :: steps) = pushes [step] + pushes steps := by
  rw [← List.singleton_append, pushes, List.countP_append]
  rfl

theorem pops_cons (step : Step) (steps : List Step) :
    pops (step :: steps) = pops [step] + pops steps := by
  rw [← List.singleton_append, pops, List.countP_append]
  rfl

/-- As many frames are closed as are opened, and at no time more. -/
structure Balanced (steps : List Step) : Prop where
  total : pushes steps = pops steps
  before : ∀ start, start <+: steps → pops start ≤ pushes start

theorem balanced_iff {steps : List Step} : Balanced steps ↔ pushes steps = pops steps ∧
    ∀ n ≤ steps.length, pops (steps.take n) ≤ pushes (steps.take n) := by
  constructor
  · rintro ⟨htotal, hbefore⟩
    exact ⟨htotal, fun n _ => hbefore _ (List.take_prefix n steps)⟩
  · rintro ⟨htotal, hbefore⟩
    refine ⟨htotal, fun start hs => ?_⟩
    rw [List.prefix_iff_eq_take.1 hs]
    exact hbefore _ hs.length_le

instance (steps : List Step) : Decidable (Balanced steps) :=
  decidable_of_iff _ balanced_iff.symm

end Step

theorem Environment.pop_of_enclosing {e e' : Environment} (h : e.enclosing = e'.frames) :
    e.pop = e' := by
  simp [pop, h, frames]

namespace Machine
variable {σ : Type}

def perform (host : Host σ) (m : Machine σ) : Step → Machine σ
  | .define name v => m.define name v
  | .get _ => m
  | .evaluate v => (m.evaluate host v).2
  | .eval source => (m.eval host source).2
  | .push => { m with environment := m.environment.push }
  | .pop => { m with environment := m.environment.pop }

def performAll (host : Host σ) (steps : List Step) (m : Machine σ) : Machine σ :=
  steps.foldl (perform host) m

theorem performAll_append (host : Host σ) (steps more : List Step) (m : Machine σ) :
    m.performAll host (steps ++ more) = (m.performAll host steps).performAll host more :=
  List.foldl_append

theorem enclosing_evaluate (host : Host σ) (v : Value) (m : Machine σ) :
    (m.evaluate host v).2.environment.enclosing = m.environment.enclosing := by
  obtain ⟨made, _, henv⟩ := Evaluation.evaluate_binds host v m
  rw [evaluate_snd, henv, Environment.enclosing_bindAll]

theorem enclosing_eval (host : Host σ) (source : String) (m : Machine σ) :
    (m.eval host source).2.environment.enclosing = m.environment.enclosing := by
  unfold Machine.eval
  cases readSource source with
  | error e => rfl
  | ok program => exact enclosing_evaluate host program m

/-- Around the innermost frame there are `n` more, and then the frames `below`. -/
def StandsOn (below : List (Bindings Value)) (n : Nat) (m : Machine σ) : Prop :=
  ∃ above : List (Bindings Value), above.length = n ∧ m.environment.enclosing = above ++ below

section
variable (host : Host σ) {below : List (Bindings Value)} {n : Nat} {m : Machine σ}

theorem StandsOn.perform (h : StandsOn below n m) (step : Step)
    (hstep : Step.pops [step] ≤ n + Step.pushes [step]) :
    StandsOn below (n + Step.pushes [step] - Step.pops [step]) (m.perform host step) := by
  obtain ⟨above, hlen, henv⟩ := h
  cases step with
  | define name v => exact ⟨above, hlen, henv⟩
  | get name => exact ⟨above, hlen, henv⟩
  | evaluate v => exact ⟨above, hlen, (enclosing_evaluate host v m).trans henv⟩
  | eval source => exact ⟨above, hlen, (enclosing_eval host source m).trans henv⟩
  | push =>
    refine ⟨m.environment.innermost :: above, congrArg (· + 1) hlen, ?_⟩
    exact congrArg (m.environment.innermost :: ·) henv
  | pop =>
    cases above with
    | nil => exact absurd hstep (by simp [← hlen, Step.pops, Step.pushes, Step.isPop, Step.isPush])
    | cons frame above =>
      refine ⟨above, by rw [← hlen]; rfl, ?_⟩
      simp only [Machine.perform, Environment.pop, henv, List.cons_append]

theorem StandsOn.performAll {steps : List Step} (h : StandsOn below n m)
    (hsteps : ∀ start, start <+: steps → Step.pops start ≤ n + Step.pushes start) :
    StandsOn below (n + Step.pushes steps - Step.pops steps) (m.performAll host steps) := by
  induction steps generalizing n m with
  | nil => exact h
  | cons step steps ih =>
    have hstep := hsteps [step] (by simp)
    have hrest : ∀ start, start <+: steps →
        Step.pops start ≤ n + Step.pushes [step] - Step.pops [step] + Step.pushes start := by
      intro start hs
      have hle := hsteps (step :: start) (List.cons_prefix_cons.2 ⟨rfl, hs⟩)
      rw [Step.pops_cons, Step.pushes_cons] at hle
      omega
    have hrun := ih (h.perform host step hstep) hrest
    have hcount : n + Step.pushes (step :: steps) - Step.pops (step :: steps) =
        n + Step.pushes [step] - Step.pops [step] + Step.pushes steps - Step.pops steps := by
      rw [Step.pops_cons, Step.pushes_cons]
      omega
    rw [hcount]
    exact hrun

end

theorem performAll_balanced (host : Host σ) {steps : List Step} (hb : Step.Balanced steps)
    (m : Machine σ) :
    (m.performAll host (.push :: steps ++ [.pop])).environment = m.environment := by
  have hopen : StandsOn m.environment.frames 0 (m.perform host .push) := ⟨[], rfl, rfl⟩
  have hrun := hopen.performAll host fun start hs => Nat.zero_add _ ▸ hb.before start hs
  have hzero : 0 + Step.pushes steps - Step.pops steps = 0 := by
    rw [hb.total]
    omega
  rw [hzero] at hrun
  obtain ⟨above, hlen, henv⟩ := hrun
  rw [List.eq_nil_of_length_eq_zero hlen, List.nil_append] at henv
  have hlast : m.performAll host (.push :: steps ++ [.pop]) =
      ((m.perform host .push).performAll host steps).perform host .pop :=
    performAll_append host (.push :: steps) [.pop] m
  rw [hlast]
  exact Environment.pop_of_enclosing henv

end Machine

namespace Environment

theorem stack_push (e : Environment) : e.push.stack = e.stack ++ [[]] := by
  simp [stack, push, frames]

theorem stack_pop (e : Environment) :
    e.pop.stack = if 1 < e.stack.length then e.stack.dropLast else e.stack := by
  obtain ⟨innermost, enclosing⟩ := e
  cases enclosing with
  | nil => simp [stack, pop, frames]
  | cons frame rest => simp [stack, pop, frames]

theorem length_stack (e : Environment) : e.stack.length = e.depth := by
  simp [stack, depth]

theorem pop_root {e : Environment} (h : e.depth = 1) : e.pop = e := by
  obtain ⟨innermost, enclosing⟩ := e
  have hnil : enclosing = [] := by simpa [depth, frames] using h
  simp [pop, hnil]

theorem bindLast?_bindAll (e : Environment) (made : List (String × Value)) :
    made.foldrM (fun binding stack => bindLast? stack binding.1 binding.2) e.stack =
      some (e.bindAll made).stack := by
  induction made with
  | nil => rfl
  | cons binding made ih =>
    rw [List.foldrM_cons, ih]
    exact bindLast?_stack _ _ _

end Environment

/-- What the operations of a machine do to its stack of frames, the outermost first. There
is a last frame to bind in, evaluation binds in it again and again and does nothing else, and
only what is above the first frame is closed. -/
structure Machine.Disciplined {σ : Type} (host : Host σ) (m : Machine σ) : Prop where
  nonempty : 1 ≤ m.environment.stack.length
  define : ∀ name v, Environment.bindLast? m.environment.stack name v =
    some (m.define name v).environment.stack
  evaluate : ∀ v, ∃ made : List (String × Value),
    made.foldrM (fun binding stack => Environment.bindLast? stack binding.1 binding.2)
      m.environment.stack = some (m.evaluate host v).2.environment.stack
  push : m.environment.push.stack = m.environment.stack ++ [[]]
  pop : m.environment.pop.stack =
    if 1 < m.environment.stack.length then m.environment.stack.dropLast else m.environment.stack
  root : m.environment.stack.length = 1 → m.environment.pop = m.environment

theorem Machine.disciplined {σ : Type} (host : Host σ) (m : Machine σ) : m.Disciplined host where
  nonempty := by
    rw [Environment.length_stack]
    exact m.environment.depth_pos
  define := Environment.bindLast?_stack m.environment
  evaluate v := by
    obtain ⟨made, _, henv⟩ := Evaluation.evaluate_binds host v m
    exact ⟨made, by rw [Environment.bindLast?_bindAll, Machine.evaluate_snd, henv]⟩
  push := Environment.stack_push m.environment
  pop := Environment.stack_pop m.environment
  root h := Environment.pop_root (by rwa [Environment.length_stack] at h)

/-- Whatever steps lead to a machine, there is a frame to bind in and the last one is not
closed. Balanced steps inside of an open frame leave every frame around it as it was, with
all its bindings, however the evaluations among them ended. -/
theorem balanced_steps_restore_environment {σ : Type} (host : Host σ) :
    (∀ s steps, (Machine.performAll host steps ⟨.empty, s⟩).Disciplined host) ∧
    ∀ (m : Machine σ) steps, Step.Balanced steps →
      (m.performAll host (.push :: steps ++ [.pop])).environment = m.environment :=
  ⟨fun _ _ => Machine.disciplined host _, fun m _ hb => Machine.performAll_balanced host hb m⟩

/-- A text that cannot be read, a frame inside of which a function crashes, and a name that is
bound over the one outside. -/
theorem crash_inside_frames_restores_environment :
    let crash : Value := .function ⟨.foreign 0, "crash", ⟨[], none, 0⟩⟩
    let steps : List Step := [.eval "(", .define "x" crash, .push, .eval "(set! y 2)",
      .evaluate (.apply [.symbol "x"]), .pop, .get "x"]
    let m : Machine Unit := ⟨Environment.empty.define "x" (.int 1), ()⟩
    Step.Balanced steps ∧
    (m.performAll (fun _ _ s => (.crashed none, s)) (.push :: steps ++ [.pop])).environment =
      m.environment := by
  intro crash steps m
  have hb : Step.Balanced steps := by decide
  exact ⟨hb, (balanced_steps_restore_environment _).2 m steps hb⟩

end EmbeddedLisp
