import EmbeddedLisp.Proofs.Forms

/-!
# Two evaluations side by side

Evaluation looks at a value only in its evaluation positions. There it looks up the names
of symbols and binds the targets of assignments, and all else that it does with a machine
is to ask the host. A relation between two machines, each with a host of its own, that
survives these three steps therefore survives the evaluation of a value on both, and the
two end alike.
-/

set_option autoImplicit false

namespace EmbeddedLisp

mutual

/-- The values that stand in an evaluation position of a value, itself first. -/
def Value.evaluated : Value → List Value
  | .apply items => .apply items :: Value.evaluatedCall items
  | .list items => .list items :: Value.evaluatedItems items
  | .map entries => .map entries :: Value.evaluatedEntries entries
  | .drill chain => .drill chain :: Value.evaluatedBase chain
  | v => [v]

/-- A form takes the place of its callee. An assignment without a symbol as its target, or
with any other number of operands, evaluates none of them. -/
def Value.evaluatedCall : List Value → List Value
  | [] => []
  | callee :: args =>
    match Evaluation.Form.of? callee with
    | some .sequence => Value.evaluatedItems args
    | some .sum => Value.evaluatedItems args
    | some .assign =>
      match args with
      | [.symbol _, v] => Value.evaluated v
      | _ => []
    | some .access => Value.evaluatedBase args
    | none => Value.evaluated callee ++ Value.evaluatedItems args

def Value.evaluatedItems : List Value → List Value
  | [] => []
  | v :: vs => Value.evaluated v ++ Value.evaluatedItems vs

def Value.evaluatedEntries : List (Value × Value) → List Value
  | [] => []
  | (k, v) :: es => Value.evaluated k ++ Value.evaluated v ++ Value.evaluatedEntries es

def Value.evaluatedBase : List Value → List Value
  | [] => []
  | base :: _ => Value.evaluated base

end

namespace Value
open Evaluation (Form)
variable {callee : Value} {args : List Value}

def lookedUp? : Value → Option String
  | .symbol name => some name
  | _ => none

def bound? : Value → Option String
  | .apply [callee, .symbol name, _] => if Form.of? callee = some .assign then some name else none
  | _ => none

/-- The names that the evaluation of a value may look up. -/
def live (v : Value) : List String := v.evaluated.filterMap lookedUp?

/-- The names that the evaluation of a value may bind. -/
def targets (v : Value) : List String := v.evaluated.filterMap bound?

theorem evaluatedCall_items {form : Form} (hf : Form.of? callee = some form)
    (h : form = .sequence ∨ form = .sum) :
    evaluatedCall (callee :: args) = evaluatedItems args := by
  rw [evaluatedCall.eq_def]
  rcases h with rfl | rfl <;> simp only [hf]

theorem evaluatedCall_assign (hf : Form.of? callee = some .assign) (name : String) (v : Value) :
    evaluatedCall [callee, .symbol name, v] = v.evaluated := by
  rw [evaluatedCall.eq_def]
  simp only [hf]

theorem evaluatedCall_access (hf : Form.of? callee = some .access) :
    evaluatedCall (callee :: args) = evaluatedBase args := by
  rw [evaluatedCall.eq_def]
  simp only [hf]

theorem evaluatedCall_call (hf : Form.of? callee = none) :
    evaluatedCall (callee :: args) = callee.evaluated ++ evaluatedItems args := by
  rw [evaluatedCall.eq_def]
  simp only [hf]

structure Keeps (reads writes : String → Prop) (v : Value) : Prop where
  reads : ∀ name, v.lookedUp? = some name → reads name
  writes : ∀ name, v.bound? = some name → writes name

theorem keeps_evaluated (v : Value) :
    ∀ u ∈ v.evaluated, u.Keeps (· ∈ v.live) (· ∈ v.targets) := by
  intro u hu
  exact ⟨fun name h => List.mem_filterMap.2 ⟨u, hu, h⟩,
    fun name h => List.mem_filterMap.2 ⟨u, hu, h⟩⟩

end Value

namespace Evaluation
variable {σ τ α β : Type} {I : Machine σ → Machine τ → Prop} {Excused : Stop → Prop}

/-- Two runs end with the same value or for the same reason, and leave machines that stand
in a relation. The second may instead end for a reason that is excused. -/
inductive EndAlike (I : Machine σ → Machine τ → Prop) (Excused : Stop → Prop) :
    EStateM.Result Stop (Machine σ) α → EStateM.Result Stop (Machine τ) α → Prop
  | ok {v : α} {m : Machine σ} {m' : Machine τ} : I m m' → EndAlike I Excused (.ok v m) (.ok v m')
  | error {stop : Stop} {m : Machine σ} {m' : Machine τ} :
      I m m' → EndAlike I Excused (.error stop m) (.error stop m')
  | excused {ended : EStateM.Result Stop (Machine σ) α} {stop : Stop} {m' : Machine τ} :
      Excused stop → EndAlike I Excused ended (.error stop m')

def Coupled (I : Machine σ → Machine τ → Prop) (Excused : Stop → Prop) (act : Eval σ α)
    (act' : Eval τ α) : Prop :=
  ∀ m m', I m m' → EndAlike I Excused (act m) (act' m')

theorem coupled_pure (v : α) : Coupled I Excused (pure v : Eval σ α) (pure v : Eval τ α) :=
  fun _ _ h => .ok h

theorem coupled_fail (e : Error) : Coupled I Excused (fail e : Eval σ α) (fail e : Eval τ α) :=
  fun _ _ h => .error h

theorem coupled_lift (r : Except Error α) :
    Coupled I Excused (lift r : Eval σ α) (lift r : Eval τ α) := by
  cases r with
  | ok v => exact coupled_pure v
  | error e => exact coupled_fail e

theorem coupled_bind {act : Eval σ α} {act' : Eval τ α} {f : α → Eval σ β} {f' : α → Eval τ β}
    (ha : Coupled I Excused act act') (hf : ∀ v, Coupled I Excused (f v) (f' v)) :
    Coupled I Excused (act >>= f) (act' >>= f') := by
  intro m m' h
  change EndAlike I Excused (EStateM.bind act f m) (EStateM.bind act' f' m')
  have hends := ha m m' h
  unfold EStateM.bind
  generalize act m = ended at hends
  generalize act' m' = ended' at hends
  cases hends with
  | ok hI => exact hf _ _ _ hI
  | error hI => exact .error hI
  | excused hx => exact .excused hx

theorem coupled_map {act : Eval σ α} {act' : Eval τ α} (f : α → β)
    (ha : Coupled I Excused act act') : Coupled I Excused (f <$> act) (f <$> act') := by
  rw [map_eq_pure_bind, map_eq_pure_bind]
  exact coupled_bind ha fun v => coupled_pure (f v)

/-- The second run may be nested deeper, if it is excused for going too deep. -/
structure Nested (Excused : Stop → Prop) (depth depth' : Nat) : Prop where
  le : depth ≤ depth'
  excused : depth < depth' → ∀ most, Excused (.error (.tooDeep most))

theorem Nested.refl (depth : Nat) : Nested Excused depth depth :=
  ⟨Nat.le_refl depth, fun h => absurd h (Nat.lt_irrefl depth)⟩

theorem Nested.succ {depth depth' : Nat} (h : Nested Excused depth depth') :
    Nested Excused (depth + 1) (depth' + 1) :=
  ⟨Nat.succ_le_succ h.le, fun hlt => h.excused (Nat.lt_of_succ_lt_succ hlt)⟩

theorem coupled_within {act : Eval σ α} {act' : Eval τ α} {depth depth' : Nat} (limit : Option Nat)
    (hn : Nested Excused depth depth') (ha : Coupled I Excused act act') :
    Coupled I Excused (within limit depth act) (within limit depth' act') := by
  cases limit with
  | none => exact ha
  | some most =>
    simp only [within]
    by_cases hdeep : most < depth'
    · rw [if_pos hdeep]
      by_cases hlt : depth < depth'
      · exact fun _ _ _ => .excused (hn.excused hlt most)
      · have heq : depth = depth' := Nat.le_antisymm hn.le (Nat.not_lt.1 hlt)
        rw [heq, if_pos hdeep]
        exact coupled_fail _
    · have hle := hn.le
      rw [if_neg hdeep, if_neg (by omega)]
      exact ha

/-- A relation between machines of two hosts that survives each step of an evaluation that
looks up names from `reads` and binds names from `writes`. -/
structure Coupling (host : Host σ) (host' : Host τ) (reads writes : String → Prop)
    (I : Machine σ → Machine τ → Prop) : Prop where
  lookup {m : Machine σ} {m' : Machine τ} {name : String} : I m m' → reads name →
    m.environment.get? name = m'.environment.get? name
  define {m : Machine σ} {m' : Machine τ} {name : String} (v : Value) : I m m' → writes name →
    I { m with environment := m.environment.define name v }
      { m' with environment := m'.environment.define name v }
  answer {m : Machine σ} {m' : Machine τ} (r : Reference Builtin) (args : List Value) : I m m' →
    (host r args m.world).1 = (host' r args m'.world).1 ∧
    I { m with world := (host r args m.world).2 } { m' with world := (host' r args m'.world).2 }

section
variable {host : Host σ} {host' : Host τ} {reads writes : String → Prop} {limit : Option Nat}

theorem Coupling.coupled_lookup (hc : Coupling host host' reads writes I) {name : String}
    (hname : reads name) : Coupled I Excused (Evaluation.lookup name) (Evaluation.lookup name) := by
  intro m m' h
  unfold Evaluation.lookup
  rw [hc.lookup h hname]
  exact .ok h

theorem Coupling.coupled_define (hc : Coupling host host' reads writes I) {name : String}
    (hname : writes name) (v : Value) :
    Coupled I Excused (Evaluation.define name v) (Evaluation.define name v) :=
  fun _ _ h => .ok (hc.define v h hname)

theorem Coupling.coupled_call (hc : Coupling host host' reads writes I) (f : HostFunction)
    (args : List Value) :
    Coupled I Excused (onWorld (call host f args)) (onWorld (call host' f args)) := by
  intro m m' h
  unfold onWorld call
  cases prepare f args with
  | error e => exact .error h
  | ok prepared =>
    obtain ⟨hreply, hafter⟩ := hc.answer f.reference prepared h
    dsimp only
    rw [hreply]
    cases settle f (host' f.reference prepared m'.world).1 with
    | ok outputs => exact .ok hafter
    | error stop => exact .error hafter

theorem Coupling.coupled_callValue (hc : Coupling host host' reads writes I) (args : List Value)
    (callee : Value) :
    Coupled I Excused (callValue host args callee) (callValue host' args callee) := by
  unfold callValue
  split
  · exact coupled_map bundle (hc.coupled_call _ args)
  · exact coupled_fail _

-- The induction is on the value. The names it may look up and bind are fixed throughout,
-- so that each position only has to keep to them itself.
mutual

theorem Coupling.coupled_evalAt (hc : Coupling host host' reads writes I) {depth depth' : Nat}
    (hn : Nested Excused depth depth') (v : Value)
    (hv : ∀ u ∈ v.evaluated, u.Keeps reads writes) :
    Coupled I Excused (evalAt host limit v depth) (evalAt host' limit v depth') := by
  match v with
  | .apply items =>
    simp only [Value.evaluated, List.forall_mem_cons] at hv
    simp only [evalAt]
    exact coupled_within limit hn (Coupling.coupled_evalApply hc hn.succ items hv.1 hv.2)
  | .symbol name =>
    simp only [Value.evaluated, List.forall_mem_cons] at hv
    simp only [evalAt]
    exact coupled_within limit hn (hc.coupled_lookup (hv.1.reads name rfl))
  | .list items =>
    simp only [Value.evaluated, List.forall_mem_cons] at hv
    simp only [evalAt]
    exact coupled_within limit hn
      (coupled_map _ (Coupling.coupled_evalItems hc hn.succ items hv.2))
  | .map entries =>
    simp only [Value.evaluated, List.forall_mem_cons] at hv
    simp only [evalAt]
    exact coupled_within limit hn
      (coupled_map _ (Coupling.coupled_evalEntries hc hn.succ entries hv.2))
  | .drill chain =>
    simp only [Value.evaluated, List.forall_mem_cons] at hv
    simp only [evalAt]
    exact coupled_within limit hn (Coupling.coupled_evalChain hc hn.succ chain hv.2)
  | .nil => simpa only [evalAt] using coupled_within limit hn (coupled_pure _)
  | .int n => simpa only [evalAt] using coupled_within limit hn (coupled_pure _)
  | .float x => simpa only [evalAt] using coupled_within limit hn (coupled_pure _)
  | .str s => simpa only [evalAt] using coupled_within limit hn (coupled_pure _)
  | .quote body => simpa only [evalAt] using coupled_within limit hn (coupled_pure _)
  | .unquote body => simpa only [evalAt] using coupled_within limit hn (coupled_pure _)
  | .function f => simpa only [evalAt] using coupled_within limit hn (coupled_pure _)
  | .table r name fields => simpa only [evalAt] using coupled_within limit hn (coupled_pure _)
termination_by sizeOf v

theorem Coupling.coupled_evalApply (hc : Coupling host host' reads writes I) {depth depth' : Nat}
    (hn : Nested Excused depth depth') (items : List Value)
    (hself : (Value.apply items).Keeps reads writes)
    (hv : ∀ u ∈ Value.evaluatedCall items, u.Keeps reads writes) :
    Coupled I Excused (evalApply host limit items depth) (evalApply host' limit items depth') := by
  match items with
  | [] => simpa only [evalApply] using coupled_pure _
  | callee :: args =>
    cases hf : Form.of? callee with
    | none =>
      rw [Value.evaluatedCall_call hf, List.forall_mem_append] at hv
      rw [evalApply_call hf, evalApply_call hf]
      refine coupled_bind (Coupling.coupled_evalAt hc hn callee hv.1) fun f => ?_
      refine coupled_bind (Coupling.coupled_evalItems hc hn args hv.2) fun ws => ?_
      exact hc.coupled_callValue ws f
    | some form =>
      cases form with
      | sequence =>
        rw [Value.evaluatedCall_items hf (.inl rfl)] at hv
        rw [evalApply_sequence hf, evalApply_sequence hf]
        exact Coupling.coupled_evalSequence hc hn args .nil hv
      | sum =>
        rw [Value.evaluatedCall_items hf (.inr rfl)] at hv
        rw [evalApply_sum hf, evalApply_sum hf]
        exact Coupling.coupled_evalSum hc hn args 0 hv
      | assign =>
        cases he : assignFault args with
        | some e =>
          rw [evalApply_assignFault hf he, evalApply_assignFault hf he]
          exact coupled_fail e
        | none =>
          obtain ⟨name, v, rfl⟩ := assignFault_eq_none he
          have hname : writes name := hself.writes name (by simp [Value.bound?, hf])
          rw [Value.evaluatedCall_assign hf] at hv
          rw [evalApply_assign hf, evalApply_assign hf]
          refine coupled_bind (Coupling.coupled_evalAt hc hn v hv) fun w => ?_
          exact coupled_bind (hc.coupled_define hname w) fun _ => coupled_pure _
      | access =>
        match args with
        | [] =>
          rw [evalApply_access_nil hf, evalApply_access_nil hf]
          exact coupled_fail _
        | base :: keys =>
          rw [Value.evaluatedCall_access hf] at hv
          rw [evalApply_access hf, evalApply_access hf]
          exact Coupling.coupled_evalChain hc hn (base :: keys) hv
termination_by sizeOf items

theorem Coupling.coupled_evalChain (hc : Coupling host host' reads writes I) {depth depth' : Nat}
    (hn : Nested Excused depth depth') (chain : List Value)
    (hv : ∀ u ∈ Value.evaluatedBase chain, u.Keeps reads writes) :
    Coupled I Excused (evalChain host limit chain depth) (evalChain host' limit chain depth') := by
  match chain with
  | [] => simpa only [evalChain] using coupled_fail _
  | base :: keys =>
    simp only [Value.evaluatedBase] at hv
    simp only [evalChain]
    exact coupled_bind (Coupling.coupled_evalAt hc hn base hv) fun w => coupled_lift _
termination_by sizeOf chain

theorem Coupling.coupled_evalSequence (hc : Coupling host host' reads writes I) {depth depth' : Nat}
    (hn : Nested Excused depth depth') (vs : List Value) (last : Value)
    (hv : ∀ u ∈ Value.evaluatedItems vs, u.Keeps reads writes) :
    Coupled I Excused (evalSequence host limit vs last depth)
      (evalSequence host' limit vs last depth') := by
  match vs with
  | [] => simpa only [evalSequence] using coupled_pure _
  | v :: vs =>
    simp only [Value.evaluatedItems, List.forall_mem_append] at hv
    simp only [evalSequence]
    exact coupled_bind (Coupling.coupled_evalAt hc hn v hv.1) fun w =>
      Coupling.coupled_evalSequence hc hn vs w hv.2
termination_by sizeOf vs

theorem Coupling.coupled_evalSum (hc : Coupling host host' reads writes I) {depth depth' : Nat}
    (hn : Nested Excused depth depth') (vs : List Value) (total : Int64)
    (hv : ∀ u ∈ Value.evaluatedItems vs, u.Keeps reads writes) :
    Coupled I Excused (evalSum host limit vs total depth) (evalSum host' limit vs total depth') := by
  match vs with
  | [] => simpa only [evalSum] using coupled_pure _
  | v :: vs =>
    simp only [Value.evaluatedItems, List.forall_mem_append] at hv
    simp only [evalSum]
    refine coupled_bind (Coupling.coupled_evalAt hc hn v hv.1) fun w => ?_
    exact coupled_bind (coupled_lift _) fun sum => Coupling.coupled_evalSum hc hn vs sum hv.2
termination_by sizeOf vs

theorem Coupling.coupled_evalItems (hc : Coupling host host' reads writes I) {depth depth' : Nat}
    (hn : Nested Excused depth depth') (vs : List Value)
    (hv : ∀ u ∈ Value.evaluatedItems vs, u.Keeps reads writes) :
    Coupled I Excused (evalItems host limit vs depth) (evalItems host' limit vs depth') := by
  match vs with
  | [] => simpa only [evalItems] using coupled_pure _
  | v :: vs =>
    simp only [Value.evaluatedItems, List.forall_mem_append] at hv
    simp only [evalItems]
    refine coupled_bind (Coupling.coupled_evalAt hc hn v hv.1) fun w => ?_
    exact coupled_bind (Coupling.coupled_evalItems hc hn vs hv.2) fun ws => coupled_pure _
termination_by sizeOf vs

theorem Coupling.coupled_evalEntries (hc : Coupling host host' reads writes I) {depth depth' : Nat}
    (hn : Nested Excused depth depth') (es : List (Value × Value))
    (hv : ∀ u ∈ Value.evaluatedEntries es, u.Keeps reads writes) :
    Coupled I Excused (evalEntries host limit es depth) (evalEntries host' limit es depth') := by
  match es with
  | [] => simpa only [evalEntries] using coupled_pure _
  | (k, v) :: es =>
    simp only [Value.evaluatedEntries, List.forall_mem_append] at hv
    simp only [evalEntries]
    refine coupled_bind (Coupling.coupled_evalAt hc hn k hv.1.1) fun k' => ?_
    refine coupled_bind (Coupling.coupled_evalAt hc hn v hv.1.2) fun v' => ?_
    exact coupled_bind (Coupling.coupled_evalEntries hc hn es hv.2) fun fs => coupled_pure _
termination_by sizeOf es

end

end

end Evaluation

end EmbeddedLisp
