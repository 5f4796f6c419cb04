import EmbeddedLisp.Proofs.Forms
import EmbeddedLisp.Proofs.Reading

/-!
# The depth of evaluation

The reach of a value is the number of levels that its evaluation can add, which is read
off the value alone: what names are bound to is never evaluated. Within the limit on
depth an evaluation is the one without a limit. A drill costs a level of evaluation and
none of reading, so that the reach of an expression is below twice its nesting.
-/

set_option autoImplicit false

namespace EmbeddedLisp

mutual

/-- How many levels the evaluation of a value can add. Operands that a form does not
evaluate add none. -/
def Value.reach : Value → Nat
  | .apply items => Value.reachCall items
  | .list items => Value.reachItems items
  | .map entries => Value.reachEntries entries
  | .drill chain => Value.reachBase chain
  | _ => 0

def Value.reachCall : List Value → Nat
  | [] => 0
  | callee :: args =>
    match Evaluation.Form.of? callee with
    | some .sequence => Value.reachItems args
    | some .sum => Value.reachItems args
    | some .assign =>
      match args with
      | [.symbol _, v] => Value.reach v + 1
      | _ => 0
    | some .access => Value.reachBase args
    | none => max (Value.reach callee + 1) (Value.reachItems args)

def Value.reachItems : List Value → Nat
  | [] => 0
  | v :: vs => max (Value.reach v + 1) (Value.reachItems vs)

def Value.reachEntries : List (Value × Value) → Nat
  | [] => 0
  | (k, v) :: es => max (max (Value.reach k + 1) (Value.reach v + 1)) (Value.reachEntries es)

def Value.reachBase : List Value → Nat
  | [] => 0
  | base :: _ => Value.reach base + 1

end

namespace Value
open Evaluation (Form)
variable {callee : Value} {args : List Value}

theorem reachCall_items {form : Form} (hf : Form.of? callee = some form)
    (h : form = .sequence ∨ form = .sum) : reachCall (callee :: args) = reachItems args := by
  rw [reachCall.eq_def]
  rcases h with rfl | rfl <;> simp only [hf]

theorem reachCall_assign (hf : Form.of? callee = some .assign) (name : String) (v : Value) :
    reachCall [callee, .symbol name, v] = v.reach + 1 := by
  rw [reachCall.eq_def]
  simp only [hf]

theorem reachCall_access (hf : Form.of? callee = some .access) :
    reachCall (callee :: args) = reachBase args := by
  rw [reachCall.eq_def]
  simp only [hf]

theorem reachCall_call (hf : Form.of? callee = none) :
    reachCall (callee :: args) = max (callee.reach + 1) (reachItems args) := by
  rw [reachCall.eq_def]
  simp only [hf]

theorem reachCall_le (items : List Value) : reachCall items ≤ reachItems items := by
  match items with
  | [] => simp only [reachCall, reachItems, Nat.le_refl]
  | callee :: args =>
    simp only [reachItems]
    cases hf : Form.of? callee with
    | none => exact Nat.le_of_eq (reachCall_call hf)
    | some form =>
      cases form with
      | sequence => exact reachCall_items hf (.inl rfl) ▸ Nat.le_max_right _ _
      | sum => exact reachCall_items hf (.inr rfl) ▸ Nat.le_max_right _ _
      | assign =>
        rw [reachCall.eq_def]
        simp only [hf]
        split
        · next v =>
          simp only [reachItems]
          omega
        · omega
      | access =>
        rw [reachCall_access hf]
        cases args with
        | nil => simp [reachBase]
        | cons base keys =>
          simp only [reachBase, reachItems]
          omega

end Value

namespace Evaluation
variable {σ α β : Type}

theorem within_of_le {most depth : Nat} (h : depth ≤ most) (act : Eval σ α) :
    within (some most) depth act = within none depth act := by
  simp [within, Nat.not_lt.2 h]

mutual

theorem evalAt_within (host : Host σ) {most : Nat} (v : Value) (depth : Nat)
    (h : v.reach + depth ≤ most) :
    evalAt host (some most) v depth = evalAt host none v depth := by
  have hd : depth ≤ most := by omega
  match v with
  | .apply items =>
    simp only [evalAt, within_of_le hd, evalApply_within host items depth h]
  | .list items =>
    simp only [evalAt, within_of_le hd, evalItems_within host items depth h]
  | .map entries =>
    simp only [evalAt, within_of_le hd, evalEntries_within host entries depth h]
  | .drill chain =>
    simp only [evalAt, within_of_le hd, evalChain_within host chain depth h]
  | .symbol name => simp only [evalAt, within_of_le hd]
  | .nil => simp only [evalAt, within_of_le hd]
  | .int n => simp only [evalAt, within_of_le hd]
  | .float x => simp only [evalAt, within_of_le hd]
  | .str s => simp only [evalAt, within_of_le hd]
  | .quote body => simp only [evalAt, within_of_le hd]
  | .unquote body => simp only [evalAt, within_of_le hd]
  | .function f => simp only [evalAt, within_of_le hd]
  | .table r name fields => simp only [evalAt, within_of_le hd]

theorem evalApply_within (host : Host σ) {most : Nat} (items : List Value) (depth : Nat)
    (h : Value.reachCall items + depth ≤ most) :
    evalApply host (some most) items (depth + 1) = evalApply host none items (depth + 1) := by
  match items with
  | [] => simp only [evalApply]
  | callee :: args =>
    cases hf : Form.of? callee with
    | none =>
      rw [Value.reachCall_call hf] at h
      rw [evalApply_call hf, evalApply_call hf, evalAt_within host callee (depth + 1) (by omega),
        evalItems_within host args depth (by omega)]
    | some form =>
      cases form with
      | sequence =>
        rw [Value.reachCall_items hf (.inl rfl)] at h
        rw [evalApply_sequence hf, evalApply_sequence hf]
        exact evalSequence_within host args .nil depth h
      | sum =>
        rw [Value.reachCall_items hf (.inr rfl)] at h
        rw [evalApply_sum hf, evalApply_sum hf]
        exact evalSum_within host args 0 depth h
      | assign =>
        cases he : assignFault args with
        | some e => rw [evalApply_assignFault hf he, evalApply_assignFault hf he]
        | none =>
          obtain ⟨name, v, rfl⟩ := assignFault_eq_none he
          rw [Value.reachCall_assign hf] at h
          rw [evalApply_assign hf, evalApply_assign hf, evalAt_within host v (depth + 1) (by omega)]
      | access =>
        match args with
        | [] => rw [evalApply_access_nil hf, evalApply_access_nil hf]
        | base :: keys =>
          rw [Value.reachCall_access hf] at h
          rw [evalApply_access hf, evalApply_access hf]
          exact evalChain_within host (base :: keys) depth h

theorem evalChain_within (host : Host σ) {most : Nat} (chain : List Value) (depth : Nat)
    (h : Value.reachBase chain + depth ≤ most) :
    evalChain host (some most) chain (depth + 1) = evalChain host none chain (depth + 1) := by
  match chain with
  | [] => simp only [evalChain]
  | base :: keys =>
    simp only [Value.reachBase] at h
    simp only [evalChain]
    rw [evalAt_within host base (depth + 1) (by omega)]

theorem evalSequence_within (host : Host σ) {most : Nat} (vs : List Value) (last : Value)
    (depth : Nat) (h : Value.reachItems vs + depth ≤ most) :
    evalSequence host (some most) vs last (depth + 1) =
      evalSequence host none vs last (depth + 1) := by
  match vs with
  | [] => simp only [evalSequence]
  | v :: vs =>
    simp only [Value.reachItems] at h
    simp only [evalSequence]
    rw [evalAt_within host v (depth + 1) (by omega)]
    exact bind_congr fun w => evalSequence_within host vs w depth (by omega)

theorem evalSum_within (host : Host σ) {most : Nat} (vs : List Value) (total : Int64)
    (depth : Nat) (h : Value.reachItems vs + depth ≤ most) :
    evalSum host (some most) vs total (depth + 1) =
      evalSum host none vs total (depth + 1) := by
  match vs with
  | [] => simp only [evalSum]
  | v :: vs =>
    simp only [Value.reachItems] at h
    simp only [evalSum]
    rw [evalAt_within host v (depth + 1) (by omega)]
    exact bind_congr fun w => bind_congr fun sum => evalSum_within host vs sum depth (by omega)

theorem evalItems_within (host : Host σ) {most : Nat} (vs : List Value) (depth : Nat)
    (h : Value.reachItems vs + depth ≤ most) :
    evalItems host (some most) vs (depth + 1) = evalItems host none vs (depth + 1) := by
  match vs with
  | [] => simp only [evalItems]
  | v :: vs =>
    simp only [Value.reachItems] at h
    simp only [evalItems]
    rw [evalAt_within host v (depth + 1) (by omega), evalItems_within host vs depth (by omega)]

theorem evalEntries_within (host : Host σ) {most : Nat} (es : List (Value × Value)) (depth : Nat)
    (h : Value.reachEntries es + depth ≤ most) :
    evalEntries host (some most) es (depth + 1) = evalEntries host none es (depth + 1) := by
  match es with
  | [] => simp only [evalEntries]
  | (k, v) :: es =>
    simp only [Value.reachEntries] at h
    simp only [evalEntries]
    rw [evalAt_within host k (depth + 1) (by omega), evalAt_within host v (depth + 1) (by omega),
      evalEntries_within host es depth (by omega)]

end

def Stop.isTooDeep : Stop → Bool
  | .error (.tooDeep _) => true
  | _ => false

/-- Whatever stops the action, it is not the limit on depth. -/
def Unhindered (act : Eval σ α) : Prop :=
  ∀ (m m' : Machine σ) (stop : Stop), act m = .error stop m' → stop.isTooDeep = false

theorem unhindered_pure (v : α) : Unhindered (pure v : Eval σ α) := by
  intro m m' stop h
  simp [pure, EStateM.pure] at h

theorem unhindered_fail {e : Error} (h : (Stop.error e).isTooDeep = false) :
    Unhindered (fail e : Eval σ α) := by
  intro m m' stop hs
  cases hs
  exact h

theorem unhindered_lift {r : Except Error α}
    (h : ∀ e, r = .error e → (Stop.error e).isTooDeep = false) : Unhindered (lift r : Eval σ α) := by
  cases r with
  | ok v => exact unhindered_pure v
  | error e => exact unhindered_fail (h e rfl)

theorem unhindered_bind {act : Eval σ α} {f : α → Eval σ β} (ha : Unhindered act)
    (hf : ∀ v, Unhindered (f v)) : Unhindered (act >>= f) := by
  intro m m' stop h
  change EStateM.bind act f m = _ at h
  unfold EStateM.bind at h
  cases hm : act m with
  | ok v left =>
    rw [hm] at h
    exact hf v _ _ _ h
  | error e left =>
    rw [hm] at h
    cases h
    exact ha _ _ _ hm

theorem unhindered_map {act : Eval σ α} (f : α → β) (ha : Unhindered act) :
    Unhindered (f <$> act) := by
  intro m m' stop h
  change EStateM.map f act m = _ at h
  unfold EStateM.map at h
  cases hm : act m with
  | ok v left =>
    rw [hm] at h
    cases h
  | error e left =>
    rw [hm] at h
    cases h
    exact ha _ _ _ hm

theorem unhindered_define (name : String) (v : Value) :
    Unhindered (define name v : Eval σ Unit) := by
  intro m m' stop h
  simp [define] at h

theorem assignFault_error {args : List Value} {e : Error} (h : assignFault args = some e) :
    (Stop.error e).isTooDeep = false := by
  unfold assignFault at h
  split at h
  · simp at h
  · cases h; rfl
  · cases h; rfl

theorem item_error {whole : Value} {items : List α} {i : Int64} {e : Error}
    (h : item whole items i = .error e) : e = .indexOutOfRange i items.length whole := by
  unfold item at h
  split at h
  · simp at h
  · exact (Except.error.inj h).symm

theorem entryValue_error {whole key : Value} {entries : List (Value × Value)} {e : Error}
    (h : entryValue whole entries key = .error e) : e = .missingKey key whole := by
  unfold entryValue at h
  split at h
  · simp at h
  · exact (Except.error.inj h).symm

theorem field_error {whole key : Value} {fields : Bindings Value} {name : String} {e : Error}
    (h : field whole fields key name = .error e) : e = .missingKey key whole := by
  unfold field at h
  split at h
  · simp at h
  · exact (Except.error.inj h).symm

theorem access_error {v key : Value} {e : Error} (h : access v key = .error e) :
    (Stop.error e).isTooDeep = false := by
  unfold access at h
  split at h
  · rw [item_error h]; rfl
  · rw [item_error h]; rfl
  · next entries i =>
    cases hi : item (.map entries) entries i with
    | ok entry => simp [hi, Except.map] at h
    | error e' =>
      rw [hi] at h
      cases h
      rw [item_error hi]; rfl
  · rw [entryValue_error h]; rfl
  · rw [entryValue_error h]; rfl
  · rw [field_error h]; rfl
  · rw [field_error h]; rfl
  · cases h; rfl

theorem drill_error {v : Value} {keys : List Value} {e : Error} (h : drill v keys = .error e) :
    (Stop.error e).isTooDeep = false := by
  induction keys generalizing v with
  | nil => simp [drill] at h
  | cons key keys ih =>
    unfold drill at h
    split at h
    · exact ih h
    · next he =>
      cases h
      exact access_error he

theorem addTo_error {total : Int64} {v : Value} {e : Error} (h : addTo total v = .error e) :
    (Stop.error e).isTooDeep = false := by
  unfold addTo at h
  split at h
  · split at h
    · simp at h
    · cases h
      rfl
  · cases h
    rfl

theorem adapt_error {f : HostFunction} {position : Nat} {args : List Value} {e : Error}
    (h : adapt f position args = .error e) : (Stop.error e).isTooDeep = false := by
  induction args generalizing position with
  | nil => simp [adapt] at h
  | cons v vs ih =>
    have later {w : Value} (hl : (adapt f (position + 1) vs).map (w :: ·) = .error e) :
        (Stop.error e).isTooDeep = false := by
      cases ha : adapt f (position + 1) vs with
      | ok ws => simp [ha, Except.map] at hl
      | error e' =>
        rw [ha] at hl
        cases hl
        exact ih ha
    unfold adapt at h
    split at h
    · exact later h
    · split at h
      · exact later h
      · split at h
        · exact later h
        · cases h
          rfl

theorem settle_error {f : HostFunction} {reply : Reply} {stop : Stop}
    (h : settle f reply = .error stop) : stop.isTooDeep = false := by
  unfold settle at h
  split at h
  · split at h
    · simp at h
    · cases h; rfl
  all_goals cases h; rfl

theorem prepare_error {f : HostFunction} {args : List Value} {e : Error}
    (h : prepare f args = .error e) : (Stop.error e).isTooDeep = false := by
  unfold prepare at h
  split at h
  · exact adapt_error h
  · cases h
    rfl

theorem unhindered_call (host : Host σ) (f : HostFunction) (args : List Value) :
    Unhindered (onWorld (call host f args) : Eval σ (List Value)) := by
  intro m m' stop h
  unfold onWorld call at h
  cases hp : prepare f args with
  | error e =>
    simp only [hp] at h
    cases h
    exact prepare_error hp
  | ok ws =>
    cases hs : settle f (host f.reference ws m.world).1 with
    | ok outputs => simp [hp, hs] at h
    | error stop' =>
      simp only [hp, hs] at h
      cases h
      exact settle_error hs

theorem unhindered_callValue (host : Host σ) (args : List Value) (callee : Value) :
    Unhindered (callValue host args callee) := by
  unfold callValue
  split
  · exact unhindered_map _ (unhindered_call host _ args)
  · exact unhindered_fail rfl

mutual

theorem unhindered_evalAt (host : Host σ) (v : Value) (depth : Nat) :
    Unhindered (evalAt host none v depth) := by
  match v with
  | .apply items => simpa only [evalAt, within] using unhindered_evalApply host items (depth + 1)
  | .list items =>
    simpa only [evalAt, within] using unhindered_map _ (unhindered_evalItems host items (depth + 1))
  | .map entries =>
    simpa only [evalAt, within] using
      unhindered_map _ (unhindered_evalEntries host entries (depth + 1))
  | .drill chain => simpa only [evalAt, within] using unhindered_evalChain host chain (depth + 1)
  | .symbol name =>
    intro m m' stop h
    simp [evalAt, within, lookup] at h
  | .nil => simpa only [evalAt, within] using unhindered_pure _
  | .int n => simpa only [evalAt, within] using unhindered_pure _
  | .float x => simpa only [evalAt, within] using unhindered_pure _
  | .str s => simpa only [evalAt, within] using unhindered_pure _
  | .quote body => simpa only [evalAt, within] using unhindered_pure _
  | .unquote body => simpa only [evalAt, within] using unhindered_pure _
  | .function f => simpa only [evalAt, within] using unhindered_pure _
  | .table r name fields => simpa only [evalAt, within] using unhindered_pure _

theorem unhindered_evalApply (host : Host σ) (items : List Value) (depth : Nat) :
    Unhindered (evalApply host none items depth) := by
  match items with
  | [] => simpa only [evalApply] using unhindered_pure _
  | callee :: args =>
    cases hf : Form.of? callee with
    | none =>
      rw [evalApply_call hf]
      refine unhindered_bind (unhindered_evalAt host callee depth) fun f => ?_
      refine unhindered_bind (unhindered_evalItems host args depth) fun ws => ?_
      exact unhindered_callValue host ws f
    | some form =>
      cases form with
      | sequence =>
        rw [evalApply_sequence hf]
        exact unhindered_evalSequence host args .nil depth
      | sum =>
        rw [evalApply_sum hf]
        exact unhindered_evalSum host args 0 depth
      | assign =>
        cases he : assignFault args with
        | some e =>
          rw [evalApply_assignFault hf he]
          exact unhindered_fail (assignFault_error he)
        | none =>
          obtain ⟨name, v, rfl⟩ := assignFault_eq_none he
          rw [evalApply_assign hf]
          refine unhindered_bind (unhindered_evalAt host v depth) fun w => ?_
          exact unhindered_bind (unhindered_define name w) fun _ => unhindered_pure _
      | access =>
        match args with
        | [] =>
          rw [evalApply_access_nil hf]
          exact unhindered_fail rfl
        | base :: keys =>
          rw [evalApply_access hf]
          exact unhindered_evalChain host (base :: keys) depth

theorem unhindered_evalChain (host : Host σ) (chain : List Value) (depth : Nat) :
    Unhindered (evalChain host none chain depth) := by
  match chain with
  | [] => simpa only [evalChain] using unhindered_fail rfl
  | base :: keys =>
    simp only [evalChain]
    refine unhindered_bind (unhindered_evalAt host base depth) fun w => ?_
    exact unhindered_lift fun e he => drill_error he

theorem unhindered_evalSequence (host : Host σ) (vs : List Value) (last : Value) (depth : Nat) :
    Unhindered (evalSequence host none vs last depth) := by
  match vs with
  | [] => simpa only [evalSequence] using unhindered_pure _
  | v :: vs =>
    simp only [evalSequence]
    exact unhindered_bind (unhindered_evalAt host v depth) fun w =>
      unhindered_evalSequence host vs w depth

theorem unhindered_evalSum (host : Host σ) (vs : List Value) (total : Int64) (depth : Nat) :
    Unhindered (evalSum host none vs total depth) := by
  match vs with
  | [] => simpa only [evalSum] using unhindered_pure _
  | v :: vs =>
    simp only [evalSum]
    refine unhindered_bind (unhindered_evalAt host v depth) fun w => ?_
    refine unhindered_bind (unhindered_lift fun e he => addTo_error he) fun sum => ?_
    exact unhindered_evalSum host vs sum depth

theorem unhindered_evalItems (host : Host σ) (vs : List Value) (depth : Nat) :
    Unhindered (evalItems host none vs depth) := by
  match vs with
  | [] => simpa only [evalItems] using unhindered_pure _
  | v :: vs =>
    simp only [evalItems]
    refine unhindered_bind (unhindered_evalAt host v depth) fun w => ?_
    exact unhindered_bind (unhindered_evalItems host vs depth) fun ws => unhindered_pure _

theorem unhindered_evalEntries (host : Host σ) (es : List (Value × Value)) (depth : Nat) :
    Unhindered (evalEntries host none es depth) := by
  match es with
  | [] => simpa only [evalEntries] using unhindered_pure _
  | (k, v) :: es =>
    simp only [evalEntries]
    refine unhindered_bind (unhindered_evalAt host k depth) fun k' => ?_
    refine unhindered_bind (unhindered_evalAt host v depth) fun v' => ?_
    exact unhindered_bind (unhindered_evalEntries host es depth) fun es' => unhindered_pure _

end

end Evaluation

/-- What is left between the reach of an expression and twice its nesting. A drill uses up
one level, since it costs evaluation a level and reading none. -/
def Value.spare : Value → Nat
  | .drill _ => 1
  | _ => 2

theorem Value.spare_pos (v : Value) : 0 < v.spare := by
  unfold spare
  split <;> decide

namespace Grammar

def Bounded (_ : List Token) (v : Value) : Prop := v.reach + v.spare ≤ 2 * v.nesting

theorem Form.spare {ts : List Token} {v : Value} (h : Form ts v) : v.spare = 2 := by
  cases h with
  | leaf hl => cases hl <;> rfl
  | _ => rfl

theorem Sequence.reach_le {ts : List Token} {vs : List Value} (h : Sequence Bounded ts vs) :
    Value.reachItems vs ≤ 2 * Value.nestingItems vs := by
  induction h with
  | nil => simp [Value.reachItems]
  | @cons _ _ v _ hv _ ih =>
    have hpos := v.spare_pos
    unfold Bounded at hv
    simp only [Value.reachItems, Value.nestingItems]
    omega

theorem Sequence.reachEntries_le {ts : List Token} {es : List (Value × Value)}
    (h : Sequence (Entry Bounded) ts es) :
    Value.reachEntries es ≤ 2 * Value.nestingEntries es := by
  induction h with
  | nil => simp [Value.reachEntries]
  | cons he _ ih =>
    obtain @⟨_, _, k, v, hk, hv⟩ := he
    have hposk := k.spare_pos
    have hposv := v.spare_pos
    unfold Bounded at hk hv
    simp only [Value.reachEntries, Value.nestingEntries]
    omega

theorem bounded_closed : Closed Bounded where
  leaf hl := by cases hl <;> simp [Bounded, Value.reach, Value.nesting, Value.spare]
  apply {_ _ _ vs} _ hs _ := by
    have := hs.reach_le
    have := Value.reachCall_le vs
    simp only [Bounded, Value.reach, Value.nesting, Value.spare]
    omega
  list _ hs _ := by
    have := hs.reach_le
    simp only [Bounded, Value.reach, Value.nesting, Value.spare]
    omega
  map _ hs _ := by
    have := hs.reachEntries_le
    simp only [Bounded, Value.reach, Value.nesting, Value.spare]
    omega
  quote _ _ := by
    simp only [Bounded, Value.reach, Value.nesting, Value.spare]
    omega
  unquote _ _ := by
    simp only [Bounded, Value.reach, Value.nesting, Value.spare]
    omega
  drill hform _ hb _ _ := by
    have hspare := hform.spare
    unfold Bounded at hb
    simp only [Bounded, Value.reach, Value.reachBase, Value.nesting, Value.nestingBase, Value.spare]
    omega

end Grammar

open Evaluation

/-- The levels of reading and the statement around them leave a program just within the
limit on evaluation. -/
theorem reach_of_readSource {source : String} {program : Value}
    (h : readSource source = .ok program) : program.reach ≤ depthLimit := by
  obtain ⟨ts, vs, _, rfl, hS, hn⟩ := readSource_ok_iff.1 h
  have hreach := (hS.of_closed Grammar.bounded_closed).reach_le
  have hnest := Value.nestingItems_le.2 hn
  have hf : Form.of? (.symbol "do") = some .sequence := by decide
  have hdo : (Value.apply (.symbol "do" :: vs)).reach = Value.reachItems vs := by
    rw [Value.reach]
    exact Value.reachCall_items hf (.inl rfl)
  simp only [Reader.nestingLimit] at hnest
  rw [hdo, depthLimit]
  omega

/-- A program that was read from a source text runs as if there were no limit on depth,
whatever names are bound to and whatever the host does. -/
theorem evaluate_source_unlimited {σ : Type} (host : Host σ) (source : String) (program : Value)
    (h : readSource source = .ok program) (m : Machine σ) :
    evaluate host program m = evalAt host none program 0 m ∧
      ∀ most m', evaluate host program m ≠ .error (.error (.tooDeep most)) m' := by
  have heq : evaluate host program = evalAt host none program 0 :=
    evalAt_within host program 0 (reach_of_readSource h)
  refine ⟨by rw [heq], fun most m' he => ?_⟩
  rw [heq] at he
  exact Bool.noConfusion (unhindered_evalAt host program 0 _ _ _ he)

theorem evaluate_nested_chain_unlimited : ∃ program, readSource "[[a.b].c].0" = .ok program ∧
    ∀ m : Machine Unit,
      evaluate (fun _ _ world => (.failed "closed", world)) program m =
        evalAt (fun _ _ world => (.failed "closed", world)) none program 0 m ∧
      ∀ most m', evaluate (fun _ _ world => (.failed "closed", world)) program m ≠
        .error (.error (.tooDeep most)) m' := by
  have hok : (readSource "[[a.b].c].0").isOk = true := by decide +kernel
  cases h : readSource "[[a.b].c].0" with
  | error e => simp [h, Except.isOk, Except.toBool] at hok
  | ok program => exact ⟨program, rfl, evaluate_source_unlimited _ _ program h⟩

end EmbeddedLisp
