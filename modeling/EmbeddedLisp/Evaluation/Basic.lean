import EmbeddedLisp.Environment
import EmbeddedLisp.Evaluation.Access
import EmbeddedLisp.Evaluation.Call

/-!
# Evaluation

A value is evaluated in an environment, next to the state of the host. Both
keep what was done before an error. Operands are evaluated from left to right,
a name without a binding is nil, and what is quoted stays as it is.

Each evaluation knows how many others it is nested in. A limit on that number
may be set.
-/

set_option autoImplicit false

namespace EmbeddedLisp

structure Machine (σ : Type) where
  environment : Environment
  world : σ

namespace Evaluation
variable {σ α : Type}

abbrev Eval (σ α : Type) := EStateM Stop (Machine σ) α

def fail (e : Error) : Eval σ α := throw (.error e)

def lift : Except Error α → Eval σ α
  | .ok v => pure v
  | .error e => fail e

def lookup (name : String) : Eval σ Value :=
  fun m => .ok ((m.environment.get? name).getD .nil) m

def define (name : String) (value : Value) : Eval σ Unit :=
  fun m => .ok () { m with environment := m.environment.define name value }

def onWorld (act : EStateM Stop σ α) : Eval σ α :=
  fun m =>
    match act m.world with
    | .ok v world => .ok v { m with world }
    | .error stop world => .error stop { m with world }

/-- Several results are carried by an `apply`, a single one stands for itself. -/
def bundle : List Value → Value
  | [v] => v
  | outputs => .apply outputs

def callValue (host : Host σ) (args : List Value) : Value → Eval σ Value
  | .function f => bundle <$> onWorld (call host f args)
  | callee => fail (.notCallable callee)

def addTo (total : Int64) : Value → Except Error Int64
  | .int n =>
    match Integer.add? total n with
    | some sum => .ok sum
    | none => .error .overflow
  | operand => .error (.notAnInteger operand)

/-- Goes on unless the nesting is beyond the limit. -/
def within (limit : Option Nat) (depth : Nat) (act : Eval σ α) : Eval σ α :=
  match limit with
  | none => act
  | some most => if most < depth then fail (.tooDeep most) else act

section
variable (host : Host σ) (limit : Option Nat)

mutual

def evalAt : Value → Nat → Eval σ Value
  | .apply items, depth => within limit depth (evalApply items (depth + 1))
  | .symbol name, depth => within limit depth (lookup name)
  | .list items, depth => within limit depth (Value.list <$> evalItems items (depth + 1))
  | .map entries, depth => within limit depth (Value.map <$> evalEntries entries (depth + 1))
  | .drill chain, depth => within limit depth (evalChain chain (depth + 1))
  | v, depth => within limit depth (pure v)

def evalApply : List Value → Nat → Eval σ Value
  | [], _ => pure .nil
  | callee :: args, depth =>
    match Form.of? callee with
    | some .sequence => evalSequence args .nil depth
    | some .sum => evalSum args 0 depth
    | some .assign =>
      match args with
      | [.symbol name, v] => do
        let v ← evalAt v depth
        define name v
        return .nil
      | [target, _] => fail (.invalidTarget target)
      | args => fail (.malformedForm .assign args.length)
    | some .access =>
      match args with
      | base :: keys => do lift (drill (← evalAt base depth) keys)
      | [] => fail (.malformedForm .access 0)
    | none => do
      let f ← evalAt callee depth
      let args ← evalItems args depth
      callValue host args f

def evalChain : List Value → Nat → Eval σ Value
  | [], _ => fail (.internal "drill chain without a base expression")
  | base :: keys, depth => do lift (drill (← evalAt base depth) keys)

/-- The value of the last statement, or the given one if there is none. -/
def evalSequence : List Value → Value → Nat → Eval σ Value
  | [], last, _ => pure last
  | v :: vs, _, depth => do evalSequence vs (← evalAt v depth) depth

def evalSum : List Value → Int64 → Nat → Eval σ Value
  | [], total, _ => pure (.int total)
  | v :: vs, total, depth => do
    let total ← lift (addTo total (← evalAt v depth))
    evalSum vs total depth

def evalItems : List Value → Nat → Eval σ (List Value)
  | [], _ => pure []
  | v :: vs, depth => do
    let v ← evalAt v depth
    let vs ← evalItems vs depth
    return v :: vs

def evalEntries : List (Value × Value) → Nat → Eval σ (List (Value × Value))
  | [], _ => pure []
  | (k, v) :: entries, depth => do
    let k ← evalAt k depth
    let v ← evalAt v depth
    let entries ← evalEntries entries depth
    return (k, v) :: entries

end

end

def evaluate (host : Host σ) (v : Value) : Eval σ Value :=
  evalAt host (some depthLimit) v 0

end Evaluation

end EmbeddedLisp
