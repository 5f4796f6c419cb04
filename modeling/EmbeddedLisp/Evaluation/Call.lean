import EmbeddedLisp.Evaluation.Error

/-!
# Calling host functions

The host answers calls and keeps a state of its own. A call first checks the
number of arguments, then their types from left to right, and puts the zero
value of a parameter type in the place of nil. Only then is the host asked.
-/

set_option autoImplicit false

namespace EmbeddedLisp

namespace ParamType

def zero : ParamType → Value
  | .any => .nil
  | .int => .int 0
  | .float => .float Binary64.zero
  | .str => .str ""

def accepts : ParamType → Value → Bool
  | .any, _ => true
  | .int, .int _ => true
  | .float, .float _ => true
  | .str, .str _ => true
  | _, _ => false

end ParamType

/-- What a host function may do. One that crashes may say why, and one that exits
ends the whole program. -/
inductive Reply where
  | values (outputs : List Value)
  | failed (message : String)
  | crashed (detail : Option String)
  | exited (code : Int64)

abbrev Host (σ : Type) := Reference Builtin → List Value → σ → Reply × σ

namespace Evaluation
variable {σ : Type}

inductive Stop where
  | error (e : Error)
  | crashed (detail : Option String)
  | exited (code : Int64)

/-- The arguments as the function receives them, from the given position on. -/
def adapt (f : HostFunction) : Nat → List Value → Except Error (List Value)
  | _, [] => .ok []
  | position, v :: vs =>
    match f.signature.param? position with
    | none => (adapt f (position + 1) vs).map (v :: ·)
    | some type =>
      if v.isNil then (adapt f (position + 1) vs).map (type.zero :: ·)
      else if type.accepts v then (adapt f (position + 1) vs).map (v :: ·)
      else .error (.argumentType f position type v)

def prepare (f : HostFunction) (args : List Value) : Except Error (List Value) :=
  if f.signature.acceptsCount args.length then adapt f 0 args
  else .error (.arity f args.length)

def settle (f : HostFunction) : Reply → Except Stop (List Value)
  | .values outputs =>
    if outputs.length = f.signature.returns then .ok outputs
    else .error (.error (.returnArity f outputs.length))
  | .failed message => .error (.error (.host f message))
  | .crashed detail => .error (.crashed detail)
  | .exited code => .error (.exited code)

def call (host : Host σ) (f : HostFunction) (args : List Value) : EStateM Stop σ (List Value) :=
  fun world =>
    match prepare f args with
    | .error e => .error (.error e) world
    | .ok args =>
      let (reply, world) := host f.reference args world
      match settle f reply with
      | .ok outputs => .ok outputs world
      | .error stop => .error stop world

end Evaluation

end EmbeddedLisp
