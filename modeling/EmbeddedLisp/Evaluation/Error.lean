import EmbeddedLisp.Value.Text

/-!
# What can go wrong in evaluation

Errors keep the values they are about. Their wording is fixed here, once for
each cause.
-/

set_option autoImplicit false

namespace EmbeddedLisp.Evaluation

def depthLimit : Nat := 256

/-- The forms that decide themselves what they evaluate. -/
inductive Form where
  | sequence
  | sum
  | assign
  | access
  deriving DecidableEq, Repr

def Form.name : Form → String
  | .sequence => "do"
  | .sum => "+"
  | .assign => "set!"
  | .access => "get"

def Form.arity : Form → String
  | .sequence | .sum => "at least 0"
  | .assign => "2"
  | .access => "at least 1"

def Form.all : List Form := [.sequence, .sum, .assign, .access]

/-- The form that a callee names, whatever the name may be bound to. -/
def Form.of? : Value → Option Form
  | .symbol name => Form.all.find? fun form => form.name = name
  | _ => none

inductive Error where
  | notAnInteger (operand : Value)
  | overflow
  | invalidTarget (target : Value)
  | malformedForm (form : Form) (got : Nat)
  | invalidAccessor (key value : Value)
  | indexOutOfRange (index : Int64) (length : Nat) (value : Value)
  | missingKey (key value : Value)
  | notCallable (callee : Value)
  | arity (f : HostFunction) (got : Nat)
  | argumentType (f : HostFunction) (position : Nat) (expected : ParamType) (got : Value)
  | returnArity (f : HostFunction) (got : Nat)
  | host (f : HostFunction) (message : String)
  | tooDeep (limit : Nat)
  | internal (detail : String)

namespace Error

def message : Error → String
  | .notAnInteger operand => "`+` expects integer operands, got " ++ operand.render
  | .overflow => "integer overflow in `+`"
  | .invalidTarget target => "`set!` target must be a symbol, got " ++ target.render
  | .malformedForm form got =>
    "`" ++ form.name ++ "` expects " ++ form.arity ++ " operands, got " ++ Digits.string got
  | .invalidAccessor key value => "cannot access " ++ key.render ++ " on " ++ value.render
  | .indexOutOfRange index length value =>
    "index " ++ String.ofList (Integer.text index) ++ " out of range for " ++ value.render ++
      " of length " ++ Digits.string length
  | .missingKey key value => "no entry " ++ key.render ++ " in " ++ value.render
  | .notCallable callee => callee.render ++ " is not callable"
  | .arity f got =>
    "`" ++ f.name ++ "` expects " ++ f.signature.arity ++ " arguments, got " ++ Digits.string got
  | .argumentType f position expected got =>
    "argument " ++ Digits.string position ++ " of `" ++ f.name ++ "` must be " ++ expected.name ++
      ", got " ++ got.typeName
  | .returnArity f got =>
    "`" ++ f.name ++ "` returned " ++ Digits.string got ++ " values, declared " ++
      Digits.string f.signature.returns
  | .host f message => "`" ++ f.name ++ "` failed: " ++ message
  | .tooDeep limit => "evaluation nested deeper than " ++ Digits.string limit ++ " levels"
  | .internal detail => "internal error: " ++ detail

def help : Error → Option String
  | .internal _ =>
    some "this is a bug in a host function or the evaluator; the interpreter is still usable"
  | _ => none

end Error

end EmbeddedLisp.Evaluation
