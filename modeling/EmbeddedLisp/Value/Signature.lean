import EmbeddedLisp.Number.Digits

/-!
# Signatures of host functions

A signature lists the types of the leading parameters, the type of all further
ones where more may follow, and the number of values returned.
-/

set_option autoImplicit false

namespace EmbeddedLisp

inductive ParamType where
  | any
  | int
  | float
  | str
  deriving DecidableEq, Repr

def ParamType.name : ParamType → String
  | .any => "any"
  | .int => "integer"
  | .float => "float"
  | .str => "string"

structure Signature where
  params : List ParamType
  variadic : Option ParamType
  returns : Nat
  deriving DecidableEq, Repr

namespace Signature

/-- The type wanted at a position, if an argument may stand there. -/
def param? (s : Signature) (position : Nat) : Option ParamType :=
  match s.params[position]? with
  | some type => some type
  | none => s.variadic

def acceptsCount (s : Signature) (count : Nat) : Bool :=
  match s.variadic with
  | some _ => s.params.length ≤ count
  | none => count = s.params.length

def arity (s : Signature) : String :=
  match s.variadic with
  | some _ => "at least " ++ Digits.string s.params.length
  | none => Digits.string s.params.length

end Signature

end EmbeddedLisp
