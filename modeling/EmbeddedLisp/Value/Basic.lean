import EmbeddedLisp.Bindings
import EmbeddedLisp.Number.Binary64
import EmbeddedLisp.Value.Signature

/-!
# Values

Programs and the results of running them are values of one type: a quoted form
is a value that evaluation does not look into. Functions and tables belong to
the host. A value holds only a reference to them, and two references are the
same host object exactly when they are equal.
-/

set_option autoImplicit false

namespace EmbeddedLisp

inductive IntegerType where
  | int
  | int64
  | int32
  | int16
  | int8
  deriving DecidableEq, Repr

inductive Builtin where
  | print
  | printf
  | println
  | exit
  | integer (type : IntegerType)
  | float64
  | quote
  | symbol
  | list
  deriving DecidableEq, Repr

inductive Library where
  | fmt
  | os
  deriving DecidableEq, Repr

/-- A built-in object, or one that the embedding program knows by a number. -/
inductive Reference (β : Type) where
  | builtin (object : β)
  | foreign (number : Nat)
  deriving DecidableEq, Repr

structure HostFunction where
  reference : Reference Builtin
  name : String
  signature : Signature
  deriving DecidableEq, Repr

/-- An `apply` is a call before evaluation and carries several results after it.
The entries of a map keep their order and may repeat a key. The first link of a
drill is its base, the others are accessors. -/
inductive Value where
  | nil
  | int (n : Int64)
  | float (x : Binary64)
  | str (text : String)
  | symbol (name : String)
  | apply (items : List Value)
  | list (items : List Value)
  | map (entries : List (Value × Value))
  | drill (chain : List Value)
  | quote (body : Value)
  | unquote (body : Value)
  | function (f : HostFunction)
  | table (reference : Reference Library) (name : String) (fields : List (String × Value))

namespace Value

instance : Inhabited Value := ⟨.nil⟩

def isNil : Value → Bool
  | .nil => true
  | _ => false

def isStr : Value → Bool
  | .str _ => true
  | _ => false

def typeName : Value → String
  | .nil => "nil"
  | .int _ => "integer"
  | .float _ => "float"
  | .str _ => "string"
  | .symbol _ => "symbol"
  | .apply _ => "apply"
  | .list _ => "list"
  | .map _ => "map"
  | .drill _ => "drill"
  | .quote _ => "quote"
  | .unquote _ => "unquote"
  | .function _ => "function"
  | .table .. => "table"

end Value

end EmbeddedLisp
