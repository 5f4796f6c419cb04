import EmbeddedLisp.Number.Digits

/-!
# Integer literals

Integers have sixty-four bits and a sign. A literal is an optional sign and at
least one digit. It is read from the left, and the first character at fault
decides the complaint: one that is no digit, or the digit at which the number
leaves the range.
-/

set_option autoImplicit false

namespace EmbeddedLisp.Integer
open EmbeddedLisp.Digits

inductive Fault where
  | empty
  | invalidDigit
  | tooLarge
  | tooSmall
  deriving DecidableEq, Repr

def Fault.reason : Fault → String
  | .empty => "cannot parse integer from empty string"
  | .invalidDigit => "invalid digit found in string"
  | .tooLarge => "number too large to fit in target type"
  | .tooSmall => "number too small to fit in target type"

/-- Reads digits behind a number already read, as long as it stays within the bound. -/
def magnitude (bound : Nat) (beyond : Fault) : Nat → List Char → Except Fault Nat
  | n, [] => .ok n
  | n, c :: rest =>
    if isDigit c then
      if 10 * n + digitValue c ≤ bound then magnitude bound beyond (10 * n + digitValue c) rest
      else .error beyond
    else .error .invalidDigit

/-- The greatest integer. The least one is further from zero by one. -/
def greatest : Nat := 0x7FFFFFFFFFFFFFFF

def parse : List Char → Except Fault Int64
  | [] => .error .empty
  | ['+'] => .error .invalidDigit
  | ['-'] => .error .invalidDigit
  | '+' :: text => (magnitude greatest .tooLarge 0 text).map fun n => Int64.ofInt n
  | '-' :: text => (magnitude (greatest + 1) .tooSmall 0 text).map fun n => Int64.ofInt (-n)
  | text => (magnitude greatest .tooLarge 0 text).map fun n => Int64.ofInt n

def text (n : Int64) : List Char :=
  if n.toInt < 0 then '-' :: Digits.text n.toInt.natAbs else Digits.text n.toInt.natAbs

def InRange (n : Int) : Prop := -(greatest + 1) ≤ n ∧ n ≤ greatest

instance (n : Int) : Decidable (InRange n) := inferInstanceAs (Decidable (_ ∧ _))

def add? (m n : Int64) : Option Int64 :=
  if InRange (m.toInt + n.toInt) then some (Int64.ofInt (m.toInt + n.toInt)) else none

/-- The integer of the given width in bits that agrees with `n` modulo two to that width. -/
def narrow (width : Nat) (n : Int64) : Int64 :=
  Int64.ofInt (n.toInt.bmod (Nat.pow 2 width))

end EmbeddedLisp.Integer
