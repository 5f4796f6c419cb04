/-!
# Decimal digits

A natural number is written by its decimal digits, most significant first, and
read back by weighing them.
-/

set_option autoImplicit false

namespace EmbeddedLisp.Digits

def isDigit (c : Char) : Bool := '0' ≤ c && c ≤ '9'

def digitValue (c : Char) : Nat := c.toNat - '0'.toNat

def value (text : List Char) : Nat :=
  text.foldl (fun n c => 10 * n + digitValue c) 0

def text (n : Nat) : List Char := Nat.toDigits 10 n

def string (n : Nat) : String := String.ofList (text n)

def padded (width n : Nat) : List Char :=
  List.replicate (width - (text n).length) '0' ++ text n

def tenTo (n : Nat) : Nat := Nat.pow 10 n

def split (text : List Char) : List Char × List Char :=
  (text.takeWhile isDigit, text.dropWhile isDigit)

end EmbeddedLisp.Digits
