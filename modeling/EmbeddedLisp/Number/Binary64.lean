/-!
# Binary floating point

A float is a sixty-four bit pattern: a sign and a code. The codes of the finite
magnitudes count upwards with the magnitude, the next one stands for infinity
and those beyond it for values that are no number. Every finite magnitude is a
whole number of the smallest one, which is two to the power of -1074, and the
float nearest to a ratio is found by exact arithmetic in that unit.
-/

set_option autoImplicit false

namespace EmbeddedLisp

structure Binary64 where
  bits : UInt64
  deriving DecidableEq, Repr

def roundHalfEven (num den : Nat) : Nat :=
  let q := num / den
  let r := num % den
  if 2 * r < den ∨ (2 * r = den ∧ q % 2 = 0) then q else q + 1

namespace Binary64

def signBit : Nat := 0x8000000000000000

/-- How many codes share one power of two. -/
def perBinade : Nat := 0x10000000000000

def infinite : Nat := 0x7FF0000000000000

def ofCode (negative : Bool) (code : Nat) : Binary64 :=
  ⟨UInt64.ofNat (if negative then signBit + code else code)⟩

def negative (x : Binary64) : Bool := signBit ≤ x.bits.toNat

def code (x : Binary64) : Nat := x.bits.toNat % signBit

def isNaN (x : Binary64) : Bool := infinite < x.code

def isFinite (x : Binary64) : Bool := x.code < infinite

def nan : Binary64 := ofCode false 0x7FF8000000000000

def zero : Binary64 := ofCode false 0

/-- The two zeros are equal, and a value that is no number equals nothing. -/
def equal (x y : Binary64) : Bool :=
  !x.isNaN && !y.isNaN && (x.bits = y.bits || (x.code = 0 && y.code = 0))

/-- The magnitude of a finite code, counted in the smallest one. -/
def units (code : Nat) : Nat :=
  let step := code / perBinade - 1
  (code - step * perBinade) <<< step

def unitsPerOne : Nat := 1 <<< 1074

/-- The code nearest to a ratio, a half going to the even code. -/
def nearest (num den : Nat) : Nat :=
  let step := (num * unitsPerOne / den).log2 - 52
  min (step * perBinade + roundHalfEven (num * unitsPerOne) (den <<< step)) infinite

def ofInt (n : Int) : Binary64 := ofCode (n < 0) (nearest n.natAbs 1)

end Binary64

end EmbeddedLisp
