import EmbeddedLisp.Number.Decimal

/-!
# The shortest decimal of a float

A finite float is written with the fewest significant digits that read back as
the same float. For one digit, two digits and so on up to seventeen, the two
neighbours of the float on that decimal grid are tried. If both read back the
nearer one is taken, and the upper one at equal distance. The digits stand
positionally around a point, with at least one digit on each side.
-/

set_option autoImplicit false

namespace EmbeddedLisp
open EmbeddedLisp.Digits (tenTo)

/-- A number of decimal units with the given count of places behind the point. -/
structure Fixed where
  units : Nat
  places : Nat
  deriving DecidableEq, Repr

namespace Fixed

def trim (units : Nat) : Nat → Fixed
  | 0 => ⟨units, 0⟩
  | 1 => ⟨units, 1⟩
  | places + 2 =>
    if units % 10 = 0 then trim (units / 10) (places + 1) else ⟨units, places + 2⟩

def ofDecimal (d : Decimal) : Fixed :=
  if d.exponent < 0 then trim d.coefficient (-d.exponent).toNat
  else ⟨d.coefficient * tenTo (d.exponent.toNat + 1), 1⟩

def toDecimal (f : Fixed) : Decimal := ⟨f.units, -f.places⟩

def text (f : Fixed) : List Char :=
  Digits.text (f.units / tenTo f.places) ++
    '.' :: Digits.padded f.places (f.units % tenTo f.places)

end Fixed

namespace Binary64

/-- The power of ten that the first significant digit of a finite magnitude stands for.
Shifting by 330 places makes every magnitude but zero at least one. -/
def leadingPower (code : Nat) : Int :=
  (Digits.text (units code * tenTo 330 / unitsPerOne)).length - 331

/-- The decimal of so many units of the given power of ten, if it reads back. -/
def attempt (code : Nat) (coefficient : Nat) (power : Int) : Option Fixed :=
  let f := Fixed.ofDecimal ⟨coefficient, power⟩
  if f.toDecimal.nearest = code then some f else none

/-- The better neighbour on a decimal grid, if one reads back. -/
def onGrid (code : Nat) (power : Int) : Option Fixed :=
  let num := units code * tenTo (-power).toNat
  let den := unitsPerOne * tenTo power.toNat
  let lower := attempt code (num / den) power
  let upper := attempt code (num / den + 1) power
  if 2 * (num % den) < den then lower <|> upper else upper <|> lower

def exact (code : Nat) : Fixed := Fixed.trim (units code * Nat.pow 5 1074) 1074

def shortest (code : Nat) : Fixed :=
  let power := leadingPower code
  ((List.range 17).findSome? fun (n : Nat) => onGrid code (power - n)).getD (exact code)

def text (x : Binary64) : List Char :=
  if x.isNaN then "NaN".toList
  else
    let magnitude := if x.isFinite then (shortest x.code).text else "inf".toList
    if x.negative then '-' :: magnitude else magnitude

end Binary64

end EmbeddedLisp
