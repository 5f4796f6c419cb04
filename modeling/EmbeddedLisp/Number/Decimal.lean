import EmbeddedLisp.Number.Digits
import EmbeddedLisp.Number.Binary64

/-!
# Decimal literals

A decimal is a coefficient times a power of ten. A float literal is a decimal
with an optional point and an optional exponent, or the name of an infinity or
of no number, in front of which a sign may stand. It denotes the nearest float.
-/

set_option autoImplicit false

namespace EmbeddedLisp

structure Decimal where
  coefficient : Nat
  exponent : Int
  deriving DecidableEq, Repr

namespace Decimal
open EmbeddedLisp.Digits

/-- The code of the float nearest to a decimal. Decimals whose exponent puts them
far outside the range of the finite floats are not computed in full. -/
def nearest (d : Decimal) : Nat :=
  if d.coefficient = 0 then 0
  else if 0 ≤ d.exponent then
    if 400 < d.exponent then Binary64.infinite
    else Binary64.nearest (d.coefficient * tenTo d.exponent.toNat) 1
  else if d.exponent < -(d.coefficient.log2 + 400 : Nat) then 0
  else Binary64.nearest d.coefficient (tenTo (-d.exponent).toNat)

def natural? (text : List Char) : Option Nat :=
  if text ≠ [] ∧ text.all isDigit then some (value text) else none

def exponent? : List Char → Option Int
  | [] => some 0
  | c :: text =>
    if c = 'e' ∨ c = 'E' then
      match text with
      | '+' :: digits => (natural? digits).map fun n => n
      | '-' :: digits => (natural? digits).map fun n => -n
      | digits => (natural? digits).map fun n => n
    else none

def fraction : List Char → List Char × List Char
  | '.' :: text => split text
  | text => ([], text)

def parse? (text : List Char) : Option Decimal :=
  let (whole, rest) := split text
  let (part, rest) := fraction rest
  if whole = [] ∧ part = [] then none
  else (exponent? rest).map fun e => ⟨value (whole ++ part), e - part.length⟩

end Decimal

namespace Binary64

inductive Fault where
  | empty
  | invalid
  deriving DecidableEq, Repr

def Fault.reason : Fault → String
  | .empty => "cannot parse float from empty string"
  | .invalid => "invalid float literal"

/-- A name for a value outside the finite floats, in any letter case. -/
def named? (negative : Bool) (text : List Char) : Option Binary64 :=
  let name := text.map Char.toLower
  if name = "inf".toList ∨ name = "infinity".toList then some (ofCode negative infinite)
  else if name = "nan".toList then some nan
  else none

def unsigned (negative : Bool) (text : List Char) : Except Fault Binary64 :=
  match Decimal.parse? text with
  | some d => .ok (ofCode negative d.nearest)
  | none =>
    match named? negative text with
    | some x => .ok x
    | none => .error .invalid

def parse : List Char → Except Fault Binary64
  | [] => .error .empty
  | '+' :: text => unsigned false text
  | '-' :: text => unsigned true text
  | text => unsigned false text

end Binary64

end EmbeddedLisp
