/-
The value of a number in a JSON text.  Digits are gathered into a 64-bit
significand and a decimal exponent; digits that no longer fit only move the
exponent, or are left out behind the point.  The significand is then scaled by
one power of ten, so a number with many digits may be off by a last place.
-/
import Parterre.Decimal.Numeral
import Parterre.Json

namespace Parterre.Json

/-- A number as it is written. -/
structure NumberText where
  negative : Bool
  whole : List Char
  fraction : Option (List Char)
  exponent : Option Int

/-- The largest significand. -/
def maxSignificand : Nat := 1 <<< 64 - 1

/-- Append digits to a significand as long as it fits; returns the digits that
are left. -/
def gather (significand : Nat) : List Char → Nat × List Char
  | [] => (significand, [])
  | c :: rest =>
      let next := significand * 10 + Decimal.digitValue c
      if next ≤ maxSignificand then gather next rest
      else (significand, c :: rest)

/-- The binary64 number nearest to a power of ten. -/
def powerOfTen (exponent : Nat) : Float :=
  Float.ofScientific 1 false exponent

/-- Divide by a power of ten in steps of at most 308 places. -/
def scaleDown : Nat → Float → Nat → Float
  | 0, value, _ => value
  | steps + 1, value, places =>
      if places ≤ 308 then value / powerOfTen places
      else if value == 0 then value
      else scaleDown steps (value / powerOfTen 308) (places - 308)

/-- The significand scaled by a power of ten, unless that is too large. -/
def scale? (significand : Nat) (exponent : Int) : Option Float :=
  let value := Float.ofNat significand
  if exponent < 0 then
    some (scaleDown (exponent.natAbs / 308 + 1) value exponent.natAbs)
  else if exponent ≤ 308 then
    let scaled := value * powerOfTen exponent.toNat
    if scaled.isFinite then some scaled else none
  else if significand = 0 then some value
  else none

/-- A number without point and exponent is an integer, if it fits into 64 bits
and is not a negative zero. -/
def integer? (negative : Bool) (value : Nat) : Option Int :=
  if !negative then some value
  else if 0 < value ∧ value ≤ 1 <<< 63 then some (-value)
  else none

/-- The value of a number, unless it is too large. -/
def NumberText.value? (number : NumberText) : Option Json :=
  let (significand, unused) := gather 0 number.whole
  let plain :=
    unused.isEmpty && number.fraction.isNone && number.exponent.isNone
  let integer := if plain then integer? number.negative significand else none
  match integer with
  | some value => some (.integer value)
  | none => do
      let fraction := number.fraction.getD []
      let (significand, left) := gather significand fraction
      let places : Int := unused.length - (fraction.length - left.length : Nat)
      let value ← scale? significand (places + number.exponent.getD 0)
      return .float (if number.negative then -value else value)

end Parterre.Json
