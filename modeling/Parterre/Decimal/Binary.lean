/-
The exact value of a binary64 number.  A finite number is a sign and a
natural significand times a power of two, which is the form in which digits
are computed without rounding.
-/

namespace Parterre.Decimal

/-- A binary64 number taken apart. -/
inductive Binary where
  | undefined
  | infinite (negative : Bool)
  /-- The value `significand * 2 ^ exponent`, negated if `negative`. -/
  | finite (negative : Bool) (significand : Nat) (exponent : Int)
  deriving DecidableEq

/-- The least significand that uses all 53 bits. -/
def Binary.hiddenBit : Nat := 1 <<< 52

/-- The parts of a binary64 number.  The exponent is the least one for
subnormal numbers and leaves 53 significant bits for all others. -/
def Binary.ofFloat (value : Float) : Binary :=
  let bits := value.toBits.toNat
  let negative := bits >>> 63 == 1
  let exponent : Nat := bits >>> 52 % 1 <<< 11
  let fraction := bits % hiddenBit
  if exponent = 2047 then
    if fraction = 0 then .infinite negative else .undefined
  else if exponent = 0 then
    .finite negative fraction (-1074)
  else
    .finite negative (hiddenBit + fraction) ((exponent : Int) - 1075)

/-- A positive fraction of natural numbers. -/
structure Quotient where
  numerator : Nat
  denominator : Nat

/-- The fraction `significand * 2 ^ binary * 10 ^ decimal`. -/
def Quotient.scaled (significand : Nat) (binary decimal : Int) : Quotient where
  numerator := significand <<< binary.toNat * Nat.pow 10 decimal.toNat
  denominator := 1 <<< (-binary).toNat * Nat.pow 10 (-decimal).toNat

end Parterre.Decimal
