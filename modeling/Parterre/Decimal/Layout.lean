/-
How decimal digits are written.  Coordinates are written positionally at any
size, so that no exponent is ever shown; percentages and outlines have one
fixed decimal; numbers quoted from a configuration text keep a point or an
exponent, which tells them from integers.
-/
import Parterre.Decimal.Shortest

namespace Parterre.Decimal

/-- A sign in front of a text for a negative number. -/
def signed (negative : Bool) (text : String) : String :=
  if negative then "-" ++ text else text

def zeros (count : Nat) : String :=
  String.ofList (List.replicate count '0')

/-- Digits and a decimal exponent without any exponent mark.  The number is
cut at the point, and the whole part of a small number is a zero. -/
def positional (number : Digits) : String :=
  let text := toString number.digits
  if 0 ≤ number.exponent then
    text ++ zeros number.exponent.toNat
  else
    let places := number.exponent.natAbs
    let padded := zeros (places + 1 - text.length) ++ text
    let whole := padded.length - places
    String.ofList (padded.toList.take whole) ++ "."
      ++ String.ofList (padded.toList.drop whole)

/-- One digit before the point and the power of ten behind an exponent mark. -/
def scientific (number : Digits) : String :=
  let text := toString number.digits
  let power := number.exponent + (text.length - 1 : Nat)
  let mantissa :=
    match text.toList with
    | first :: next :: rest => String.ofList (first :: '.' :: next :: rest)
    | _ => text
  mantissa ++ (if 0 ≤ power then "e+" else "e-") ++ toString power.natAbs

/-- The text of a coordinate: the fewest digits that read back to the same
value, in positional form. -/
def plain (value : Float) : String :=
  match Binary.ofFloat value with
  | .undefined => "NaN"
  | .infinite negative => signed negative "inf"
  | .finite negative 0 _ => signed negative "0"
  | .finite negative significand exponent =>
      signed negative (positional (shortest .upward significand exponent))

/-- The text of a number quoted from a configuration: positional between
`10 ^ -5` and `10 ^ 16`, and never the text of an integer. -/
def quoted (value : Float) : String :=
  match Binary.ofFloat value with
  | .undefined => "NaN"
  | .infinite negative => signed negative "inf"
  | .finite negative 0 _ => signed negative "0.0"
  | .finite negative significand exponent =>
      let number := shortest .toEven significand exponent
      let power := number.exponent + ((toString number.digits).length - 1 : Nat)
      signed negative <|
        if power < -5 ∨ 15 < power then scientific number
        else if 0 ≤ number.exponent then positional number ++ ".0"
        else positional number

/-- The nearest natural number to a fraction; halves go to the even one. -/
def Quotient.round (quotient : Quotient) : Nat :=
  let below := quotient.numerator / quotient.denominator
  let twiceRest := 2 * (quotient.numerator % quotient.denominator)
  if twiceRest < quotient.denominator then below
  else if quotient.denominator < twiceRest then below + 1
  else if below % 2 = 0 then below
  else below + 1

/-- The text with one decimal, rounded from the exact value. -/
def tenths (value : Float) : String :=
  match Binary.ofFloat value with
  | .undefined => "NaN"
  | .infinite negative => signed negative "inf"
  | .finite negative significand exponent =>
      signed negative
        (positional ⟨(Quotient.scaled significand exponent 1).round, -1⟩)

end Parterre.Decimal
