/-
Reading a real number from an argument: an optional sign, digits with an
optional point somewhere among them, and an optional exponent; or the words
for infinity and for an undefined value, in any case.
-/
import Parterre.Decimal.Numeral

namespace Parterre.Decimal

def isExponentMark (c : Char) : Bool :=
  c == 'e' || c == 'E'

/-- A sign in front of other characters. -/
def splitSign : List Char → Bool × List Char
  | '-' :: rest => (true, rest)
  | '+' :: rest => (false, rest)
  | rest => (false, rest)

/-- The exponent behind its mark. -/
def readExponent? : List Char → Option Int
  | [] => some 0
  | mark :: rest =>
      if isExponentMark mark then
        let (negative, digits) := splitSign rest
        (readNat? digits).map fun power => if negative then -(power : Int) else power
      else none

/-- The binary64 number nearest to `value * 10 ^ exponent`.  Powers far outside
the range of the type are not computed. -/
def nearest (value : Nat) (exponent : Int) : Float :=
  let magnitude : Int := (toString value).length + exponent
  if value = 0 ∨ magnitude < -400 then 0
  else if 400 < magnitude then Float.ofScientific 1 false 400
  else Float.ofScientific value (decide (exponent < 0)) exponent.natAbs

/-- A number without its sign. -/
def readMagnitude? (text : List Char) : Option Float :=
  let lower := text.map Char.toLower
  if lower = "inf".toList ∨ lower = "infinity".toList then
    some (Float.ofScientific 1 false 400)
  else if lower = "nan".toList then some (0 / 0)
  else
    let (whole, rest) := text.span isDigit
    let (fraction, rest) :=
      match rest with
      | '.' :: rest => rest.span isDigit
      | rest => ([], rest)
    if whole.isEmpty && fraction.isEmpty then none
    else do
      let exponent ← readExponent? rest
      return nearest (natOfDigits (whole ++ fraction)) (exponent - fraction.length)

/-- The number that a text stands for. -/
def read? (text : String) : Option Float :=
  let (negative, rest) := splitSign text.toList
  (readMagnitude? rest).map fun value => if negative then -value else value

end Parterre.Decimal
