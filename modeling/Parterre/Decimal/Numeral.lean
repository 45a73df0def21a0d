/-
Natural numbers written in decimal digits.
-/

namespace Parterre.Decimal

def isDigit (c : Char) : Bool :=
  '0' ≤ c && c ≤ '9'

def digitValue (c : Char) : Nat :=
  c.toNat - '0'.toNat

/-- The number that digits stand for; no digits stand for zero. -/
def natOfDigits (digits : List Char) : Nat :=
  digits.foldl (fun value c => value * 10 + digitValue c) 0

/-- The number that a text stands for, if it holds digits only. -/
def readNat? (text : List Char) : Option Nat :=
  if text.isEmpty || !text.all isDigit then none else some (natOfDigits text)

end Parterre.Decimal
