/-
The fewest decimal digits that read back to the same binary64 number.  The
reals that round to a number form an interval around it, whose ends belong to
it when the significand is even.  The coarsest decimal grid with a point in
that interval gives the digits; of two points the nearer one is taken.
-/
import Parterre.Decimal.Binary

namespace Parterre.Decimal

/-- The decimal number `digits * 10 ^ exponent`. -/
structure Digits where
  digits : Nat
  exponent : Int
  deriving DecidableEq

/-- Which of two equally near decimals is taken. -/
inductive TieRule where
  | upward
  | toEven

/-- The reals that round to `significand * 2 ^ exponent`, in units of
`2 ^ (exponent - 2)`.  Below a power of two the spacing is halved. -/
structure RoundingInterval where
  lower : Nat
  centre : Nat
  upper : Nat
  closed : Bool

def RoundingInterval.of (significand : Nat) (exponent : Int) :
    RoundingInterval where
  lower :=
    if significand = Binary.hiddenBit ∧ -1074 < exponent then 4 * significand - 1
    else 4 * significand - 2
  centre := 4 * significand
  upper := 4 * significand + 2
  closed := significand % 2 == 0

/-- The point of the grid of step `10 ^ power` that stands for the interval,
if one lies in it.  The interval is measured in units of `2 ^ binary`. -/
def RoundingInterval.gridPoint? (interval : RoundingInterval) (tie : TieRule)
    (binary power : Int) : Option Nat :=
  let unit := Quotient.scaled 1 binary (-power)
  let below := interval.centre * unit.numerator / unit.denominator
  let position := interval.centre * unit.numerator
  let lower := interval.lower * unit.numerator
  let upper := interval.upper * unit.numerator
  let hasBelow :=
    let point := below * unit.denominator
    if interval.closed then decide (lower ≤ point) else decide (lower < point)
  let hasAbove :=
    let point := (below + 1) * unit.denominator
    if interval.closed then decide (point ≤ upper) else decide (point < upper)
  let twiceRest := 2 * (position - below * unit.denominator)
  let nearer :=
    if twiceRest < unit.denominator then below
    else if unit.denominator < twiceRest then below + 1
    else match tie with
      | .upward => below + 1
      | .toEven => if below % 2 = 0 then below else below + 1
  match hasBelow, hasAbove with
  | true, true => some nearer
  | true, false => some below
  | false, true => some (below + 1)
  | false, false => none

/-- Search the grids from step `10 ^ power` downwards. -/
def RoundingInterval.search (interval : RoundingInterval) (tie : TieRule)
    (binary : Int) : Nat → Int → Digits
  | 0, power => ⟨0, power⟩
  | steps + 1, power =>
      match interval.gridPoint? tie binary power with
      | some digits => ⟨digits, power⟩
      | none => interval.search tie binary steps (power - 1)

/-- The fewest digits of a positive number.  The first grid is coarser than
the number itself, and seventeen digits always suffice. -/
def shortest (tie : TieRule) (significand : Nat) (exponent : Int) : Digits :=
  let bits : Int := Nat.log2 significand + 1 + exponent
  let first := bits * 1233 / 4096 + 1
  (RoundingInterval.of significand exponent).search tie (exponent - 2) 24 first

end Parterre.Decimal
