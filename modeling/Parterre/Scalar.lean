/-
Coordinates.  Every length, weight and draw of the library is a value of one
scalar type, so the same definitions run on binary64 and are read over the
exact rationals.  Only what the layouts need is asked for: the field
operations, the order, a test for proper numbers and truncation.
-/

namespace Parterre

/-- The arithmetic that lengths, weights and draws are computed with. -/
class Scalar (α : Type) extends
    Zero α, One α, Add α, Sub α, Mul α, Div α, NatCast α, LT α, LE α where
  [decLt : DecidableLT α]
  [decLe : DecidableLE α]
  /-- Neither infinite nor undefined. -/
  isFinite : α → Bool
  /-- The whole part of a non-negative value; zero for every other value. -/
  truncate : α → Nat

attribute [reducible, instance] Scalar.decLt Scalar.decLe

/-- Binary64: every operation rounds to the nearest representable value. -/
instance : Scalar Float where
  zero := 0
  one := 1
  natCast := Float.ofNat
  isFinite := Float.isFinite
  truncate value := value.toUInt64.toNat

/-- The exact reading: every value is finite and nothing is rounded. -/
instance : Scalar Rat where
  toZero := @Zero.ofOfNat0 Rat Rat.instOfNat
  toOne := @One.ofOfNat1 Rat Rat.instOfNat
  toAdd := Rat.instAdd
  toSub := Rat.instSub
  toMul := Rat.instMul
  toDiv := Rat.instDiv
  toNatCast := Rat.instNatCast
  toLT := Rat.instLT
  toLE := Rat.instLE
  decLt := Rat.instDecidableLt
  decLe := Rat.instDecidableLe
  isFinite _ := true
  truncate value := value.floor.toNat

namespace Scalar

variable {α : Type} [Scalar α]

/-- The quotient of two whole numbers, rounded as the scalar rounds. -/
def ratio (numerator denominator : Nat) : α :=
  (numerator : α) / (denominator : α)

def twice (value : α) : α :=
  value + value

def half (value : α) : α :=
  value / (1 + 1)

/-- The smaller of two values.  A value that does not compare with itself
loses against any other, and of two equal values the first is taken. -/
def lesser (left right : α) : α :=
  if left ≤ left then (if right < left then right else left) else right

/-- The larger of two values, with the same rules as `lesser`. -/
def greater (left right : α) : α :=
  if left ≤ left then (if left < right then right else left) else right

/-- Left-to-right sum from zero. -/
def sum (values : List α) : α :=
  values.foldl (· + ·) 0

end Scalar

end Parterre
