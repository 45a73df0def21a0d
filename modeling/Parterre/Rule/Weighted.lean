/-
Weighted choice.  The weights cut a line into half-open intervals that follow
each other from zero, and a roll picks the interval it lies in.
-/
import Parterre.Scalar

namespace Parterre.Weighted

variable {α : Type} [Scalar α]

/-- The first position at which the running sum, started from `sum`, exceeds
the roll. -/
def indexFrom? (roll sum : α) : List α → Option Nat
  | [] => none
  | weight :: rest =>
      if roll < sum + weight then some 0
      else (indexFrom? roll (sum + weight) rest).map (· + 1)

/-- The position whose interval holds the roll. -/
def index? (roll : α) (weights : List α) : Option Nat :=
  indexFrom? roll 0 weights

/-- The last position with a positive weight. -/
def lastPositive? : List α → Option Nat
  | [] => none
  | weight :: rest =>
      match lastPositive? rest with
      | some position => some (position + 1)
      | none => if 0 < weight then some 0 else none

/-- The position that a roll selects.  A roll behind all intervals selects the
last position of positive weight, or the last one if there is none. -/
def select? (roll : α) (weights : List α) : Option Nat :=
  match index? roll weights with
  | some position => some position
  | none =>
      match lastPositive? weights with
      | some position => some position
      | none => if weights.isEmpty then none else some (weights.length - 1)

end Parterre.Weighted
