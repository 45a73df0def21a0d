/-
Rules: what happens to a region of a given kind.  A rule looks at the size of
the region and at draws until it arrives at one step, and the step leaves the
region alone, cuts it into parts or embeds a feature in it.
-/
import Parterre.Cut

namespace Parterre

/-- The shares that the position of a cut is drawn from. -/
structure ShareRange (α : Type) where
  min : α
  max : α
  deriving DecidableEq

/-- How the direction of a cut is found. -/
inductive Direction where
  | fixed (axis : Axis)
  /-- By a fair draw. -/
  | random
  /-- Across the longer side; a square is cut horizontally. -/
  | longer
  deriving DecidableEq

/-- The cut that a sampled subset of kinds is laid out with. -/
inductive PaletteCut (α : Type) where
  | two (axis : Direction) (ratio : ShareRange α)
  | four
  deriving DecidableEq

/-- How many kinds the cut takes. -/
def PaletteCut.arity {α : Type} : PaletteCut α → Nat
  | .two .. => 2
  | .four => 4

/-- What is done to a region in one go. -/
inductive Step (κ α : Type) where
  /-- The region is final. -/
  | terminal
  /-- One child of the same size. -/
  | fill (kind : κ)
  | bisect (axis : Direction) (ratio : ShareRange α) (first second : κ)
  /-- Quarters: top left, top right, bottom left, bottom right. -/
  | quarter (topLeft topRight bottomLeft bottomRight : κ)
  | corridor (axis : Direction) (width : α) (ratio : ShareRange α)
      (first strip second : κ)
  /-- Distinct candidates in the order they were drawn. -/
  | mix (candidates : List κ) (cut : PaletteCut α)
  /-- A frame of the full size under a feature inside a margin. -/
  | embed (feature : κ) (margin : α)
  deriving DecidableEq

/-- A decision on sizes and draws with a step at every end. -/
inductive Rule (κ α : Type) where
  | always (step : Step κ α)
  /-- The branch whose part of `[0, 1)` a draw falls into. -/
  | weighted (branches : List (α × Rule κ α))
  /-- The first rule if both sides exceed their minimum. -/
  | ifBothExceed (minWidth minHeight : α) (large small : Rule κ α)
  /-- The first rule if some side exceeds the threshold. -/
  | ifEitherExceeds (threshold : α) (large small : Rule κ α)

namespace ShareRange

variable {α : Type} [Scalar α]

/-- The usual range of a cut in two. -/
def split : ShareRange α :=
  ⟨Scalar.ratio 3 10, Scalar.ratio 7 10⟩

/-- The usual range of the first side of a corridor. -/
def corridor : ShareRange α :=
  ⟨Scalar.ratio 2 10, Scalar.ratio 8 10⟩

/-- Both ends lie strictly between zero and one, in order, so that no part of
a cut is empty. -/
def isValid (range : ShareRange α) : Bool :=
  0 < range.min && range.max < 1 && range.min ≤ range.max

end ShareRange

/-- What became of a region. -/
inductive Expansion (κ α : Type) where
  | final
  /-- Children that tile the region. -/
  | tiled (parts : List (κ × Rect α))
  /-- A frame of the full size and the feature drawn on top of it. -/
  | embedded (frame feature : κ × Rect α) (margin : α)
  deriving DecidableEq

end Parterre
