/-
Axis-aligned rectangles.  The origin is the top left corner, `x` grows to the
right and `y` downwards.  The predicates treat a rectangle as a closed set of
points; `sharedArea` is zero for rectangles that only touch.
-/
import Parterre.Scalar

namespace Parterre

/-- The direction of a cut: a vertical cut divides the width, a horizontal cut
the height. -/
inductive Axis where
  | vertical
  | horizontal
  deriving DecidableEq

/-- A rectangle given by its top left corner and its sides. -/
structure Rect (α : Type) where
  x : α
  y : α
  width : α
  height : α
  deriving BEq, DecidableEq

namespace Rect

variable {α : Type} [Scalar α]

/-- The side that a cut along `axis` divides. -/
def extent (bounds : Rect α) : Axis → α
  | .vertical => bounds.width
  | .horizontal => bounds.height

/-- The right edge. -/
def right (bounds : Rect α) : α :=
  bounds.x + bounds.width

/-- The lower edge. -/
def bottom (bounds : Rect α) : α :=
  bounds.y + bounds.height

def area (bounds : Rect α) : α :=
  bounds.width * bounds.height

/-- Points on the edges are inside. -/
def contains (bounds : Rect α) (px py : α) : Bool :=
  bounds.x ≤ px && px ≤ bounds.right && bounds.y ≤ py && py ≤ bounds.bottom

/-- The second rectangle lies within the first; edges may coincide. -/
def encloses (outer inner : Rect α) : Bool :=
  outer.x ≤ inner.x && outer.y ≤ inner.y
    && inner.right ≤ outer.right && inner.bottom ≤ outer.bottom

/-- The area two rectangles share. -/
def sharedArea (first second : Rect α) : α :=
  let width :=
    Scalar.lesser first.right second.right - Scalar.greater first.x second.x
  let height :=
    Scalar.lesser first.bottom second.bottom - Scalar.greater first.y second.y
  if 0 < width ∧ 0 < height then width * height else 0

/-- All four numbers are finite. -/
def isFinite (bounds : Rect α) : Bool :=
  Scalar.isFinite bounds.x && Scalar.isFinite bounds.y
    && Scalar.isFinite bounds.width && Scalar.isFinite bounds.height

end Rect

end Parterre
