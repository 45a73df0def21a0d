/-
Rectangles with finite coordinates and positive sides, and the space that is
left when a margin is taken off all four sides.
-/
import Parterre.Error

namespace Parterre.Rect

variable {α : Type} [Scalar α]

/-- The rectangle itself, if its numbers are finite and its sides positive. -/
def checked (bounds : Rect α) : Except (LayoutError α) (Rect α) :=
  if !bounds.isFinite then
    throw (.invalidGeometry bounds .notFinite)
  else if bounds.width ≤ 0 ∨ bounds.height ≤ 0 then
    throw (.invalidGeometry bounds .notPositive)
  else
    return bounds

/-- Some side is at most twice the margin. -/
def isFilledBy (bounds : Rect α) (margin : α) : Bool :=
  bounds.width ≤ Scalar.twice margin || bounds.height ≤ Scalar.twice margin

/-- Shrink by a margin on all four sides. -/
def inset (bounds : Rect α) (margin : α) : Except (LayoutError α) (Rect α) :=
  if ¬ 0 ≤ margin then
    throw (.invalidGeometry bounds (.negativeInset margin))
  else if bounds.isFilledBy margin then
    throw (.invalidGeometry bounds (.insetLeavesNothing margin))
  else
    checked
      ⟨bounds.x + margin, bounds.y + margin,
        bounds.width - Scalar.twice margin, bounds.height - Scalar.twice margin⟩

end Parterre.Rect
