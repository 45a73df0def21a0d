/-
Cuts of a rectangle into parts that tile it, in scan order: left before right
and top before bottom.
-/
import Parterre.Rect.Checked

namespace Parterre

/-- A way to divide a rectangle. -/
inductive Cut (α : Type) where
  /-- One part, the rectangle itself. -/
  | whole
  /-- Two parts; the first takes the given share of the divided side. -/
  | across (axis : Axis) (share : α)
  /-- Four parts that meet in the centre. -/
  | quarters
  /-- Two parts on both sides of a strip.  The first takes the given share of
  what the strip leaves. -/
  | corridor (axis : Axis) (width share : α)

namespace Rect

variable {α : Type} [Scalar α]

/-- The edge that positions along a divided side are measured from. -/
def origin (bounds : Rect α) : Axis → α
  | .vertical => bounds.x
  | .horizontal => bounds.y

/-- A slice of a rectangle that keeps its other side. -/
def slice (bounds : Rect α) (axis : Axis) (start length : α) : Rect α :=
  match axis with
  | .vertical => ⟨start, bounds.y, length, bounds.height⟩
  | .horizontal => ⟨bounds.x, start, bounds.width, length⟩

end Rect

namespace Cut

variable {α : Type} [Scalar α]

/-- The parts of a cut before they are checked. -/
def outline (bounds : Rect α) : Cut α → List (Rect α)
  | .whole => [bounds]
  | .across axis share =>
      let first := bounds.extent axis * share
      [bounds.slice axis (bounds.origin axis) first,
        bounds.slice axis (bounds.origin axis + first)
          (bounds.extent axis - first)]
  | .quarters =>
      let left := Scalar.half bounds.width
      let top := Scalar.half bounds.height
      let midX := bounds.x + left
      let midY := bounds.y + top
      [⟨bounds.x, bounds.y, left, top⟩,
        ⟨midX, bounds.y, bounds.width - left, top⟩,
        ⟨bounds.x, midY, left, bounds.height - top⟩,
        ⟨midX, midY, bounds.width - left, bounds.height - top⟩]
  | .corridor axis width share =>
      let remaining := bounds.extent axis - width
      let first := remaining * share
      let strip := bounds.origin axis + first
      [bounds.slice axis (bounds.origin axis) first,
        bounds.slice axis strip width,
        bounds.slice axis (strip + width) (remaining - first)]

/-- The parts of a cut.  A strip must leave room beside it, and every part but
the whole must be a proper rectangle. -/
def parts (bounds : Rect α) : Cut α → Except (LayoutError α) (List (Rect α))
  | .whole => return [bounds]
  | .corridor axis width share =>
      if bounds.extent axis - width ≤ 0 then
        throw (.invalidGeometry bounds (.corridorLeavesNothing width))
      else
        (outline bounds (.corridor axis width share)).mapM Rect.checked
  | cut => (outline bounds cut).mapM Rect.checked

end Cut

end Parterre
