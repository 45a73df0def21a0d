/-
Applying a rule to a rectangle.  First the rule is followed to a step; then the
step takes its own draws, in a fixed order: the kinds of a subset, the
direction of a cut, the position of a cut.
-/
import Parterre.Rule
import Parterre.Rule.Subset
import Parterre.Rule.Weighted

namespace Parterre

variable {κ α : Type} [Scalar α]

/-- The direction of a cut of a rectangle. -/
def Direction.draw (bounds : Rect α) : Direction → Sampler α Axis
  | .fixed axis => return axis
  | .random => do
      let isVertical ← Sampler.chance (Scalar.half 1)
      return if isVertical then .vertical else .horizontal
  | .longer =>
      return if bounds.height < bounds.width then .vertical else .horizontal

/-- A share from the range. -/
def ShareRange.draw (range : ShareRange α) : Sampler α α :=
  Sampler.range range.min range.max

/-- The direction and the position of a cut in two. -/
def Cut.drawAcross (bounds : Rect α) (axis : Direction) (ratio : ShareRange α) :
    Sampler α (Cut α) := do
  let axis ← axis.draw bounds
  let share ← ratio.draw
  return .across axis share

def PaletteCut.draw (bounds : Rect α) : PaletteCut α → Sampler α (Cut α)
  | .two axis ratio => Cut.drawAcross bounds axis ratio
  | .four => return .quarters

/-- Give kinds to the parts of a cut. -/
def Expansion.ofCut (bounds : Rect α) (kinds : List κ) (cut : Cut α) :
    Except (LayoutError α) (Expansion κ α) := do
  let parts ← cut.parts bounds
  return .tiled (kinds.zip parts)

/-- A frame of the full size and a feature inside the margin. -/
def Expansion.ofEmbed (bounds : Rect α) (frame feature : κ) (margin : α) :
    Except (LayoutError α) (Expansion κ α) :=
  if ¬ 0 ≤ margin ∨ bounds.isFilledBy margin then
    throw (.invalidGeometry bounds (.embedLeavesNothing margin))
  else do
    let inner ← bounds.inset margin
    return .embedded (frame, bounds) (feature, inner) margin

/-- Apply a step.  Frames of embedded features get the kind `frame`. -/
def Step.expand (bounds : Rect α) (frame : κ) :
    Step κ α → Sampler α (Expansion κ α)
  | .terminal => return .final
  | .fill kind => Expansion.ofCut bounds [kind] .whole
  | .bisect axis ratio first second => do
      let cut ← Cut.drawAcross bounds axis ratio
      Expansion.ofCut bounds [first, second] cut
  | .quarter topLeft topRight bottomLeft bottomRight =>
      Expansion.ofCut bounds [topLeft, topRight, bottomLeft, bottomRight] .quarters
  | .corridor axis width ratio first strip second => do
      let axis ← axis.draw bounds
      let share ← ratio.draw
      Expansion.ofCut bounds [first, strip, second] (.corridor axis width share)
  | .mix candidates cut =>
      if candidates.length < cut.arity then
        throw (.invalidRule "ChooseSubset"
          (.tooFewCandidates candidates.length cut.arity))
      else do
        let (chosen, _) ← Sampler.withoutReplacement cut.arity candidates
        let cut ← cut.draw bounds
        Expansion.ofCut bounds chosen cut
  | .embed feature margin => Expansion.ofEmbed bounds frame feature margin

mutual

/-- The step that a rule arrives at by its size guards and weighted draws. -/
def Rule.settle (bounds : Rect α) : Rule κ α → Sampler α (Step κ α)
  | .always step => return step
  | .weighted branches => do
      let roll ← Sampler.unit
      match Weighted.select? roll (branches.map Prod.fst) with
      | some position => Rule.settleBranch bounds branches position
      | none => throw (.config .noBranches)
  | .ifBothExceed minWidth minHeight large small =>
      if minWidth < bounds.width ∧ minHeight < bounds.height then
        large.settle bounds
      else small.settle bounds
  | .ifEitherExceeds threshold large small =>
      if threshold < bounds.width ∨ threshold < bounds.height then
        large.settle bounds
      else small.settle bounds

/-- Follow the branch at a position. -/
def Rule.settleBranch (bounds : Rect α) :
    List (α × Rule κ α) → Nat → Sampler α (Step κ α)
  | [], _ => throw (.config .noBranches)
  | (_, branch) :: _, 0 => branch.settle bounds
  | _ :: rest, position + 1 => Rule.settleBranch bounds rest position

end

/-- Apply a rule. -/
def Rule.expand (bounds : Rect α) (frame : κ) (rule : Rule κ α) :
    Sampler α (Expansion κ α) := do
  let step ← rule.settle bounds
  step.expand bounds frame

end Parterre
