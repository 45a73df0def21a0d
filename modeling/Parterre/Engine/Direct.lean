/-
Runs written directly over their sources.  What is done to a region and in
which order is the same as in a run that waits for its draws, but here every
function that draws takes the source in hand itself.
-/
import Parterre.Drawing
import Parterre.Engine.Run

namespace Parterre

variable {κ σ α : Type} [DrawSource σ α] [Scalar α]

/-- The direction of a cut of a rectangle. -/
def Direction.drawFrom (bounds : Rect α) : Direction → Drawing σ α Axis
  | .fixed axis => return axis
  | .random => do
      let isVertical ← Drawing.chance (Scalar.half 1)
      return if isVertical then .vertical else .horizontal
  | .longer =>
      return if bounds.height < bounds.width then .vertical else .horizontal

/-- A share from the range. -/
def ShareRange.drawFrom (range : ShareRange α) : Drawing σ α α :=
  Drawing.range range.min range.max

/-- The direction and the position of a cut in two. -/
def Cut.drawAcrossFrom (bounds : Rect α) (axis : Direction) (ratio : ShareRange α) :
    Drawing σ α (Cut α) := do
  let axis ← axis.drawFrom bounds
  let share ← ratio.drawFrom
  return .across axis share

def PaletteCut.drawFrom (bounds : Rect α) : PaletteCut α → Drawing σ α (Cut α)
  | .two axis ratio => Cut.drawAcrossFrom bounds axis ratio
  | .four => return .quarters

/-- Draw distinct positions of a pool, one after the other. -/
def Drawing.withoutReplacement : Nat → List κ → Drawing σ α (List κ × List κ)
  | 0, pool => return ([], pool)
  | count + 1, pool => do
      let position ← Drawing.index pool.length
      let (chosen, rest) ←
        Drawing.withoutReplacement count (pool.eraseIdx position)
      return (pool[position]?.toList ++ chosen, rest)

/-- Apply a step. -/
def Step.expandFrom (bounds : Rect α) (frame : κ) :
    Step κ α → Drawing σ α (Expansion κ α)
  | .terminal => return .final
  | .fill kind => Expansion.ofCut bounds [kind] .whole
  | .bisect axis ratio first second => do
      let cut ← Cut.drawAcrossFrom bounds axis ratio
      Expansion.ofCut bounds [first, second] cut
  | .quarter topLeft topRight bottomLeft bottomRight =>
      Expansion.ofCut bounds [topLeft, topRight, bottomLeft, bottomRight] .quarters
  | .corridor axis width ratio first strip second => do
      let axis ← axis.drawFrom bounds
      let share ← ratio.drawFrom
      Expansion.ofCut bounds [first, strip, second] (.corridor axis width share)
  | .mix candidates cut =>
      if candidates.length < cut.arity then
        throw (.invalidRule "ChooseSubset"
          (.tooFewCandidates candidates.length cut.arity))
      else do
        let (chosen, _) ← Drawing.withoutReplacement cut.arity candidates
        let cut ← cut.drawFrom bounds
        Expansion.ofCut bounds chosen cut
  | .embed feature margin => Expansion.ofEmbed bounds frame feature margin

mutual

/-- The step that a rule arrives at. -/
def Rule.settleFrom (bounds : Rect α) : Rule κ α → Drawing σ α (Step κ α)
  | .always step => return step
  | .weighted branches => do
      let roll ← Drawing.unit
      match Weighted.select? roll (branches.map Prod.fst) with
      | some position => Rule.settleBranchFrom bounds branches position
      | none => throw (.config .noBranches)
  | .ifBothExceed minWidth minHeight large small =>
      if minWidth < bounds.width ∧ minHeight < bounds.height then
        large.settleFrom bounds
      else small.settleFrom bounds
  | .ifEitherExceeds threshold large small =>
      if threshold < bounds.width ∨ threshold < bounds.height then
        large.settleFrom bounds
      else small.settleFrom bounds

/-- Follow the branch at a position. -/
def Rule.settleBranchFrom (bounds : Rect α) :
    List (α × Rule κ α) → Nat → Drawing σ α (Step κ α)
  | [], _ => throw (.config .noBranches)
  | (_, branch) :: _, 0 => branch.settleFrom bounds
  | _ :: rest, position + 1 => Rule.settleBranchFrom bounds rest position

end

/-- Apply a rule. -/
def Rule.expandFrom (bounds : Rect α) (frame : κ) (rule : Rule κ α) :
    Drawing σ α (Expansion κ α) := do
  let step ← rule.settleFrom bounds
  step.expandFrom bounds frame

/-- The replacement kind.  A single one is taken without a draw. -/
def Safeguard.drawFrom (safeguard : Safeguard κ α) : Drawing σ α κ :=
  match safeguard.others with
  | [] => return safeguard.first.2
  | _ :: _ => do
      let value ← Drawing.unit
      return safeguard.pick value

namespace Engine

variable [DecidableEq κ] [RegionKind κ]

/-- Decide about a pending region. -/
def judgeFrom (engine : Engine κ α) (kind : κ) (bounds : Rect α) (depth : Nat) :
    Drawing σ α (Verdict κ α) :=
  if engine.settings.isUndersized bounds || engine.settings.isCapped depth then
    if engine.keepsKind kind bounds then return .stopped kind
    else do
      let kind ← engine.settings.safeguard.drawFrom
      return .stopped kind
  else do
    let rule ← engine.table.rule kind
    let expansion ← rule.expandFrom bounds engine.settings.frame
    return .expanded expansion

/-- Decide about the node at a position of the arena. -/
def advanceFrom (engine : Engine κ α) (progress : Progress κ α) (position : Nat) :
    Drawing σ α (Progress κ α) :=
  match progress.nodes[position]? with
  | none => return progress
  | some node => do
      let verdict ← engine.judgeFrom node.kind node.bounds node.depth
      return progress.record position node verdict

/-- Work on the queue until it is empty; nothing is returned if it is not
empty after `limit` regions. -/
def processFrom (engine : Engine κ α) (limit : Nat) (progress : Progress κ α) :
    Drawing σ α (Option (Progress κ α)) :=
  match progress.queue.pop? with
  | none => return some progress
  | some (position, queue) =>
      match limit with
      | 0 => return none
      | limit + 1 => do
          let progress ← engine.advanceFrom
            { progress with queue, iterations := progress.iterations + 1 } position
          engine.processFrom limit progress

section

variable (engine : Engine κ α) (limit : Nat) {progress : Progress κ α} {position : Nat}
  {queue : Queue Nat}

theorem processFrom_of_empty (h : progress.queue.pop? = none) :
    (engine.processFrom limit progress : Drawing σ α _) = return some progress := by
  rw [processFrom, h]

theorem processFrom_zero (h : progress.queue.pop? = some (position, queue)) :
    (engine.processFrom 0 progress : Drawing σ α _) = return none := by
  rw [processFrom, h]

theorem processFrom_succ (h : progress.queue.pop? = some (position, queue)) :
    (engine.processFrom (limit + 1) progress : Drawing σ α _) =
      engine.advanceFrom
        { progress with queue, iterations := progress.iterations + 1 } position
        >>= engine.processFrom limit := by
  rw [processFrom, h]

end

/-- Generate a layout for an area. -/
def runFrom (engine : Engine κ α) (limit : Nat) (width height : α) :
    Drawing σ α (Option (Generation κ α)) := do
  let bounds ← Rect.checked ⟨0, 0, width, height⟩
  let progress ← engine.processFrom limit (.start engine.settings.root bounds)
  return progress.map (engine.finish bounds)

end Engine

end Parterre
