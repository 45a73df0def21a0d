/-
The conditions on the numbers of a rule.  They are checked in the order in
which the rule is read, and the first one that fails is reported for the kind
that owns the rule.
-/
import Parterre.Kind
import Parterre.Rule

namespace Parterre

variable {κ α : Type} [DecidableEq κ] [RegionKind κ] [Scalar α]

/-- A failure of a rule of the kind `owner`. -/
def LayoutError.rule (owner : κ) (fault : RuleFault α) : LayoutError α :=
  .invalidRule (RegionKind.name owner) fault

def ShareRange.check (owner : κ) (range : ShareRange α) :
    Except (LayoutError α) Unit :=
  if range.isValid then return ()
  else throw (.rule owner (.ratioOutside range.min range.max))

def PaletteCut.check (owner : κ) : PaletteCut α → Except (LayoutError α) Unit
  | .two _ ratio => ratio.check owner
  | .four => return ()

def Step.check (owner : κ) : Step κ α → Except (LayoutError α) Unit
  | .terminal | .fill _ | .quarter .. => return ()
  | .bisect _ ratio _ _ => ratio.check owner
  | .corridor _ width ratio _ _ _ =>
      if ¬ 0 < width then throw (.rule owner (.corridorNotPositive width))
      else ratio.check owner
  | .mix candidates cut =>
      if ¬ candidates.Nodup then throw (.rule owner .repeatedCandidates)
      else if candidates.length < cut.arity then
        throw (.rule owner (.tooFewCandidates candidates.length cut.arity))
      else cut.check owner
  | .embed _ margin =>
      if ¬ 0 ≤ margin then throw (.rule owner (.negativeMargin margin))
      else return ()

/-- How far the weights of a choice may sum up beside one. -/
def Rule.weightTolerance : α :=
  Scalar.ratio 1 1000000

/-- The weights sum up to one within the tolerance. -/
def Rule.checkTotal (owner : κ) (total : α) : Except (LayoutError α) Unit :=
  if Rule.weightTolerance < total - 1 ∨ Rule.weightTolerance < 1 - total then
    throw (.rule owner (.weightSum total))
  else return ()

mutual

def Rule.check (owner : κ) : Rule κ α → Except (LayoutError α) Unit
  | .always step => step.check owner
  | .weighted branches =>
      if branches.isEmpty then throw (.rule owner .noBranches)
      else do
        let total ← Rule.checkBranches owner branches 0
        Rule.checkTotal owner total
  | .ifBothExceed _ _ large small | .ifEitherExceeds _ large small => do
      large.check owner
      small.check owner

/-- Check branches in order and add their weights to a running sum. -/
def Rule.checkBranches (owner : κ) :
    List (α × Rule κ α) → α → Except (LayoutError α) α
  | [], total => return total
  | (weight, branch) :: rest, total =>
      if ¬ 0 ≤ weight then throw (.rule owner (.negativeWeight weight))
      else do
        branch.check owner
        Rule.checkBranches owner rest (total + weight)

end

end Parterre
