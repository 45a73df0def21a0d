/-
Layouts with their history.  A lineage holds all regions that were decided about,
each with the kind it was given and the verdict on it.  The verdicts make the
tree of the layout out of it, where a given kind may be replaced.
-/
import Parterre.Engine.Levels

namespace Parterre

/-- A region as it was decided about, with the lineages of its pending
children. -/
inductive Lineage (κ α : Type) where
  | node (region : Judged κ α) (children : List (Lineage κ α))

variable {κ α : Type}

namespace Lineage

def region : Lineage κ α → Judged κ α
  | .node region _ => region

def children : Lineage κ α → List (Lineage κ α)
  | .node _ children => children

/-- The kind and the rectangle that were decided about. -/
def given (line : Lineage κ α) : κ × Rect α :=
  (line.region.kind, line.region.bounds)

/-- The line at the end of a way, which names the place of a child at every
step. -/
def at? : List Nat → Lineage κ α → Option (Lineage κ α)
  | [], line => some line
  | place :: way, line => line.children[place]?.bind (at? way)

mutual

/-- The tree of the layout. -/
def tree : Lineage κ α → Region κ α
  | .node region children =>
      region.verdict.graft region.kind region.bounds (treeAll children)

def treeAll : List (Lineage κ α) → List (Region κ α)
  | [] => []
  | line :: rest => line.tree :: treeAll rest

end

/-- Hand out the lineages of a level to the regions of the level above. -/
def joinAll : List (Judged κ α) → List (Lineage κ α) → List (Lineage κ α)
  | [], _ => []
  | region :: rest, below =>
      let count := region.verdict.pending.length
      .node region (below.take count) :: joinAll rest (below.drop count)

end Lineage

/-- The lineages of the regions of one depth, unless more levels than `height`
are needed. -/
def Engine.lineages [DecidableEq κ] [RegionKind κ] [Scalar α] (engine : Engine κ α)
    (height depth : Nat) (regions : List (κ × Rect α)) :
    Sampler α (Option (List (Lineage κ α))) :=
  match regions, height with
  | [], _ => return some []
  | _ :: _, 0 => return none
  | _ :: _, height + 1 => do
      let judged ← engine.judgeLevel depth regions
      let pending := judged.flatMap fun region => region.verdict.pending
      let below ← engine.lineages height (depth + 1) pending
      return below.map (Lineage.joinAll judged)

end Parterre
