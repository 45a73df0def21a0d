/-
The same layouts level by level.  All regions of one depth are decided in
order, then all their pending children, and the trees of the children are put
under their parents when the levels below are done.  Features are final, so
they are never decided about.
-/
import Parterre.Engine.Run

namespace Parterre

variable {κ α : Type}

/-- The children of a region that still have to be decided. -/
def Verdict.pending : Verdict κ α → List (κ × Rect α)
  | .stopped _ => []
  | .expanded .final => []
  | .expanded (.tiled parts) => parts
  | .expanded (.embedded frame _ _) => [frame]

/-- A region without children. -/
def Region.final (kind : κ) (bounds : Rect α) : Region κ α :=
  .node kind bounds .terminal none []

/-- The tree of a region, given the trees of its pending children. -/
def Verdict.graft (kind : κ) (bounds : Rect α) (below : List (Region κ α)) :
    Verdict κ α → Region κ α
  | .stopped replacement => .final replacement bounds
  | .expanded .final => .final kind bounds
  | .expanded (.tiled _) =>
      .node kind bounds .expanded (some .tiled) below
  | .expanded (.embedded _ feature margin) =>
      .node kind bounds .expanded (some (.embedded margin))
        (below ++ [.final feature.1 feature.2])

/-- A region with the verdict on it. -/
structure Judged (κ α : Type) where
  kind : κ
  bounds : Rect α
  verdict : Verdict κ α

/-- Hand out the trees of a level to the regions of the level above. -/
def graftAll : List (Judged κ α) → List (Region κ α) → List (Region κ α)
  | [], _ => []
  | region :: rest, below =>
      let count := region.verdict.pending.length
      region.verdict.graft region.kind region.bounds (below.take count)
        :: graftAll rest (below.drop count)

namespace Engine

variable [DecidableEq κ] [RegionKind κ] [Scalar α]

/-- Decide about the regions of one depth, from left to right. -/
def judgeLevel (engine : Engine κ α) (depth : Nat) :
    List (κ × Rect α) → Sampler α (List (Judged κ α))
  | [] => return []
  | (kind, bounds) :: rest => do
      let verdict ← engine.judge kind bounds depth
      let others ← engine.judgeLevel depth rest
      return ⟨kind, bounds, verdict⟩ :: others

/-- The trees of the regions of one depth, unless more levels than `height`
are needed. -/
def levels (engine : Engine κ α) (height depth : Nat)
    (regions : List (κ × Rect α)) : Sampler α (Option (List (Region κ α))) :=
  match regions, height with
  | [], _ => return some []
  | _ :: _, 0 => return none
  | _ :: _, height + 1 => do
      let judged ← engine.judgeLevel depth regions
      let pending := judged.flatMap fun region => region.verdict.pending
      let below ← engine.levels height (depth + 1) pending
      return below.map (graftAll judged)

/-- The tree of a layout, generated level by level. -/
def runByLevels (engine : Engine κ α) (height : Nat) (width length : α) :
    Sampler α (Option (List (Region κ α))) := do
  let bounds ← Rect.checked ⟨0, 0, width, length⟩
  engine.levels height 0 [(engine.settings.root, bounds)]

end Engine

end Parterre
