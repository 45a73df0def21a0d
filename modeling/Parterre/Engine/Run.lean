/-
Runs.  Pending regions are taken from the queue one by one.  A region that is
too small or too deep is stopped; any other one is expanded by the rule of
its kind, and its children join the end of the queue.  The run is over when
the queue is empty.
-/
import Parterre.Engine.Arena
import Parterre.Source.Seeded

namespace Parterre

variable {κ α : Type} [DecidableEq κ] [RegionKind κ] [Scalar α]

/-- A finished run. -/
structure Generation (κ α : Type) where
  root : Region κ α
  stats : Stats

namespace Settings

/-- Some side is below the minimum. -/
def isUndersized (settings : Settings κ α) (bounds : Rect α) : Bool :=
  bounds.width < settings.minDim || bounds.height < settings.minDim

/-- The depth limit is reached. -/
def isCapped (settings : Settings κ α) (depth : Nat) : Bool :=
  match settings.maxDepth with
  | some limit => limit ≤ depth
  | none => false

end Settings

namespace Engine

/-- A stopped region of the given kind and size keeps its kind: it is final
anyway, or only the depth limit stops it and kinds are kept there. -/
def keepsKind (engine : Engine κ α) (kind : κ) (bounds : Rect α) : Bool :=
  engine.table.isTerminal kind
    || (!engine.settings.isUndersized bounds && engine.settings.keepAtMaxDepth)

/-- Decide about a pending region. -/
def judge (engine : Engine κ α) (kind : κ) (bounds : Rect α) (depth : Nat) :
    Sampler α (Verdict κ α) :=
  if engine.settings.isUndersized bounds || engine.settings.isCapped depth then
    if engine.keepsKind kind bounds then return .stopped kind
    else do
      let kind ← engine.settings.safeguard.draw
      return .stopped kind
  else do
    let rule ← engine.table.rule kind
    let expansion ← rule.expand bounds engine.settings.frame
    return .expanded expansion

/-- Decide about the node at a position of the arena. -/
def advance (engine : Engine κ α) (progress : Progress κ α) (position : Nat) :
    Sampler α (Progress κ α) :=
  match progress.nodes[position]? with
  | none => return progress
  | some node => do
      let verdict ← engine.judge node.kind node.bounds node.depth
      return progress.record position node verdict

/-- Work on the queue until it is empty; nothing is returned if it is not
empty after `limit` regions.  A stretch of regions that take no draw is one
loop. -/
def process (engine : Engine κ α) (limit : Nat) (progress : Progress κ α) :
    Sampler α (Option (Progress κ α)) :=
  match progress.queue.pop? with
  | none => return some progress
  | some (position, queue) =>
      match limit with
      | 0 => return none
      | limit + 1 =>
          let progress :=
            { progress with queue, iterations := progress.iterations + 1 }
          match engine.advance progress position with
          | .done (.ok progress) => engine.process limit progress
          | .done (.error failure) => .done (.error failure)
          | .draw rest =>
              .draw fun value => (rest value).bind (engine.process limit)

/-- Processing takes a region from the queue, decides about it and goes on with
one region less to spend. -/
theorem process_succ (engine : Engine κ α) (limit : Nat)
    (progress : Progress κ α) {position : Nat} {queue : Queue Nat}
    (h : progress.queue.pop? = some (position, queue)) :
    engine.process (limit + 1) progress =
      engine.advance
        { progress with queue, iterations := progress.iterations + 1 } position
        >>= engine.process limit := by
  rw [process, h]
  simp only
  split <;> rename_i heq <;> rw [heq] <;> rfl

/-- The tree and the counts of a run whose queue is empty. -/
def finish (engine : Engine κ α) (bounds : Rect α) (progress : Progress κ α) :
    Generation κ α where
  root :=
    (assembleAll progress.nodes).back?.getD (.pending engine.settings.root bounds)
  stats := progress.stats

/-- Generate a layout for an area.  Nothing is returned if the run is not over
after `limit` regions. -/
def run (engine : Engine κ α) (limit : Nat) (width height : α) :
    Sampler α (Option (Generation κ α)) := do
  let bounds ← Rect.checked ⟨0, 0, width, height⟩
  let progress ← engine.process limit (.start engine.settings.root bounds)
  return progress.map (engine.finish bounds)

/-- The run with the draws behind a seed. -/
def generate (engine : Engine κ Float) (limit : Nat) (width height : Float)
    (seed : UInt64) : Except (LayoutError Float) (Option (Generation κ Float)) :=
  ((engine.run limit width height).run (Seeded.ofSeed seed)).1

/-- Independent runs, one for each seed, in the order of the seeds. -/
def generateMany (engine : Engine κ Float) (limit : Nat) (width height : Float)
    (seeds : List UInt64) :
    List (Except (LayoutError Float) (Option (Generation κ Float))) :=
  seeds.map (engine.generate limit width height)

end Engine

end Parterre
