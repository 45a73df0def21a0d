/-
The state of a run.  Regions are entries of an arena, where children follow
their parents, and a queue holds the entries that are still pending.
-/
import Parterre.Engine
import Parterre.Queue
import Parterre.Region.Walk
import Parterre.Rule.Expand

namespace Parterre

/-- An entry of the arena; children are positions in the arena. -/
structure Node (κ α : Type) where
  kind : κ
  bounds : Rect α
  state : Status
  composition : Option (Composition α)
  children : List Nat
  depth : Nat

variable {κ α : Type}

def Node.pending (kind : κ) (bounds : Rect α) (depth : Nat) : Node κ α :=
  ⟨kind, bounds, .pending, none, [], depth⟩

/-- What is decided about a pending region. -/
inductive Verdict (κ α : Type) where
  /-- Stopped early, with its final kind. -/
  | stopped (kind : κ)
  | expanded (expansion : Expansion κ α)

/-- The arena, the queue and the counts of a run. -/
structure Progress (κ α : Type) where
  nodes : Array (Node κ α)
  queue : Queue Nat
  /-- Regions taken from the queue. -/
  iterations : Nat
  /-- Regions stopped by their size or depth. -/
  safeguarded : Nat
  embeds : Nat

namespace Progress

/-- A run in front of its root. -/
def start (kind : κ) (bounds : Rect α) : Progress κ α where
  nodes := #[Node.pending kind bounds 0]
  queue := .ofList [0]
  iterations := 0
  safeguarded := 0
  embeds := 0

/-- Add a node at the end of the arena, and queue it if it is pending. -/
def add (progress : Progress κ α) (node : Node κ α) : Progress κ α :=
  let position := progress.nodes.size
  let queue :=
    if node.state = .pending then progress.queue.push position
    else progress.queue
  { progress with nodes := progress.nodes.push node, queue }

/-- Replace the node at a position. -/
def settle (progress : Progress κ α) (position : Nat) (node : Node κ α) :
    Progress κ α :=
  { progress with nodes := progress.nodes.setIfInBounds position node }

/-- Add pending children of a node and settle it. -/
def divide (progress : Progress κ α) (position : Nat) (node : Node κ α)
    (parts : List (κ × Rect α)) : Progress κ α :=
  let first := progress.nodes.size
  let progress := parts.foldl
    (fun progress part =>
      progress.add (.pending part.1 part.2 (node.depth + 1)))
    progress
  progress.settle position
    { node with
      state := .expanded
      composition := some .tiled
      children := List.range' first parts.length }

/-- Add a pending frame and a final feature to a node and settle it. -/
def embed (progress : Progress κ α) (position : Nat) (node : Node κ α)
    (frame feature : κ × Rect α) (margin : α) : Progress κ α :=
  let first := progress.nodes.size
  let progress := progress.add (.pending frame.1 frame.2 (node.depth + 1))
  let progress := progress.add
    { Node.pending feature.1 feature.2 (node.depth + 1) with state := .terminal }
  let progress := progress.settle position
    { node with
      state := .expanded
      composition := some (.embedded margin)
      children := [first, first + 1] }
  { progress with embeds := progress.embeds + 1 }

/-- Record the verdict on the node at a position. -/
def record (progress : Progress κ α) (position : Nat) (node : Node κ α) :
    Verdict κ α → Progress κ α
  | .stopped kind =>
      let progress :=
        progress.settle position { node with kind, state := .terminal }
      { progress with safeguarded := progress.safeguarded + 1 }
  | .expanded .final =>
      progress.settle position { node with state := .terminal }
  | .expanded (.tiled parts) => progress.divide position node parts
  | .expanded (.embedded frame feature margin) =>
      progress.embed position node frame feature margin

end Progress

/-- The tree of a node, given the trees of the nodes behind it in reverse
order and the size of the arena. -/
def Node.assemble (node : Node κ α) (size : Nat)
    (behind : Array (Region κ α)) : Region κ α :=
  .node node.kind node.bounds node.state node.composition
    (node.children.filterMap fun child => behind[size - 1 - child]?)

/-- The trees of all nodes of an arena, the last one first.  Children follow
their parents, so their trees are there when the parent asks for them. -/
def assembleAll (nodes : Array (Node κ α)) : Array (Region κ α) :=
  nodes.foldr (fun node behind => behind.push (node.assemble nodes.size behind)) #[]

/-- The counts of a finished run. -/
structure Stats where
  iterations : Nat
  regions : Nat
  leaves : Nat
  maxDepth : Nat
  safeguarded : Nat
  embeds : Nat
  deriving DecidableEq

def Progress.stats (progress : Progress κ α) : Stats where
  iterations := progress.iterations
  regions := progress.nodes.size
  leaves := progress.nodes.countP fun node => node.children.isEmpty
  maxDepth := progress.nodes.foldl (fun deepest node => max deepest node.depth) 0
  safeguarded := progress.safeguarded
  embeds := progress.embeds

end Parterre
