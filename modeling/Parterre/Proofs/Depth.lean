/-
How deep a layout gets.  A rank of regions that falls from a region to its pending
children bounds the depth of every state of a run: a region is not deeper than
the rank of the root, and one that is still pending has its own rank to go.
-/
import Parterre.Proofs.Failure
import Parterre.Proofs.WellFormed

namespace Parterre

variable {κ α σ : Type}

@[simp]
theorem Verdict.depth_settled (verdict : Verdict κ α) (node : Node κ α) (first : Nat) :
    (verdict.settled node first).depth = node.depth := by
  rcases verdict with kind | (_ | parts | ⟨frame, feature, margin⟩) <;> rfl

/-- Children are one level deeper, and where there are children there is one to
decide about. -/
theorem Verdict.depth_of_mem_offspring {verdict : Verdict κ α} {depth : Nat} {node : Node κ α}
    (h : node ∈ verdict.offspring depth) : node.depth = depth ∧ verdict.pending ≠ [] := by
  simp only [offspring, List.mem_append, List.mem_map] at h
  rcases h with ⟨part, hpart, rfl⟩ | ⟨part, hpart, rfl⟩
  · exact ⟨rfl, List.ne_nil_of_mem hpart⟩
  · refine ⟨rfl, ?_⟩
    rcases verdict with kind | (_ | parts | ⟨frame, feature, margin⟩)
    case expanded.embedded => exact List.cons_ne_nil _ _
    all_goals cases hpart

/-- A bound of the greatest depth is a bound of all depths. -/
theorem Progress.maxDepth_stats_le_iff {progress : Progress κ α} {limit : Nat} :
    progress.stats.maxDepth ≤ limit ↔
      ∀ (place : Nat) (node : Node κ α), progress.nodes[place]? = some node →
        node.depth ≤ limit := by
  have hfold : ∀ (nodes : List (Node κ α)) (deepest : Nat),
      nodes.foldl (fun deepest node => max deepest node.depth) deepest ≤ limit ↔
        deepest ≤ limit ∧ ∀ node ∈ nodes, node.depth ≤ limit := by
    intro nodes
    induction nodes with
    | nil => simp
    | cons node rest ih =>
        intro deepest
        rw [List.foldl_cons, ih, max_le_iff, List.forall_mem_cons, and_assoc]
  rw [stats, ← Array.foldl_toList, hfold, and_iff_right (Nat.zero_le limit)]
  constructor
  · intro h place node hnode
    exact h node (Array.mem_toList_iff.mpr (Array.mem_of_getElem? hnode))
  · intro h node hnode
    obtain ⟨place, hplace⟩ := Array.mem_iff_getElem?.mp (Array.mem_toList_iff.mp hnode)
    exact h place node hplace

/-- No node is deeper than the limit, and the rank of a pending one does not lead
beyond it. -/
structure Progress.Within (rank : Nat → κ → Rect α → Nat) (limit : Nat)
    (progress : Progress κ α) : Prop where
  depth : ∀ (place : Nat) (node : Node κ α), progress.nodes[place]? = some node →
    node.depth ≤ limit
  pending : ∀ (place : Nat) (node : Node κ α), progress.nodes[place]? = some node →
    node.state = .pending → node.depth + rank node.depth node.kind node.bounds ≤ limit

variable {rank : Nat → κ → Rect α → Nat} {limit : Nat}

theorem Progress.within_start (kind : κ) (bounds : Rect α) :
    (start kind bounds).Within rank (rank 0 kind bounds) where
  depth := by
    intro place node hnode
    obtain ⟨_, rfl⟩ := Array.getElem?_eq_some_iff.mp hnode
    simp [start, Node.pending]
  pending := by
    intro place node hnode _
    obtain ⟨_, rfl⟩ := Array.getElem?_eq_some_iff.mp hnode
    simp [start, Node.pending]

/-- A turn stays within the limit if the rank falls to the pending children. -/
theorem Progress.Within.turn {progress : Progress κ α} {position : Nat} {node : Node κ α}
    {queue : Queue Nat} {verdict : Verdict κ α} (h : progress.Within rank limit)
    (hfaces : progress.Faces position node queue) (hstate : node.state = .pending)
    (hfalls : ∀ part ∈ verdict.pending,
      rank (node.depth + 1) part.1 part.2 < rank node.depth node.kind node.bounds) :
    (progress.turn verdict).Within rank limit := by
  have hnode := h.pending position node hfaces.node hstate
  constructor
  · intro place found hfound
    rcases hfaces.node_turn_cases hfound with ⟨_, _, hold⟩ | ⟨_, rfl⟩ | ⟨offset, _, hnew⟩
    · exact h.depth place found hold
    · rw [Verdict.depth_settled]
      exact h.depth position node hfaces.node
    · obtain ⟨hdepth, hsome⟩ := Verdict.depth_of_mem_offspring (List.mem_of_getElem? hnew)
      obtain ⟨part, hpart⟩ := List.exists_mem_of_ne_nil _ hsome
      have hless := hfalls part hpart
      omega
  · intro place found hfound hpending
    rcases hfaces.node_turn_cases hfound with ⟨_, _, hold⟩ | ⟨_, rfl⟩ | ⟨offset, _, hnew⟩
    · exact h.pending place found hold hpending
    · exact absurd hpending (verdict.state_settled_ne_pending _ _)
    · have hmem := List.mem_of_getElem? hnew
      simp only [Verdict.offspring, List.mem_append, List.mem_map] at hmem
      rcases hmem with ⟨part, hpart, rfl⟩ | ⟨part, _, rfl⟩
      · have hless := hfalls part hpart
        simp only [Node.pending]
        omega
      · cases hpending

namespace Engine

variable [Scalar α] [DecidableEq κ] [RegionKind κ] {engine : Engine κ α} {admits : α → Prop}

/-- All states of a run stay within the rank of the root. -/
theorem Reaches.within (hfalls : engine.Falls admits rank) {kind : κ} {bounds : Rect α}
    (hproper : bounds.Proper) {progress : Progress κ α}
    (h : engine.Reaches admits (.start kind bounds) progress) :
    progress.Within rank (rank 0 kind bounds) := by
  have hstart := Progress.orderly_start kind bounds
  refine Reaches.induct (Progress.within_start kind bounds) ?_ hstart h
  intro progress position node queue verdict hreached horderly hfaces hverdict ih
  have hnode := hreached.proper hstart (Progress.proper_start hproper) hfaces.node
  exact ih.turn hfaces (horderly.front_pending hfaces).1
    (hfalls node.depth node.kind node.bounds verdict hnode hverdict)

/-- The rank of the root bounds the depth of a layout. -/
theorem maxDepth_le_rank [DrawSource σ α] (hfalls : engine.Falls admits rank) {steps : Nat}
    {width height : α} {source after : σ} {generation : Generation κ α}
    (hsource : DrawSource.Delivers admits source)
    (hrun : (engine.run steps width height).run source = (.ok (some generation), after)) :
    generation.stats.maxDepth ≤ rank 0 engine.settings.root ⟨0, 0, width, height⟩ := by
  obtain ⟨hproper, final, hreached, _, rfl⟩ := exists_final_of_delivers hsource hrun
  exact Progress.maxDepth_stats_le_iff.mpr (hreached.within hfalls hproper).depth

end Engine

end Parterre
