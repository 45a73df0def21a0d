/-
The order of depths.  Children are one level deeper than their parents, and the
queue holds regions of one depth with regions of the next depth behind them.  So
a run decides about its regions in the order of their depths.
-/
import Parterre.Proofs.Depth
import Parterre.Proofs.Draws

namespace Parterre

variable {κ α σ : Type}

namespace Progress

/-- The node at the position is so many levels below the root. -/
def HasDepth (progress : Progress κ α) (position depth : Nat) : Prop :=
  progress.nodes[position]?.map Node.depth = some depth

/-- Children are one level below their parents, and the first node is on top. -/
structure Deepens (progress : Progress κ α) : Prop where
  root : progress.HasDepth 0 0
  child : ∀ (place : Nat) (node : Node κ α), progress.nodes[place]? = some node →
    ∀ child ∈ node.children, progress.HasDepth child (node.depth + 1)

/-- The queue holds regions of one depth, then regions of the next one. -/
def Layered (progress : Progress κ α) : Prop :=
  ∃ depth first second, progress.queue.toList = first ++ second ∧
    (∀ place ∈ first, progress.HasDepth place depth) ∧
    ∀ place ∈ second, progress.HasDepth place (depth + 1)

theorem hasDepth_of_node {progress : Progress κ α} {position : Nat} {node : Node κ α}
    (h : progress.nodes[position]? = some node) : progress.HasDepth position node.depth := by
  rw [HasDepth, h, Option.map_some]

theorem HasDepth.unique {progress : Progress κ α} {position depth other : Nat}
    (h : progress.HasDepth position depth) (h' : progress.HasDepth position other) :
    depth = other := by
  rw [HasDepth, h, Option.some.injEq] at h'
  exact h'

theorem deepens_start (kind : κ) (bounds : Rect α) : (start kind bounds).Deepens where
  root := rfl
  child := by
    intro place node hnode child hchild
    obtain ⟨_, rfl⟩ := Array.getElem?_eq_some_iff.mp hnode
    simp [start, Node.pending] at hchild

theorem layered_start (kind : κ) (bounds : Rect α) : (start kind bounds).Layered := by
  refine ⟨0, [0], [], rfl, ?_, by simp⟩
  intro place hplace
  obtain rfl := List.mem_singleton.mp hplace
  exact (deepens_start kind bounds).root

variable {progress : Progress κ α} {position : Nat} {node : Node κ α} {queue : Queue Nat}

/-- A turn changes no depth. -/
theorem Faces.hasDepth_turn (h : progress.Faces position node queue) (verdict : Verdict κ α)
    {place depth : Nat} (hdepth : progress.HasDepth place depth) :
    (progress.turn verdict).HasDepth place depth := by
  obtain ⟨found, hfound, rfl⟩ := Option.map_eq_some_iff.mp hdepth
  by_cases heq : place = position
  · subst heq
    rw [h.node, Option.some.injEq] at hfound
    rw [HasDepth, h.getElem?_turn_self verdict, Option.map_some, Verdict.depth_settled, hfound]
  · have hlt := (Array.getElem?_eq_some_iff.mp hfound).1
    rw [HasDepth, h.getElem?_turn_of_ne verdict heq hlt, hfound, Option.map_some]

/-- The offspring of a turn is one level below the region at the front. -/
theorem Faces.hasDepth_offspring (h : progress.Faces position node queue)
    (verdict : Verdict κ α) {place : Nat} (hle : progress.nodes.size ≤ place)
    (hlt : place < progress.nodes.size + (verdict.pending.length + verdict.features.length)) :
    (progress.turn verdict).HasDepth place (node.depth + 1) := by
  obtain ⟨offset, rfl⟩ := Nat.exists_eq_add_of_le hle
  have hoffset : offset < (verdict.offspring (node.depth + 1)).length := by
    rw [Verdict.length_offspring]
    omega
  rw [HasDepth, h.getElem?_turn_new, List.getElem?_eq_getElem hoffset, Option.map_some,
    (Verdict.depth_of_mem_offspring (List.getElem_mem hoffset)).1]

theorem Deepens.turn [Scalar α] {verdict : Verdict κ α} (h : progress.Deepens)
    (horderly : progress.Orderly) (hfaces : progress.Faces position node queue) :
    (progress.turn verdict).Deepens where
  root := hfaces.hasDepth_turn verdict h.root
  child := by
    intro place found hfound child hchild
    rcases hfaces.node_turn_cases hfound with ⟨_, _, hold⟩ | ⟨_, rfl⟩ | ⟨offset, _, hnew⟩
    · exact hfaces.hasDepth_turn verdict (h.child place found hold child hchild)
    · obtain ⟨_, _, hnone⟩ := horderly.front_pending hfaces
      rw [Verdict.children_settled verdict _ hnone, List.mem_range'_1] at hchild
      rw [Verdict.depth_settled]
      exact hfaces.hasDepth_offspring verdict hchild.1 hchild.2
    · rw [Verdict.children_of_mem_offspring (List.mem_of_getElem? hnew)] at hchild
      cases hchild

/-- Behind the front stand regions of its depth, then regions of the next one. -/
theorem Layered.behind_front (h : progress.Layered)
    (hfaces : progress.Faces position node queue) :
    ∃ first second, queue.toList = first ++ second ∧
      (∀ place ∈ first, progress.HasDepth place node.depth) ∧
      ∀ place ∈ second, progress.HasDepth place (node.depth + 1) := by
  obtain ⟨depth, first, second, hqueue, hfirst, hsecond⟩ := h
  have hfront := hasDepth_of_node hfaces.node
  rw [hfaces.toList_queue] at hqueue
  rcases List.cons_eq_append_iff.mp hqueue with ⟨rfl, rfl⟩ | ⟨rest, rfl, hrest⟩
  · -- the first of the two depths is used up
    obtain ⟨hhead, hothers⟩ := List.forall_mem_cons.mp hsecond
    rw [hhead.unique hfront] at hothers
    exact ⟨queue.toList, [], (List.append_nil _).symm, hothers, by simp⟩
  · obtain ⟨hhead, hothers⟩ := List.forall_mem_cons.mp hfirst
    obtain rfl := hhead.unique hfront
    exact ⟨rest, second, hrest, hothers, hsecond⟩

/-- Nothing in the queue is higher up than the front. -/
theorem Layered.front_le (h : progress.Layered) (hfaces : progress.Faces position node queue)
    {place : Nat} (hplace : place ∈ progress.queue.toList) :
    ∃ depth, progress.HasDepth place depth ∧ node.depth ≤ depth := by
  obtain ⟨first, second, hqueue, hfirst, hsecond⟩ := h.behind_front hfaces
  rw [hfaces.toList_queue, hqueue] at hplace
  rcases List.mem_cons.mp hplace with rfl | hbehind
  · exact ⟨node.depth, hasDepth_of_node hfaces.node, Nat.le_refl _⟩
  · rcases List.mem_append.mp hbehind with hmem | hmem
    · exact ⟨node.depth, hfirst place hmem, Nat.le_refl _⟩
    · exact ⟨node.depth + 1, hsecond place hmem, Nat.le_succ _⟩

/-- The children of the front join the regions of the next depth. -/
theorem Layered.behind_turn (h : progress.Layered)
    (hfaces : progress.Faces position node queue) (verdict : Verdict κ α) :
    ∃ first second, (progress.turn verdict).queue.toList = first ++ second ∧
      (∀ place ∈ first, (progress.turn verdict).HasDepth place node.depth) ∧
      ∀ place ∈ second, (progress.turn verdict).HasDepth place (node.depth + 1) := by
  obtain ⟨first, second, hqueue, hfirst, hsecond⟩ := h.behind_front hfaces
  refine ⟨first, second ++ List.range' progress.nodes.size verdict.pending.length, ?_, ?_, ?_⟩
  · rw [hfaces.queue_turn, hqueue, List.append_assoc]
  · intro place hplace
    exact hfaces.hasDepth_turn verdict (hfirst place hplace)
  · intro place hplace
    rcases List.mem_append.mp hplace with hold | hnew
    · exact hfaces.hasDepth_turn verdict (hsecond place hold)
    · rw [List.mem_range'_1] at hnew
      exact hfaces.hasDepth_offspring verdict hnew.1 (by omega)

theorem Layered.turn (h : progress.Layered) (hfaces : progress.Faces position node queue)
    (verdict : Verdict κ α) : (progress.turn verdict).Layered :=
  ⟨node.depth, h.behind_turn hfaces verdict⟩

/-- The next front is not higher up than the last one. -/
theorem Layered.front_mono (h : progress.Layered) (hfaces : progress.Faces position node queue)
    {verdict : Verdict κ α} {next : Nat} {later : Node κ α} {rest : Queue Nat}
    (hnext : (progress.turn verdict).Faces next later rest) : node.depth ≤ later.depth := by
  obtain ⟨first, second, hqueue, hfirst, hsecond⟩ := h.behind_turn hfaces verdict
  have hlater := hasDepth_of_node hnext.node
  have hmem : next ∈ first ++ second := by
    rw [← hqueue, hnext.toList_queue]
    exact List.mem_cons_self
  rcases List.mem_append.mp hmem with hmem | hmem
  · exact Nat.le_of_eq ((hfirst next hmem).unique hlater)
  · exact (Nat.le_succ _).trans (Nat.le_of_eq ((hsecond next hmem).unique hlater))

end Progress

namespace Engine

variable [DecidableEq κ] [RegionKind κ] [Scalar α]

theorem Reaches.deepens {engine : Engine κ α} {admits : α → Prop} {origin progress : Progress κ α}
    (horigin : origin.Orderly) (hdeepens : origin.Deepens)
    (h : engine.Reaches admits origin progress) : progress.Deepens := by
  refine Reaches.induct hdeepens ?_ horigin h
  intro progress position node queue verdict _ horderly hfaces _ ih
  exact ih.turn horderly hfaces

theorem Reaches.layered {engine : Engine κ α} {admits : α → Prop} {origin progress : Progress κ α}
    (horigin : origin.Orderly) (hlayered : origin.Layered)
    (h : engine.Reaches admits origin progress) : progress.Layered := by
  refine Reaches.induct hlayered ?_ horigin h
  intro progress position node queue verdict _ _ hfaces _ ih
  exact ih.turn hfaces verdict

variable [DrawSource σ α]

/-- The states of a run of a source, each with what is left of the source. -/
inductive Passes (engine : Engine κ α) (origin : Progress κ α) (source : σ) :
    Progress κ α → σ → Prop
  | start : Passes engine origin source origin source
  | turn {progress : Progress κ α} {position : Nat} {node : Node κ α} {queue : Queue Nat}
      {verdict : Verdict κ α} {middle after : σ}
      (hpassed : Passes engine origin source progress middle)
      (hfaces : progress.Faces position node queue)
      (hverdict : (engine.judge node.kind node.bounds node.depth).run middle =
        (.ok verdict, after)) :
      Passes engine origin source (progress.turn verdict) after

/-- The run gets to a region of the depth and fails to decide about it. -/
def FailsAt (engine : Engine κ α) (width length : α) (source : σ) (depth : Nat)
    (failure : LayoutError α) (after : σ) : Prop :=
  Rect.checked (⟨0, 0, width, length⟩ : Rect α) = .ok ⟨0, 0, width, length⟩ ∧
    ∃ progress middle position node queue,
      engine.Passes (.start engine.settings.root ⟨0, 0, width, length⟩) source progress middle ∧
      progress.Faces position node queue ∧ node.depth = depth ∧
      (engine.judge node.kind node.bounds node.depth).run middle = (.error failure, after)

namespace Passes

variable {engine : Engine κ α} {origin progress : Progress κ α} {source middle : σ}

theorem trans {later : Progress κ α} {after : σ} (h : engine.Passes origin source progress middle)
    (h' : engine.Passes progress middle later after) :
    engine.Passes origin source later after := by
  induction h' with
  | start => exact h
  | turn _ hfaces hverdict ih => exact .turn ih hfaces hverdict

theorem reaches (h : engine.Passes origin source progress middle) :
    engine.Reaches (fun _ => True) origin progress := by
  induction h with
  | start => exact .start
  | turn _ hfaces hverdict ih =>
      obtain ⟨houtcome, _⟩ :=
        Sampler.outcome_of_run (DrawSource.delivers_any _) hverdict
      exact ih.turn_of_judge hfaces houtcome

theorem supplies {admits : α → Prop} (h : engine.Passes origin source progress middle)
    (hsource : DrawSource.Supplies admits source) : DrawSource.Supplies admits middle := by
  induction h with
  | start => exact hsource
  | turn _ _ hverdict ih => exact Sampler.supplies_of_run ih hverdict

/-- Processing goes through the states that the run passes. -/
theorem exists_turns (h : engine.Passes origin source progress middle) :
    ∃ turns, ∀ more, (engine.process (more + turns) origin).run source =
      (engine.process more progress).run middle := by
  induction h with
  | start => exact ⟨0, fun _ => rfl⟩
  | turn _ hfaces hverdict ih =>
      obtain ⟨turns, hturns⟩ := ih
      refine ⟨turns + 1, fun more => ?_⟩
      rw [← Nat.add_assoc, Nat.add_right_comm, hturns (more + 1), process_turn engine more hfaces,
        Sampler.run_bind, hverdict]

end Passes

variable {engine : Engine κ α} {width length : α} {source after : σ} {failure : LayoutError α}

/-- Processing that fails has got to a region that it fails to decide about. -/
theorem exists_passes_of_process {limit : Nat} {origin : Progress κ α} (horderly : origin.Orderly)
    (h : (engine.process limit origin).run source = (.error failure, after)) :
    ∃ progress middle position node queue, engine.Passes origin source progress middle ∧
      progress.Faces position node queue ∧
      (engine.judge node.kind node.bounds node.depth).run middle = (.error failure, after) := by
  induction limit generalizing origin source with
  | zero =>
      by_cases hempty : origin.queue.toList = []
      · rw [process_of_empty engine 0 hempty] at h
        cases h
      · rw [process_zero engine hempty] at h
        cases h
  | succ limit ih =>
      by_cases hempty : origin.queue.toList = []
      · rw [process_of_empty engine _ hempty] at h
        cases h
      · obtain ⟨position, node, queue, hfaces⟩ := horderly.exists_front hempty
        rw [process_turn engine limit hfaces, Sampler.run_bind] at h
        rcases hverdict : (engine.judge node.kind node.bounds node.depth).run source
          with ⟨other | verdict, middle⟩
        · rw [hverdict] at h
          cases h
          exact ⟨origin, source, position, node, queue, .start, hfaces, hverdict⟩
        · rw [hverdict] at h
          obtain ⟨houtcome, _⟩ := Sampler.outcome_of_run (DrawSource.delivers_any _) hverdict
          have hturn := horderly.turn hfaces (fits_of_outcome houtcome)
          obtain ⟨reached, rest, place, found, others, hpassed, hfront, hfailed⟩ := ih hturn h
          exact ⟨reached, rest, place, found, others,
            (Passes.start.turn hfaces hverdict).trans hpassed, hfront, hfailed⟩

/-- A run that gets to a region that it fails to decide about fails. -/
theorem FailsAt.exists_limit {depth : Nat}
    (h : engine.FailsAt width length source depth failure after) :
    ∃ enough, ∀ more ≥ enough,
      (engine.run more width length).run source = (.error failure, after) := by
  obtain ⟨hbounds, progress, middle, position, node, queue, hpassed, hfaces, _, hfailed⟩ := h
  obtain ⟨turns, hturns⟩ := hpassed.exists_turns
  refine ⟨1 + turns, fun more hmore => ?_⟩
  have hprocess : (engine.process (1 + turns)
      (.start engine.settings.root ⟨0, 0, width, length⟩)).run source =
        (.error failure, after) := by
    rw [hturns 1, process_turn engine 0 hfaces, Sampler.run_bind, hfailed]
  exact run_of_checked hbounds (process_of_le hmore hprocess (by simp))

/-- A run fails if and only if its rectangle is refused or it gets to a region that
it fails to decide about. -/
theorem run_fails_iff :
    (∃ limit, (engine.run limit width length).run source = (.error failure, after)) ↔
      (Rect.checked (⟨0, 0, width, length⟩ : Rect α) = .error failure ∧ source = after) ∨
        ∃ depth, engine.FailsAt width length source depth failure after := by
  constructor
  · rintro ⟨limit, hrun⟩
    cases hbounds : Rect.checked (⟨0, 0, width, length⟩ : Rect α) with
    | error other =>
        rw [(run_of_refused engine hbounds limit 0 source).1, Prod.mk.injEq,
          Except.error.injEq] at hrun
        exact Or.inl ⟨congrArg Except.error hrun.1, hrun.2⟩
    | ok bounds =>
        obtain ⟨rfl, _⟩ := Rect.checked_eq_ok_iff.mp hbounds
        rcases hprocess : (engine.process limit
          (.start engine.settings.root ⟨0, 0, width, length⟩)).run source with ⟨other | final, last⟩
        all_goals
          rw [run_of_checked hbounds hprocess] at hrun
          cases hrun
        obtain ⟨progress, middle, position, node, queue, hpassed, hfaces, hfailed⟩ :=
          exists_passes_of_process (Progress.orderly_start _ _) hprocess
        exact Or.inr ⟨node.depth, hbounds, progress, middle, position, node, queue, hpassed,
          hfaces, rfl, hfailed⟩
  · rintro (⟨hrefused, rfl⟩ | ⟨depth, hfails⟩)
    · exact ⟨0, (run_of_refused engine hrefused 0 0 source).1⟩
    · obtain ⟨enough, henough⟩ := hfails.exists_limit
      exact ⟨enough, henough enough (Nat.le_refl _)⟩

end Engine

end Parterre
