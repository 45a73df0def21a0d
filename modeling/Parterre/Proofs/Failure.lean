/-
What a run can fail with.  A failure was raised by the computation itself, after
draws that were all admitted, or it is the failure of one draw of the source.
What a run raises itself is the refusal of its root or of some region that it
reached, so it is enough to know what deciding about one region can raise.
-/
import Parterre.Proofs.Arena
import Parterre.Proofs.Termination

namespace Parterre

variable {κ α β γ σ : Type}

namespace DrawSource

variable [DrawSource σ α]

/-- The source delivers some draws, fails at the next one, and is left in the
second state. -/
def Fails (source after : σ) (failure : LayoutError α) : Prop :=
  ∃ count, (∀ earlier < count, ∃ value, (next (advance^[earlier] source)).1 = .ok value) ∧
    next (advance^[count] source) = (.error failure, after)

theorem fails_of_next {source after : σ} {failure : LayoutError α}
    (h : next source = (.error failure, after)) : Fails source after failure :=
  ⟨0, fun _ hlt => absurd hlt (Nat.not_lt_zero _), h⟩

theorem Fails.of_later {source middle after : σ} {value : α} {failure : LayoutError α}
    (hnext : next source = (.ok value, middle)) (h : Fails middle after failure) :
    Fails source after failure := by
  obtain ⟨count, hearlier, hfailed⟩ := h
  have hmiddle : advance source = middle := by rw [advance, hnext]
  refine ⟨count + 1, fun earlier hlt => ?_, ?_⟩
  · cases earlier with
    | zero => exact ⟨value, by rw [Function.iterate_zero, id, hnext]⟩
    | succ earlier =>
        rw [Function.iterate_succ_apply, hmiddle]
        exact hearlier earlier (Nat.lt_of_succ_lt_succ hlt)
  · rw [Function.iterate_succ_apply, hmiddle]
    exact hfailed

theorem Supplies.not_fails {admits : α → Prop} {source after : σ} (h : Supplies admits source)
    (failure : LayoutError α) : ¬ Fails source after failure := by
  rintro ⟨count, _, hfailed⟩
  obtain ⟨value, hvalue, _⟩ := h count
  rw [hfailed] at hvalue
  cases hvalue

end DrawSource

/-- A failure of a run was raised after admitted draws or comes from the
source. -/
theorem Sampler.failure_of_run {admits : α → Prop} [DrawSource σ α] {sampler : Sampler α β}
    {source after : σ} {failure : LayoutError α}
    (hsource : DrawSource.Delivers admits source)
    (hrun : sampler.run source = (.error failure, after)) :
    Outcome admits sampler (.error failure) ∨ DrawSource.Fails source after failure := by
  induction sampler generalizing source with
  | done result =>
      simp only [run, Prod.mk.injEq] at hrun
      obtain ⟨rfl, rfl⟩ := hrun
      exact Or.inl (.done _)
  | draw rest ih =>
      rw [run] at hrun
      cases hnext : DrawSource.next source with
      | mk result middle =>
          rw [hnext] at hrun
          cases result with
          | error other =>
              simp only [Prod.mk.injEq, Except.error.injEq] at hrun
              obtain ⟨rfl, rfl⟩ := hrun
              exact Or.inr (DrawSource.fails_of_next hnext)
          | ok drawn =>
              rcases ih drawn (hsource.tail hnext) hrun with houtcome | hfails
              · exact Or.inl (.draw (hsource.head hnext) houtcome)
              · exact Or.inr (hfails.of_later hnext)

variable [Scalar α]

theorem Progress.proper_start {kind : κ} {bounds : Rect α} (h : bounds.Proper) (place : Nat)
    (node : Node κ α) (hnode : (start kind bounds).nodes[place]? = some node) :
    node.bounds.Proper := by
  obtain ⟨_, rfl⟩ := Array.getElem?_eq_some_iff.mp hnode
  simp [start, Node.pending, h]

namespace Engine

variable [DecidableEq κ] [RegionKind κ] {engine : Engine κ α} {admits : α → Prop}

/-- Every region that a run of a proper rectangle reaches is proper. -/
theorem Reaches.proper {origin progress : Progress κ α} (horigin : origin.Orderly)
    (hproper : ∀ (place : Nat) (node : Node κ α), origin.nodes[place]? = some node →
      node.bounds.Proper)
    (h : engine.Reaches admits origin progress) {place : Nat} {node : Node κ α}
    (hnode : progress.nodes[place]? = some node) : node.bounds.Proper := by
  suffices hall : ∀ (place : Nat) (node : Node κ α), progress.nodes[place]? = some node →
      node.bounds.Proper from hall place node hnode
  refine Reaches.induct (motive := fun progress => ∀ (place : Nat) (node : Node κ α),
    progress.nodes[place]? = some node → node.bounds.Proper) hproper ?_ horigin h
  intro progress position front queue verdict _ _ hfaces hverdict ih place node hnode
  rcases hfaces.node_turn_cases hnode with
    ⟨_, _, hold⟩ | ⟨_, rfl⟩ | ⟨offset, _, hnew⟩
  · exact ih place node hold
  · rw [Verdict.bounds_settled]
    exact ih position front hfaces.node
  · have hmem := List.mem_of_getElem? hnew
    simp only [Verdict.offspring, List.mem_append, List.mem_map] at hmem
    rcases hmem with ⟨part, hpart, rfl⟩ | ⟨part, hpart, rfl⟩
    · exact proper_of_judge hverdict (ih position front hfaces.node) hpart
    · cases fits_of_outcome hverdict with
      | embedded _ hinset =>
          obtain rfl := List.mem_singleton.mp hpart
          exact (Rect.inset_eq_ok_iff.mp hinset).2.2
      | stopped | final | tiled => cases hpart

/-- A failure of processing is a failure to decide about a region it
reached. -/
theorem exists_judge_of_process {limit : Nat} {progress : Progress κ α}
    {failure : LayoutError α} (horderly : progress.Orderly)
    (h : Sampler.Outcome admits (engine.process limit progress) (.error failure)) :
    ∃ reached position node queue, engine.Reaches admits progress reached ∧
      reached.Faces position node queue ∧
      Sampler.Outcome admits (engine.judge node.kind node.bounds node.depth)
        (.error failure) := by
  induction limit generalizing progress with
  | zero =>
      by_cases hempty : progress.queue.toList = []
      · rw [process_of_empty engine 0 hempty] at h
        simp at h
      · rw [process_zero engine hempty] at h
        simp at h
  | succ limit ih =>
      by_cases hempty : progress.queue.toList = []
      · rw [process_of_empty engine _ hempty] at h
        simp at h
      · obtain ⟨position, node, queue, hfaces⟩ := horderly.exists_front hempty
        rw [process_turn engine limit hfaces, Sampler.outcome_bind_error_iff] at h
        rcases h with hfailed | ⟨verdict, hverdict, hlater⟩
        · exact ⟨progress, position, node, queue, .start, hfaces, hfailed⟩
        · have hturn := horderly.turn hfaces (fits_of_outcome hverdict)
          obtain ⟨reached, place, found, rest, hreached, hfront, hfailed⟩ := ih hturn hlater
          have hnext : engine.Reaches admits progress (progress.turn verdict) :=
            Reaches.start.turn_of_judge hfaces hverdict
          exact ⟨reached, place, found, rest, hnext.trans hreached, hfront, hfailed⟩

/-- A run is refused at its root, or at a proper region that it reached. -/
theorem exists_judge_of_run {limit : Nat} {width length : α} {failure : LayoutError α}
    (h : Sampler.Outcome admits (engine.run limit width length) (.error failure)) :
    Rect.checked ⟨0, 0, width, length⟩ = .error failure ∨
      ∃ reached position node queue,
        engine.Reaches admits (.start engine.settings.root ⟨0, 0, width, length⟩) reached ∧
        reached.Faces position node queue ∧ node.bounds.Proper ∧
        Sampler.Outcome admits (engine.judge node.kind node.bounds node.depth)
          (.error failure) := by
  simp only [run, Sampler.outcome_bind_error_iff, Sampler.outcome_lift_iff,
    Sampler.outcome_pure_iff, reduceCtorEq, and_false, exists_false, or_false] at h
  rcases h with hrefused | ⟨bounds, hbounds, hprocess⟩
  · exact Or.inl hrefused.symm
  · obtain ⟨rfl, hproper⟩ := Rect.checked_eq_ok_iff.mp hbounds.symm
    have horderly := Progress.orderly_start engine.settings.root
      (⟨0, 0, width, length⟩ : Rect α)
    obtain ⟨reached, position, node, queue, hreached, hfaces, hfailed⟩ :=
      exists_judge_of_process horderly hprocess
    refine Or.inr ⟨reached, position, node, queue, hreached, hfaces, ?_, hfailed⟩
    exact hreached.proper horderly (Progress.proper_start hproper) hfaces.node

end Engine

end Parterre
