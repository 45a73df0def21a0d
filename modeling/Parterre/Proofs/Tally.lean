/-
What the counters of a run count.  Every turn of the queue adds one verdict to
them, so at the end they hold the verdicts on all regions that were decided
about, and these are the verdicts of the lineage.
-/
import Parterre.Proofs.Lineage

namespace Parterre

variable {κ α σ : Type}

namespace Verdict

def isStopped : Verdict κ α → Bool
  | .stopped _ => true
  | _ => false

def isEmbedding : Verdict κ α → Bool
  | .expanded (.embedded ..) => true
  | _ => false

end Verdict

namespace Lineage

mutual

/-- The verdict on a region, then those on the regions below it. -/
def verdicts : Lineage κ α → List (Verdict κ α)
  | .node region children => region.verdict :: verdictsAll children

def verdictsAll : List (Lineage κ α) → List (Verdict κ α)
  | [] => []
  | line :: rest => line.verdicts ++ verdictsAll rest

end

theorem verdictsAll_append (first second : List (Lineage κ α)) :
    verdictsAll (first ++ second) = verdictsAll first ++ verdictsAll second := by
  induction first with
  | nil => rfl
  | cons line rest ih => rw [List.cons_append, verdictsAll, ih, verdictsAll, List.append_assoc]

/-- Handing out lineages to a level adds the verdicts on the level. -/
theorem verdictsAll_joinAll_perm {judged : List (Judged κ α)} {lines : List (Lineage κ α)}
    (hlines : lines.length = (judged.flatMap fun region => region.verdict.pending).length) :
    (verdictsAll (joinAll judged lines)).Perm
      (judged.map Judged.verdict ++ verdictsAll lines) := by
  induction judged generalizing lines with
  | nil =>
      rw [List.length_eq_zero_iff.mp hlines]
      rfl
  | cons region rest ih =>
      rw [List.flatMap_cons, List.length_append] at hlines
      have hlater : (lines.drop region.verdict.pending.length).length =
          (rest.flatMap fun region => region.verdict.pending).length := by
        rw [List.length_drop, hlines, Nat.add_sub_cancel_left]
      have hsplit : verdictsAll lines = verdictsAll (lines.take region.verdict.pending.length) ++
          verdictsAll (lines.drop region.verdict.pending.length) := by
        rw [← verdictsAll_append, List.take_append_drop]
      rw [joinAll, verdictsAll, verdicts, List.map_cons, List.cons_append, List.cons_append,
        List.perm_cons, hsplit]
      exact ((ih hlater).append_left _).trans (List.perm_append_comm_assoc _ _ _)

end Lineage

namespace Progress

/-- Between two states of a run the counters went up by the verdicts. -/
structure Counts (progress later : Progress κ α) (verdicts : List (Verdict κ α)) : Prop where
  iterations : later.iterations = progress.iterations + verdicts.length
  safeguarded : later.safeguarded = progress.safeguarded + verdicts.countP Verdict.isStopped
  embeds : later.embeds = progress.embeds + verdicts.countP Verdict.isEmbedding

theorem Counts.refl (progress : Progress κ α) : progress.Counts progress [] := by
  constructor <;> rfl

theorem Counts.trans {first second third : Progress κ α} {verdicts others : List (Verdict κ α)}
    (h : first.Counts second verdicts) (h' : second.Counts third others) :
    first.Counts third (verdicts ++ others) where
  iterations := by rw [h'.iterations, h.iterations, List.length_append, Nat.add_assoc]
  safeguarded := by rw [h'.safeguarded, h.safeguarded, List.countP_append, Nat.add_assoc]
  embeds := by rw [h'.embeds, h.embeds, List.countP_append, Nat.add_assoc]

theorem Counts.perm {progress later : Progress κ α} {verdicts others : List (Verdict κ α)}
    (h : progress.Counts later verdicts) (hperm : verdicts.Perm others) :
    progress.Counts later others where
  iterations := by rw [h.iterations, hperm.length_eq]
  safeguarded := by rw [h.safeguarded, hperm.countP_eq]
  embeds := by rw [h.embeds, hperm.countP_eq]

variable {progress : Progress κ α}

/-- Adding nodes changes the arena and the queue only. -/
theorem exists_foldl_add_eq (progress : Progress κ α) (parts : List (κ × Rect α)) (depth : Nat) :
    ∃ nodes queue, parts.foldl
      (fun progress part => progress.add (.pending part.1 part.2 depth)) progress =
        { progress with nodes, queue } := by
  induction parts generalizing progress with
  | nil => exact ⟨progress.nodes, progress.queue, rfl⟩
  | cons part rest ih =>
      obtain ⟨nodes, queue, hfold⟩ := ih (progress.add (.pending part.1 part.2 depth))
      exact ⟨nodes, queue, hfold⟩

/-- A turn counts its verdict. -/
theorem Faces.counts_turn {position : Nat} {node : Node κ α} {queue : Queue Nat}
    (h : progress.Faces position node queue) (verdict : Verdict κ α) :
    progress.Counts (progress.turn verdict) [verdict] := by
  rw [h.turn_eq]
  rcases verdict with kind | (_ | parts | ⟨frame, feature, margin⟩)
  · constructor <;> rfl
  · constructor <;> rfl
  · rw [record, divide]
    obtain ⟨nodes, rest, hfold⟩ := exists_foldl_add_eq
      { progress with queue, iterations := progress.iterations + 1 } parts (node.depth + 1)
    simp only [hfold]
    constructor <;> rfl
  · constructor <;> rfl

/-- Working off a level counts the verdicts on its regions. -/
theorem Queued.counts_afterLevel {depth : Nat} {positions next : List Nat}
    {judged : List (Judged κ α)} (h : progress.Queued)
    (hqueue : progress.queue.toList = positions ++ next)
    (hwait : progress.Awaits depth positions
      (judged.map fun region => (region.kind, region.bounds))) :
    progress.Counts (progress.afterLevel judged) (judged.map Judged.verdict) := by
  induction judged generalizing progress positions next with
  | nil => exact .refl progress
  | cons region rest ih =>
      obtain ⟨position, others, queue, rfl, hfaces, hlist, hothers⟩ :=
        exists_faces_of_awaits hqueue hwait
      have hrest := ih (h.turn hfaces region.verdict)
        (by rw [hfaces.queue_turn, hlist, List.append_assoc])
        (h.awaits_turn hfaces region.verdict hothers fun place hmem =>
          hlist.symm ▸ List.mem_append_left _ hmem)
      exact (hfaces.counts_turn region.verdict).trans hrest

end Progress

namespace Engine

variable [DecidableEq κ] [RegionKind κ] [Scalar α] [DrawSource σ α] {engine : Engine κ α}

/-- Processing that ends leaves the trees of some lineages at the positions of the
level in the queue, and has counted the verdicts of these lineages. -/
theorem exists_lines_of_process {limit depth : Nat} {progress final : Progress κ α}
    {regions : List (κ × Rect α)} {source after : σ} (hqueued : progress.Queued)
    (hwait : progress.Awaits depth progress.queue.toList regions)
    (hprocess : (engine.process limit progress).run source = (.ok (some final), after)) :
    ∃ lines, lines.map Lineage.given = regions ∧
      (∀ line ∈ lines, engine.Records (fun _ => True) depth line) ∧
      progress.Keeps final ∧
      List.Forall₂ (Region.StandsAt final.nodes) progress.queue.toList
        (Lineage.treeAll lines) ∧
      progress.Counts final (Lineage.verdictsAll lines) := by
  induction limit using Nat.strong_induction_on generalizing depth progress regions source with
  | _ limit ih =>
      by_cases hregions : regions = []
      · subst hregions
        have hempty := List.forall₂_nil_right_iff.mp hwait
        rw [process_of_empty engine limit hempty] at hprocess
        cases hprocess
        refine ⟨[], rfl, by simp, .refl _, ?_, .refl _⟩
        rw [hempty]
        exact .nil
      have hlimit : progress.queue.toList.length ≤ limit := by
        by_contra hshort
        obtain ⟨failure, hfailed, _⟩ := failed_of_process hqueued hwait (Nat.lt_of_not_le hshort)
          hprocess (by simp)
        cases hfailed
      obtain ⟨rest, rfl⟩ := Nat.exists_eq_add_of_le' hlimit
      rw [engine.process_level rest hqueued (List.append_nil _).symm hwait,
        Sampler.run_bind] at hprocess
      rcases hjudged : (engine.judgeLevel depth regions).run source with ⟨failure | judged, middle⟩
      · rw [hjudged] at hprocess
        cases hprocess
      · rw [hjudged] at hprocess
        obtain ⟨hnext, hawaits, hkeeps, hdecided⟩ := next_level hqueued hwait hjudged
        have hpositive : 0 < progress.queue.toList.length := by
          rw [hwait.length_eq]
          exact List.length_pos_iff.mpr hregions
        -- the lineages of the next level are handed out to the regions of this one
        obtain ⟨below, hgiven, hrecords, hlater, htrees, hcounts⟩ :=
          ih rest (by omega) hnext hawaits hprocess
        obtain ⟨houtcome, _⟩ := Sampler.outcome_of_run (DrawSource.delivers_any source) hjudged
        have hmap := map_of_outcome_judgeLevel houtcome
        refine ⟨Lineage.joinAll judged below, ?_, records_joinAll ?_ hgiven hrecords,
          hkeeps.trans hlater, ?_, ?_⟩
        · rw [Lineage.given_joinAll, hmap]
        · intro region hregion
          obtain ⟨_, _, _, hverdict⟩ :=
            exists_of_forall₂_of_mem (forall₂_of_outcome_judgeLevel houtcome) hregion
          exact hverdict
        · rw [Lineage.treeAll_joinAll]
          exact (hdecided.mono hlater).standsAt htrees
        · have hlevel : progress.Counts (progress.afterLevel judged)
              (judged.map Judged.verdict) := by
            rw [← hmap] at hwait
            exact hqueued.counts_afterLevel (List.append_nil _).symm hwait
          have hlength := congrArg List.length hgiven
          rw [List.length_map] at hlength
          exact (hlevel.trans hcounts).perm (Lineage.verdictsAll_joinAll_perm hlength).symm

end Engine

end Parterre
