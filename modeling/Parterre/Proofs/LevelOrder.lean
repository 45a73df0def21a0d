/-
Working off the queue is expanding level by level.  As long as a level is in
the queue both take the same draws, so they fail together; and when the queue
is empty, the positions of a level carry the trees that the levels below are
grafted to.
-/
import Parterre.Proofs.Level
import Parterre.Proofs.WellFormed

namespace Parterre

variable {κ α σ : Type}

/-- A settled region with the trees of its pending children is the tree of its
position. -/
theorem Progress.Holds.standsAt_graft {progress : Progress κ α}
    {position first depth : Nat} {kind : κ} {bounds : Rect α} {verdict : Verdict κ α}
    {below : List (Region κ α)}
    (h : progress.Holds position
      (verdict.settled (.pending kind bounds depth) first))
    (hfeatures : ∀ offset part, verdict.features[offset]? = some part →
      progress.Holds (first + (verdict.pending.length + offset))
        { Node.pending part.1 part.2 (depth + 1) with state := .terminal })
    (hbelow : List.Forall₂ (Region.StandsAt progress.nodes)
      (List.range' first verdict.pending.length) below) :
    (verdict.graft kind bounds below).StandsAt progress.nodes position := by
  rcases verdict with replacement | (_ | parts | ⟨frame, feature, margin⟩)
  · exact .node h.1 .nil
  · exact .node h.1 .nil
  · exact .node h.1 hbelow
  · have hfeature : Region.StandsAt progress.nodes (first + 1)
        (.final feature.1 feature.2) := .node (hfeatures 0 feature rfl).1 .nil
    exact .node h.1 (List.rel_append hbelow (.cons hfeature .nil))

/-- The trees of the pending children, grafted under the settled regions of a
level, are the trees of its positions. -/
theorem Progress.Decided.standsAt {progress : Progress κ α} {depth : Nat}
    {positions fresh : List Nat} {judged : List (Judged κ α)}
    {below : List (Region κ α)} (h : progress.Decided depth positions judged fresh)
    (hbelow : List.Forall₂ (Region.StandsAt progress.nodes) fresh below) :
    List.Forall₂ (Region.StandsAt progress.nodes) positions
      (graftAll judged below) := by
  induction h generalizing below with
  | nil => exact .nil
  | @cons position first positions region rest fresh hsettled hfeatures _ ih =>
      have hlength : (List.range' first region.verdict.pending.length).length =
          region.verdict.pending.length := List.length_range'
      have hown := List.forall₂_take_append _ _ _ hbelow.flip
      have hothers := List.forall₂_drop_append _ _ _ hbelow.flip
      rw [hlength] at hown hothers
      rw [graftAll]
      exact .cons (hsettled.standsAt_graft hfeatures hown.flip) (ih hothers.flip)

namespace Engine

variable [DecidableEq κ] [RegionKind κ] [Scalar α]

/-- Processing decides about a level from left to right and goes on after
it. -/
theorem process_level (engine : Engine κ α) (limit : Nat) {progress : Progress κ α}
    {depth : Nat} {positions next : List Nat} {regions : List (κ × Rect α)}
    (hqueued : progress.Queued) (hqueue : progress.queue.toList = positions ++ next)
    (hwait : progress.Awaits depth positions regions) :
    engine.process (limit + positions.length) progress =
      engine.judgeLevel depth regions >>= fun judged =>
        engine.process limit (progress.afterLevel judged) := by
  induction regions generalizing progress positions next with
  | nil =>
      cases hwait
      rfl
  | cons region rest ih =>
      obtain ⟨kind, bounds⟩ := region
      obtain ⟨position, others, queue, rfl, hfaces, hlist, hothers⟩ :=
        Progress.exists_faces_of_awaits hqueue hwait
      rw [List.length_cons, ← Nat.add_assoc, engine.process_turn _ hfaces, judgeLevel,
        bind_assoc]
      congr 1
      funext verdict
      rw [ih (hqueued.turn hfaces verdict)
        (by rw [hfaces.queue_turn, hlist, List.append_assoc])
        (hqueued.awaits_turn hfaces verdict hothers fun place hmem =>
          hlist.symm ▸ List.mem_append_left _ hmem), bind_assoc]
      rfl

theorem judgeLevel_append (engine : Engine κ α) (depth : Nat)
    (first second : List (κ × Rect α)) :
    engine.judgeLevel depth (first ++ second) =
      engine.judgeLevel depth first >>= fun judged =>
        engine.judgeLevel depth second >>= fun others => pure (judged ++ others) := by
  induction first with
  | nil => simp [judgeLevel]
  | cons region rest ih =>
      obtain ⟨kind, bounds⟩ := region
      simp only [List.cons_append, judgeLevel, ih, bind_assoc, pure_bind]

/-- The verdicts of a level are found one by one. -/
theorem forall₂_of_outcome_judgeLevel {engine : Engine κ α} {admits : α → Prop}
    {depth : Nat} {regions : List (κ × Rect α)} {judged : List (Judged κ α)}
    (h : Sampler.Outcome admits (engine.judgeLevel depth regions) (.ok judged)) :
    List.Forall₂ (fun part region => (region.kind, region.bounds) = part ∧
      Sampler.Outcome admits (engine.judge region.kind region.bounds depth)
        (.ok region.verdict)) regions judged := by
  induction regions generalizing judged with
  | nil =>
      simp only [judgeLevel, Sampler.outcome_pure_iff, Except.ok.injEq] at h
      subst h
      exact .nil
  | cons region rest ih =>
      simp only [judgeLevel, Sampler.outcome_bind_ok_iff, Sampler.outcome_pure_iff,
        Except.ok.injEq] at h
      obtain ⟨verdict, hverdict, others, hothers, rfl⟩ := h
      exact .cons ⟨rfl, hverdict⟩ (ih hothers)

theorem map_of_outcome_judgeLevel {engine : Engine κ α} {admits : α → Prop}
    {depth : Nat} {regions : List (κ × Rect α)} {judged : List (Judged κ α)}
    (h : Sampler.Outcome admits (engine.judgeLevel depth regions) (.ok judged)) :
    judged.map (fun region => (region.kind, region.bounds)) = regions := by
  have hparts := forall₂_of_outcome_judgeLevel h
  clear h
  induction hparts with
  | nil => rfl
  | cons hfirst _ ih => rw [List.map_cons, hfirst.1, ih]

@[simp]
theorem levels_nil (engine : Engine κ α) (height depth : Nat) :
    engine.levels height depth [] = pure (some []) := by
  cases height <;> rfl

theorem levels_zero (engine : Engine κ α) (depth : Nat) {regions : List (κ × Rect α)}
    (h : regions ≠ []) : engine.levels 0 depth regions = pure none := by
  cases regions with
  | nil => exact absurd rfl h
  | cons part rest => rfl

theorem levels_succ (engine : Engine κ α) (height depth : Nat)
    {regions : List (κ × Rect α)} (h : regions ≠ []) :
    engine.levels (height + 1) depth regions =
      engine.judgeLevel depth regions >>= fun judged =>
        engine.levels height (depth + 1)
            (judged.flatMap fun region => region.verdict.pending) >>= fun below =>
          pure (below.map (graftAll judged)) := by
  cases regions with
  | nil => exact absurd rfl h
  | cons region rest => rfl

end Engine

/-- Both ways of expanding a level fail together, or the first leaves at the
positions of the level the trees that the second returns. -/
inductive Progress.Agrees (progress : Progress κ α) (positions : List Nat) :
    Except (LayoutError α) (Option (Progress κ α)) →
      Except (LayoutError α) (Option (List (Region κ α))) → Prop
  | failed (failure : LayoutError α) :
      Agrees progress positions (.error failure) (.error failure)
  | ended {final : Progress κ α} {trees : List (Region κ α)}
      (hkeeps : progress.Keeps final)
      (htrees : List.Forall₂ (Region.StandsAt final.nodes) positions trees) :
      Agrees progress positions (.ok (some final)) (.ok (some trees))

namespace Engine

variable [DecidableEq κ] [RegionKind κ] [Scalar α] [DrawSource σ α]

/-- When the verdicts on the level in the queue are found, the next level is in
the queue. -/
theorem next_level {engine : Engine κ α} {depth : Nat} {progress : Progress κ α}
    {regions : List (κ × Rect α)} {judged : List (Judged κ α)} {source after : σ}
    (hqueued : progress.Queued)
    (hwait : progress.Awaits depth progress.queue.toList regions)
    (hjudged : (engine.judgeLevel depth regions).run source = (.ok judged, after)) :
    (progress.afterLevel judged).Queued ∧
      (progress.afterLevel judged).Awaits (depth + 1)
        (progress.afterLevel judged).queue.toList
        (judged.flatMap fun region => region.verdict.pending) ∧
      progress.Keeps (progress.afterLevel judged) ∧
      (progress.afterLevel judged).Decided depth progress.queue.toList judged
        (progress.afterLevel judged).queue.toList := by
  obtain ⟨houtcome, _⟩ :=
    Sampler.outcome_of_run (DrawSource.delivers_any source) hjudged
  rw [← map_of_outcome_judgeLevel houtcome] at hwait
  obtain ⟨fresh, hfresh, hafter, hkeeps, hdecided, hawaits, _⟩ :=
    hqueued.afterLevel (List.append_nil _).symm hwait
  rw [List.nil_append] at hfresh
  rw [hfresh]
  exact ⟨hafter, hawaits, hkeeps, hdecided⟩

/-- Without a region both ways are over. -/
theorem agrees_nil (engine : Engine κ α) {depth : Nat} {progress : Progress κ α}
    (hwait : progress.Awaits depth progress.queue.toList []) (limit height : Nat)
    (source : σ) :
    (engine.process limit progress).run source = (.ok (some progress), source) ∧
      (engine.levels height depth []).run source = (.ok (some []), source) ∧
        progress.Agrees progress.queue.toList (.ok (some progress)) (.ok (some [])) := by
  have hempty := List.forall₂_nil_right_iff.mp hwait
  refine ⟨?_, ?_, .ended (.refl _) ?_⟩
  · rw [process_of_empty engine limit hempty, Sampler.run_pure]
  · rw [levels_nil, Sampler.run_pure]
  · rw [hempty]
    exact .nil

/-- If both ways agree below a level they agree on the level. -/
theorem agrees_level {engine : Engine κ α} {limit height depth : Nat}
    {progress : Progress κ α} {regions : List (κ × Rect α)}
    {judged : List (Judged κ α)} {source middle after : σ}
    {result : Except (LayoutError α) (Option (Progress κ α))}
    {below : Except (LayoutError α) (Option (List (Region κ α)))}
    (hregions : regions ≠ []) (hqueued : progress.Queued)
    (hwait : progress.Awaits depth progress.queue.toList regions)
    (hjudged : (engine.judgeLevel depth regions).run source = (.ok judged, middle))
    (hprocess : (engine.process limit (progress.afterLevel judged)).run middle =
      (result, after))
    (hlevels : (engine.levels height (depth + 1)
      (judged.flatMap fun region => region.verdict.pending)).run middle =
        (below, after))
    (hagrees : (progress.afterLevel judged).Agrees
      (progress.afterLevel judged).queue.toList result below) :
    (engine.process (limit + progress.queue.toList.length) progress).run source =
        (result, after) ∧
      ∃ trees, (engine.levels (height + 1) depth regions).run source =
          (trees, after) ∧
        progress.Agrees progress.queue.toList result trees := by
  obtain ⟨_, _, hkeeps, hdecided⟩ := next_level hqueued hwait hjudged
  constructor
  · rw [engine.process_level limit hqueued (List.append_nil _).symm hwait,
      Sampler.run_bind, hjudged]
    exact hprocess
  · rw [engine.levels_succ height depth hregions, Sampler.run_bind, hjudged]
    simp only [Sampler.run_bind, hlevels]
    cases hagrees with
    | failed failure => exact ⟨_, rfl, .failed failure⟩
    | ended hlater htrees =>
        exact ⟨_, rfl, .ended (hkeeps.trans hlater)
          ((hdecided.mono hlater).standsAt htrees)⟩

/-- If a level fails both ways fail. -/
theorem failed_level {engine : Engine κ α} {depth : Nat} {progress : Progress κ α}
    {regions : List (κ × Rect α)} {source after : σ} {failure : LayoutError α}
    (hregions : regions ≠ []) (hqueued : progress.Queued)
    (hwait : progress.Awaits depth progress.queue.toList regions)
    (hfailed : (engine.judgeLevel depth regions).run source =
      (.error failure, after)) (limit height : Nat) :
    (engine.process (limit + progress.queue.toList.length) progress).run source =
        (.error failure, after) ∧
      (engine.levels (height + 1) depth regions).run source =
        (.error failure, after) := by
  constructor
  · rw [engine.process_level limit hqueued (List.append_nil _).symm hwait,
      Sampler.run_bind, hfailed]
  · rw [engine.levels_succ height depth hregions, Sampler.run_bind, hfailed]

/-- A run that stops within a level either is cut off or fails on a part of
it. -/
theorem failed_of_process {engine : Engine κ α} {limit depth : Nat}
    {progress : Progress κ α} {regions : List (κ × Rect α)} {source after : σ}
    {result : Except (LayoutError α) (Option (Progress κ α))}
    (hqueued : progress.Queued)
    (hwait : progress.Awaits depth progress.queue.toList regions)
    (hlimit : limit < progress.queue.toList.length)
    (hprocess : (engine.process limit progress).run source = (result, after))
    (hended : result ≠ .ok none) :
    ∃ failure, result = .error failure ∧
      (engine.judgeLevel depth regions).run source = (.error failure, after) := by
  have hqueue := (List.take_append_drop limit progress.queue.toList).symm
  have hpart : progress.Awaits depth (progress.queue.toList.take limit)
      (regions.take limit) := List.forall₂_take limit hwait
  have hlevel := engine.process_level 0 hqueued hqueue hpart
  rw [List.length_take_of_le hlimit.le, Nat.zero_add] at hlevel
  rw [hlevel, Sampler.run_bind] at hprocess
  cases hjudged : (engine.judgeLevel depth (regions.take limit)).run source with
  | mk given middle =>
      rw [hjudged] at hprocess
      cases given with
      | error failure =>
          simp only [Prod.mk.injEq] at hprocess
          obtain ⟨rfl, rfl⟩ := hprocess
          refine ⟨failure, rfl, ?_⟩
          rw [← List.take_append_drop limit regions, judgeLevel_append,
            Sampler.run_bind, hjudged]
      | ok judged =>
          obtain ⟨houtcome, _⟩ :=
            Sampler.outcome_of_run (DrawSource.delivers_any source) hjudged
          rw [← map_of_outcome_judgeLevel houtcome] at hpart
          obtain ⟨fresh, hfresh, _⟩ := hqueued.afterLevel hqueue hpart
          have hleft : (progress.afterLevel judged).queue.toList ≠ [] := by
            have hdrop : (progress.queue.toList.drop limit).length ≠ 0 := by
              rw [List.length_drop]
              omega
            rw [hfresh, ne_eq, List.append_eq_nil_iff, not_and]
            exact fun hnil => absurd (List.length_eq_zero_iff.mpr hnil) hdrop
          simp only [process_zero engine hleft, Sampler.run_pure, Prod.mk.injEq] at hprocess
          exact absurd hprocess.1.symm hended

/-- A run that ends is matched by the levels. -/
theorem levels_of_process {engine : Engine κ α} {limit depth : Nat}
    {progress : Progress κ α} {regions : List (κ × Rect α)} {source after : σ}
    {result : Except (LayoutError α) (Option (Progress κ α))}
    (hqueued : progress.Queued)
    (hwait : progress.Awaits depth progress.queue.toList regions)
    (hprocess : (engine.process limit progress).run source = (result, after))
    (hended : result ≠ .ok none) :
    ∃ height, ∀ more ≥ height, ∃ trees,
      (engine.levels more depth regions).run source = (trees, after) ∧
        progress.Agrees progress.queue.toList result trees := by
  induction limit using Nat.strong_induction_on generalizing depth progress regions
    source with
  | _ limit ih =>
      by_cases hregions : regions = []
      · subst hregions
        refine ⟨0, fun more _ => ⟨.ok (some []), ?_⟩⟩
        obtain ⟨hover, hlevels, hagrees⟩ := engine.agrees_nil hwait limit more source
        rw [hover, Prod.mk.injEq] at hprocess
        obtain ⟨rfl, rfl⟩ := hprocess
        exact ⟨hlevels, hagrees⟩
      by_cases hlimit : limit < progress.queue.toList.length
      · obtain ⟨failure, rfl, hfailed⟩ :=
          failed_of_process hqueued hwait hlimit hprocess hended
        refine ⟨1, fun more hmore => ⟨.error failure, ?_, .failed failure⟩⟩
        obtain ⟨more, rfl⟩ := Nat.exists_eq_add_of_le' hmore
        exact (failed_level hregions hqueued hwait hfailed 0 more).2
      · obtain ⟨rest, rfl⟩ := Nat.exists_eq_add_of_le' (Nat.le_of_not_lt hlimit)
        cases hjudged : (engine.judgeLevel depth regions).run source with
        | mk given middle =>
            cases given with
            | error failure =>
                obtain ⟨hrun, _⟩ := failed_level hregions hqueued hwait hjudged rest 0
                rw [hrun, Prod.mk.injEq] at hprocess
                obtain ⟨rfl, rfl⟩ := hprocess
                refine ⟨1, fun more hmore => ⟨.error failure, ?_, .failed failure⟩⟩
                obtain ⟨more, rfl⟩ := Nat.exists_eq_add_of_le' hmore
                exact (failed_level hregions hqueued hwait hjudged 0 more).2
            | ok judged =>
                obtain ⟨hnext, hawaits, _⟩ := next_level hqueued hwait hjudged
                rw [engine.process_level rest hqueued (List.append_nil _).symm hwait,
                  Sampler.run_bind, hjudged] at hprocess
                have hpositive : 0 < progress.queue.toList.length := by
                  rw [hwait.length_eq]
                  exact List.length_pos_iff.mpr hregions
                obtain ⟨height, hheight⟩ := ih rest (by omega) hnext hawaits hprocess
                refine ⟨height + 1, fun more hmore => ?_⟩
                obtain ⟨more, rfl⟩ := Nat.exists_eq_add_of_le' (Nat.le_of_add_left_le hmore)
                obtain ⟨below, hbelow, hagrees⟩ := hheight more (by omega)
                exact (agrees_level hregions hqueued hwait hjudged hprocess hbelow
                  hagrees).2

/-- Levels that end are matched by a run. -/
theorem process_of_levels {engine : Engine κ α} {height depth : Nat}
    {progress : Progress κ α} {regions : List (κ × Rect α)} {source after : σ}
    {trees : Except (LayoutError α) (Option (List (Region κ α)))}
    (hqueued : progress.Queued)
    (hwait : progress.Awaits depth progress.queue.toList regions)
    (hlevels : (engine.levels height depth regions).run source = (trees, after))
    (hended : trees ≠ .ok none) :
    ∃ limit, ∀ more ≥ limit, ∃ result,
      (engine.process more progress).run source = (result, after) ∧
        progress.Agrees progress.queue.toList result trees := by
  induction height using Nat.strong_induction_on generalizing depth progress regions
    source after trees with
  | _ height ih =>
      by_cases hregions : regions = []
      · subst hregions
        refine ⟨0, fun more _ => ⟨.ok (some progress), ?_⟩⟩
        obtain ⟨hover, hnone, hagrees⟩ := engine.agrees_nil hwait more height source
        rw [hnone, Prod.mk.injEq] at hlevels
        obtain ⟨rfl, rfl⟩ := hlevels
        exact ⟨hover, hagrees⟩
      cases height with
      | zero =>
          rw [engine.levels_zero depth hregions, Sampler.run_pure, Prod.mk.injEq] at hlevels
          exact absurd hlevels.1.symm hended
      | succ height =>
          cases hjudged : (engine.judgeLevel depth regions).run source with
          | mk given middle =>
              cases given with
              | error failure =>
                  obtain ⟨_, hrun⟩ := failed_level hregions hqueued hwait hjudged 0 height
                  rw [hrun, Prod.mk.injEq] at hlevels
                  obtain ⟨rfl, rfl⟩ := hlevels
                  refine ⟨progress.queue.toList.length, fun more hmore => ?_⟩
                  obtain ⟨more, rfl⟩ := Nat.exists_eq_add_of_le' hmore
                  exact ⟨.error failure,
                    (failed_level hregions hqueued hwait hjudged more 0).1, .failed failure⟩
              | ok judged =>
                  obtain ⟨hnext, hawaits, _⟩ := next_level hqueued hwait hjudged
                  cases hbelow : (engine.levels height (depth + 1)
                      (judged.flatMap fun region => region.verdict.pending)).run middle with
                  | mk below last =>
                      have hbelowEnded : below ≠ .ok none := by
                        rintro rfl
                        rw [engine.levels_succ height depth hregions, Sampler.run_bind,
                          hjudged] at hlevels
                        simp only [Sampler.run_bind, hbelow] at hlevels
                        exact hended (Prod.mk.inj hlevels).1.symm
                      obtain ⟨limit, hlimit⟩ :=
                        ih height (Nat.lt_succ_self _) hnext hawaits hbelow hbelowEnded
                      refine ⟨limit + progress.queue.toList.length, fun more hmore => ?_⟩
                      obtain ⟨more, rfl⟩ :=
                        Nat.exists_eq_add_of_le' (Nat.le_of_add_left_le hmore)
                      obtain ⟨result, hresult, hagrees⟩ := hlimit more (by omega)
                      obtain ⟨hrun, given, hgiven, hsame⟩ := agrees_level hregions hqueued
                        hwait hjudged hresult hbelow hagrees
                      rw [hgiven, Prod.mk.injEq] at hlevels
                      obtain ⟨rfl, rfl⟩ := hlevels
                      exact ⟨result, hrun, hsame⟩

/-- Processing that ends leads to a state with an empty queue, whatever the
source. -/
theorem reaches_of_run_process {engine : Engine κ α} {limit : Nat} {progress final : Progress κ α}
    {source after : σ}
    (h : (engine.process limit progress).run source = (.ok (some final), after)) :
    engine.Reaches (fun _ => True) progress final ∧ final.queue.toList = [] := by
  obtain ⟨houtcome, _⟩ := Sampler.outcome_of_run (DrawSource.delivers_any source) h
  exact reaches_of_process houtcome

/-- What a run makes of its first region is what the levels make of it. -/
theorem root_of_agrees {engine : Engine κ α} {limit : Nat} {bounds : Rect α}
    {source after : σ} {result : Except (LayoutError α) (Option (Progress κ α))}
    {trees : Except (LayoutError α) (Option (List (Region κ α)))}
    (hprocess : (engine.process limit (.start engine.settings.root bounds)).run source =
      (result, after))
    (hagrees : (Progress.start engine.settings.root bounds).Agrees [0] result trees) :
    trees = result.map (Option.map fun final => [(engine.finish bounds final).root]) := by
  cases hagrees with
  | failed failure => rfl
  | @ended final trees _ htrees =>
      obtain ⟨root, rest, hroot, hrest, rfl⟩ := List.forall₂_cons_left_iff.mp htrees
      obtain rfl := List.forall₂_nil_left_iff.mp hrest
      obtain ⟨hreached, _⟩ := reaches_of_run_process hprocess
      have horderly := hreached.orderly (Progress.orderly_start _ _)
      obtain ⟨found, hfound, hstands⟩ := horderly.exists_root
      rw [Except.map, Option.map_some, finish, hfound, Option.getD_some,
        hroot.unique hstands]

/-- The layout of a run for a proper rectangle. -/
theorem run_of_checked {engine : Engine κ α} {limit : Nat} {width length : α}
    {bounds : Rect α} {source after : σ}
    {result : Except (LayoutError α) (Option (Progress κ α))}
    (hbounds : Rect.checked ⟨0, 0, width, length⟩ = .ok bounds)
    (hprocess : (engine.process limit (.start engine.settings.root bounds)).run source =
      (result, after)) :
    (engine.run limit width length).run source =
      (result.map (Option.map (engine.finish bounds)), after) := by
  have hrun : engine.run limit width length =
      engine.process limit (.start engine.settings.root bounds) >>= fun final =>
        pure (final.map (engine.finish bounds)) := by
    rw [run, hbounds]
    rfl
  rw [hrun, Sampler.run_bind, hprocess]
  cases result <;> rfl

theorem runByLevels_of_checked {engine : Engine κ α} {height : Nat} {width length : α}
    {bounds : Rect α} (hbounds : Rect.checked ⟨0, 0, width, length⟩ = .ok bounds) :
    engine.runByLevels height width length =
      engine.levels height 0 [(engine.settings.root, bounds)] := by
  rw [runByLevels, hbounds]
  rfl

/-- A rectangle that is refused ends both ways at once. -/
theorem run_of_refused (engine : Engine κ α) {width length : α}
    {failure : LayoutError α}
    (hbounds : Rect.checked ⟨0, 0, width, length⟩ = .error failure)
    (limit height : Nat) (source : σ) :
    (engine.run limit width length).run source = (.error failure, source) ∧
      (engine.runByLevels height width length).run source =
        (.error failure, source) := by
  constructor
  · rw [run, hbounds]
    rfl
  · rw [runByLevels, hbounds]
    rfl

/-- A run that returns a layout has started from a rectangle that was not refused
and has processed its queue to the end. -/
theorem exists_process_of_run {engine : Engine κ α} {limit : Nat} {width length : α}
    {source after : σ} {generation : Generation κ α}
    (hrun : (engine.run limit width length).run source = (.ok (some generation), after)) :
    Rect.checked (⟨0, 0, width, length⟩ : Rect α) = .ok ⟨0, 0, width, length⟩ ∧
      ∃ final, (engine.process limit
          (.start engine.settings.root ⟨0, 0, width, length⟩)).run source =
            (.ok (some final), after) ∧
        generation = engine.finish ⟨0, 0, width, length⟩ final := by
  cases hbounds : Rect.checked (⟨0, 0, width, length⟩ : Rect α) with
  | error failure =>
      rw [(run_of_refused engine hbounds limit 0 source).1] at hrun
      cases hrun
  | ok bounds =>
      obtain ⟨rfl, _⟩ := Rect.checked_eq_ok_iff.mp hbounds
      refine ⟨rfl, ?_⟩
      rcases hprocess : (engine.process limit
        (.start engine.settings.root ⟨0, 0, width, length⟩)).run source
          with ⟨failure | _ | final, last⟩
      all_goals
        rw [run_of_checked hbounds hprocess] at hrun
        cases hrun
      exact ⟨final, rfl, rfl⟩

/-- A run that is over is the same with more regions to spend. -/
theorem run_of_le {engine : Engine κ α} {limit more : Nat} (hle : limit ≤ more)
    {width length : α} {source after : σ}
    {result : Except (LayoutError α) (Option (Generation κ α))}
    (h : (engine.run limit width length).run source = (result, after))
    (hover : result ≠ .ok none) :
    (engine.run more width length).run source = (result, after) := by
  cases hbounds : Rect.checked (⟨0, 0, width, length⟩ : Rect α) with
  | error failure =>
      rw [(run_of_refused engine hbounds _ 0 source).1] at h ⊢
      exact h
  | ok bounds =>
      rcases hprocess : (engine.process limit (.start engine.settings.root bounds)).run source
        with ⟨middle, rest⟩
      rw [run_of_checked hbounds hprocess] at h
      cases h
      refine run_of_checked hbounds (process_of_le hle hprocess ?_)
      rintro rfl
      exact hover rfl

/-- A run that ends is matched by the expansion level by level. -/
theorem runByLevels_of_run {engine : Engine κ α} {limit : Nat} {width length : α}
    {source after : σ} {result : Except (LayoutError α) (Option (Generation κ α))}
    (hrun : (engine.run limit width length).run source = (result, after))
    (hended : result ≠ .ok none) :
    ∃ height, ∀ more ≥ height,
      (engine.runByLevels more width length).run source =
        (result.map (Option.map fun generation => [generation.root]), after) := by
  cases hbounds : Rect.checked (⟨0, 0, width, length⟩ : Rect α) with
  | error failure =>
      refine ⟨0, fun more _ => ?_⟩
      obtain ⟨hrefused, hlevels⟩ := engine.run_of_refused hbounds limit more source
      rw [hrefused, Prod.mk.injEq] at hrun
      obtain ⟨rfl, rfl⟩ := hrun
      exact hlevels
  | ok bounds =>
      cases hprocess : (engine.process limit
          (.start engine.settings.root bounds)).run source with
      | mk given last =>
          rw [run_of_checked hbounds hprocess, Prod.mk.injEq] at hrun
          obtain ⟨rfl, rfl⟩ := hrun
          have hgiven : given ≠ .ok none := by
            rintro rfl
            exact hended rfl
          obtain ⟨height, hheight⟩ := levels_of_process
            (Progress.queued_start _ _) (Progress.awaits_start _ _) hprocess hgiven
          refine ⟨height, fun more hmore => ?_⟩
          obtain ⟨trees, htrees, hagrees⟩ := hheight more hmore
          rw [runByLevels_of_checked hbounds, htrees, root_of_agrees hprocess hagrees]
          rcases given with failure | _ | final <;> rfl

/-- An expansion level by level that ends is matched by a run. -/
theorem run_of_runByLevels {engine : Engine κ α} {height : Nat} {width length : α}
    {source after : σ} {trees : Except (LayoutError α) (Option (List (Region κ α)))}
    (hlevels : (engine.runByLevels height width length).run source = (trees, after))
    (hended : trees ≠ .ok none) :
    ∃ limit, ∀ more ≥ limit, ∃ result,
      (engine.run more width length).run source = (result, after) ∧
        trees = result.map (Option.map fun generation => [generation.root]) := by
  cases hbounds : Rect.checked (⟨0, 0, width, length⟩ : Rect α) with
  | error failure =>
      refine ⟨0, fun more _ => ⟨.error failure, ?_⟩⟩
      obtain ⟨hrun, hrefused⟩ := engine.run_of_refused hbounds more height source
      rw [hrefused, Prod.mk.injEq] at hlevels
      obtain ⟨rfl, rfl⟩ := hlevels
      exact ⟨hrun, rfl⟩
  | ok bounds =>
      rw [runByLevels_of_checked hbounds] at hlevels
      obtain ⟨limit, hlimit⟩ := process_of_levels
        (Progress.queued_start _ _) (Progress.awaits_start _ _) hlevels hended
      refine ⟨limit, fun more hmore => ?_⟩
      obtain ⟨given, hprocess, hagrees⟩ := hlimit more hmore
      refine ⟨_, run_of_checked hbounds hprocess, ?_⟩
      rw [root_of_agrees hprocess hagrees]
      rcases given with failure | _ | final <;> rfl

/-- A run and the expansion level by level return the same tree or fail alike,
and leave the source in the same state. -/
theorem run_eq_runByLevels (engine : Engine κ α) (width length : α)
    (source after : σ) :
    (∀ limit result,
      (engine.run limit width length).run source = (result, after) →
      result ≠ .ok none →
      ∃ height, ∀ more ≥ height,
        (engine.runByLevels more width length).run source =
          (result.map (Option.map fun generation => [generation.root]), after)) ∧
    ∀ height trees,
      (engine.runByLevels height width length).run source = (trees, after) →
      trees ≠ .ok none →
      ∃ limit, ∀ more ≥ limit, ∃ result,
        (engine.run more width length).run source = (result, after) ∧
          trees = result.map (Option.map fun generation => [generation.root]) :=
  ⟨fun _ _ hrun hended => runByLevels_of_run hrun hended,
    fun _ _ hlevels hended => run_of_runByLevels hlevels hended⟩

end Engine

theorem Garden.run_eq_runByLevels_small :
    ∃ generation after height,
      (small.run 12 400 300).run smallDraws = (.ok (some generation), after) ∧
      ∀ more ≥ height, (small.runByLevels more 400 300).run smallDraws =
        (.ok (some [generation.root]), after) := by
  obtain ⟨generation, after, hrun, _⟩ := small_finished
  obtain ⟨height, hheight⟩ :=
    (Engine.run_eq_runByLevels small 400 300 smallDraws after).1 12 _ hrun (by simp)
  exact ⟨generation, after, height, hrun, hheight⟩

end Parterre
