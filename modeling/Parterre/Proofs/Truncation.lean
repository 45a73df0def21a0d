/-
The limit of the depth only truncates.  Two engines that differ in their limits
decide alike about every region above the lower limit, and the queue holds no
deeper region until all of these are done.  So both runs go through the same
states up to there, with the same draws, and what comes afterwards changes
nothing above.
-/
import Parterre.Proofs.DepthOrder
import Parterre.Proofs.Lineage

namespace Parterre

variable {κ α σ : Type}

theorem bind_getElem?_of_forall₂ {β γ δ : Type} {related : β → γ → Prop} {first : β → Option δ}
    {second : γ → Option δ} {left : List β} {right : List γ}
    (h : List.Forall₂ related left right)
    (hsame : ∀ one other, related one other → first one = second other) (place : Nat) :
    left[place]?.bind first = right[place]?.bind second := by
  induction h generalizing place with
  | nil => rfl
  | cons hfirst _ ih =>
      cases place with
      | zero => exact hsame _ _ hfirst
      | succ place => exact ih place

theorem forall₂_of_common {β γ δ : Type} {one : β → γ → Prop} {two : β → δ → Prop}
    {related : γ → δ → Prop} {list : List β} {left : List γ} {right : List δ}
    (hleft : List.Forall₂ one list left) (hright : List.Forall₂ two list right)
    (h : ∀ element ∈ list, ∀ first second, one element first → two element second →
      related first second) : List.Forall₂ related left right := by
  induction hleft generalizing right with
  | nil =>
      obtain rfl := List.forall₂_nil_left_iff.mp hright
      exact .nil
  | cons hfirst _ ih =>
      obtain ⟨second, rest, hsecond, hrest, rfl⟩ := List.forall₂_cons_left_iff.mp hright
      obtain ⟨hhead, hothers⟩ := List.forall_mem_cons.mp h
      exact .cons (hhead _ _ hfirst hsecond) (ih hrest hothers)

namespace Region

/-- A region without what is below it. -/
def label (region : Region κ α) : κ × Rect α × Status × Option (Composition α) :=
  (region.kind, region.bounds, region.state, region.composition)

/-- The trees have the same regions down to a depth, and at this depth regions of
the same rectangles. -/
structure AgreesTo (depth : Nat) (region other : Region κ α) : Prop where
  above : ∀ way, way.length < depth →
    (region.at? way).map label = (other.at? way).map label
  level : ∀ way, way.length = depth →
    (region.at? way).map bounds = (other.at? way).map bounds

variable {region other : Region κ α}

theorem agreesTo_zero (h : region.bounds = other.bounds) : AgreesTo 0 region other where
  above := fun _ hway => absurd hway (Nat.not_lt_zero _)
  level := by
    intro way hway
    obtain rfl := List.length_eq_zero_iff.mp hway
    exact congrArg some h

theorem agreesTo_succ {depth : Nat} (hlabel : region.label = other.label)
    (hchildren : List.Forall₂ (AgreesTo depth) region.children other.children) :
    AgreesTo (depth + 1) region other where
  above := by
    intro way hway
    cases way with
    | nil => exact congrArg some hlabel
    | cons place rest =>
        rw [at?, at?, Option.map_bind, Option.map_bind]
        apply bind_getElem?_of_forall₂ hchildren
        intro child counterpart hagrees
        exact hagrees.above rest (Nat.lt_of_succ_lt_succ hway)
  level := by
    intro way hway
    cases way with
    | nil => cases hway
    | cons place rest =>
        rw [at?, at?, Option.map_bind, Option.map_bind]
        apply bind_getElem?_of_forall₂ hchildren
        intro child counterpart hagrees
        exact hagrees.level rest (Nat.succ.inj hway)

end Region

/-- The tree of a position is what its node says, with the trees of its children. -/
theorem Region.StandsAt.of_node {nodes : Array (Node κ α)} {position : Nat}
    {region : Region κ α} {node : Node κ α} (h : region.StandsAt nodes position)
    (hnode : nodes[position]? = some node) :
    region.label = (node.kind, node.bounds, node.state, node.composition) ∧
      List.Forall₂ (Region.StandsAt nodes) node.children region.children := by
  cases h with
  | node hfound hchildren =>
      rw [hnode, Option.some.injEq] at hfound
      subst hfound
      exact ⟨rfl, hchildren⟩

namespace Progress

/-- Whatever is in the queue is at least so deep. -/
def Deep (depth : Nat) (progress : Progress κ α) : Prop :=
  ∀ place ∈ progress.queue.toList, ∃ found, progress.HasDepth place found ∧ depth ≤ found

/-- Settled nodes stay as they are, and all nodes keep their rectangles. -/
structure Extends (progress later : Progress κ α) : Prop where
  keeps : progress.Keeps later
  bounds : ∀ (place : Nat) (node : Node κ α), progress.nodes[place]? = some node →
    ∃ kept, later.nodes[place]? = some kept ∧ kept.bounds = node.bounds

variable {reached final other : Progress κ α} {cap : Nat}

/-- Where a run and another one go on from one state, their trees agree above the
regions that are still queued. -/
theorem agreesTo_of_standsAt (hdeepens : reached.Deepens) (hdeep : reached.Deep cap)
    (hfinal : reached.Extends final) (hother : reached.Extends other) {levels position depth : Nat}
    (hlevels : depth + levels = cap) (hdepth : reached.HasDepth position depth)
    {region counterpart : Region κ α} (hregion : region.StandsAt final.nodes position)
    (hcounterpart : counterpart.StandsAt other.nodes position) :
    region.AgreesTo levels counterpart := by
  induction levels generalizing depth position region counterpart with
  | zero =>
      obtain ⟨node, hnode, _⟩ := Option.map_eq_some_iff.mp hdepth
      obtain ⟨kept, hkept, hbounds⟩ := hfinal.bounds position node hnode
      obtain ⟨kept', hkept', hbounds'⟩ := hother.bounds position node hnode
      apply Region.agreesTo_zero
      rw [hregion.bounds_eq hkept, hcounterpart.bounds_eq hkept', hbounds, hbounds']
  | succ levels ih =>
      obtain ⟨node, hnode, rfl⟩ := Option.map_eq_some_iff.mp hdepth
      -- a region above the limit is not queued any more, so both runs keep its node
      have hholds : reached.Holds position node := by
        refine ⟨hnode, fun hqueued => ?_⟩
        obtain ⟨found, hfound, hle⟩ := hdeep position hqueued
        have hsame := hfound.unique hdepth
        omega
      obtain ⟨hlabel, hchildren⟩ := hregion.of_node (hfinal.keeps position node hholds).1
      obtain ⟨hlabel', hothers⟩ := hcounterpart.of_node (hother.keeps position node hholds).1
      refine Region.agreesTo_succ (hlabel.trans hlabel'.symm)
        (forall₂_of_common hchildren hothers fun child hchild first second hfirst hsecond => ?_)
      exact ih (by omega) (hdeepens.child position node hnode child hchild) hfirst hsecond

theorem Deep.le_front {progress : Progress κ α} (h : progress.Deep cap) {position : Nat}
    {node : Node κ α} {queue : Queue Nat} (hfaces : progress.Faces position node queue) :
    cap ≤ node.depth := by
  obtain ⟨depth, hdepth, hle⟩ := h position (hfaces.toList_queue ▸ List.mem_cons_self)
  rwa [hdepth.unique (hasDepth_of_node hfaces.node)] at hle

/-- Children are deeper than the front, so a turn brings nothing higher up. -/
theorem Deep.turn {progress : Progress κ α} (h : progress.Deep cap) {position : Nat}
    {node : Node κ α} {queue : Queue Nat} (hfaces : progress.Faces position node queue)
    (verdict : Verdict κ α) : (progress.turn verdict).Deep cap := by
  intro place hplace
  rw [hfaces.queue_turn, List.mem_append, List.mem_range'_1] at hplace
  rcases hplace with hold | hnew
  · obtain ⟨depth, hdepth, hle⟩ :=
      h place (hfaces.toList_queue ▸ List.mem_cons_of_mem _ hold)
    exact ⟨depth, hfaces.hasDepth_turn verdict hdepth, hle⟩
  · have hdepth := hfaces.hasDepth_offspring verdict hnew.1 (by omega)
    exact ⟨node.depth + 1, hdepth, (h.le_front hfaces).trans (Nat.le_succ _)⟩

variable [Scalar α]

/-- Where something in the queue is less deep, the front is. -/
theorem exists_faces_of_not_deep {progress : Progress κ α} (horderly : progress.Orderly)
    (hlayered : progress.Layered) (h : ¬ progress.Deep cap) :
    ∃ position node queue, progress.Faces position node queue ∧ node.depth < cap := by
  have hsome : progress.queue.toList ≠ [] := by
    intro hempty
    apply h
    intro place hplace
    rw [hempty] at hplace
    cases hplace
  obtain ⟨position, node, queue, hfaces⟩ := horderly.exists_front hsome
  refine ⟨position, node, queue, hfaces, Nat.lt_of_not_le fun hle => h ?_⟩
  intro place hplace
  obtain ⟨depth, hdepth, hfront⟩ := hlayered.front_le hfaces hplace
  exact ⟨depth, hdepth, hle.trans hfront⟩

end Progress

namespace Engine

variable [DecidableEq κ] [RegionKind κ] [Scalar α]

theorem Reaches.extends_origin {engine : Engine κ α} {admits : α → Prop}
    {origin progress : Progress κ α} (horigin : origin.Orderly)
    (h : engine.Reaches admits origin progress) :
    origin.Extends progress where
  keeps := by
    refine Reaches.induct (.refl origin) ?_ horigin h
    intro progress position node queue verdict _ _ hfaces _ ih
    exact ih.trans (hfaces.keeps_turn verdict)
  bounds := fun _ _ hnode => h.bounds horigin hnode

/-- The engine with another limit of the depth. -/
def withMaxDepth (engine : Engine κ α) (maxDepth : Option Nat) : Engine κ α where
  table := engine.table
  settings := { engine.settings with maxDepth }
  accepted := engine.accepted

/-- The engines differ in nothing but the limit of the depth, and the first one has
a lower one. -/
structure Truncates (lower upper : Engine κ α) (cap : Nat) : Prop where
  table : lower.table = upper.table
  settings : lower.settings = { upper.settings with maxDepth := some cap }
  lt : ∀ limit, upper.settings.maxDepth = some limit → cap < limit

/-- Every engine can be truncated. -/
theorem truncates_withMaxDepth (engine : Engine κ α) {cap : Nat}
    (h : ∀ limit, engine.settings.maxDepth = some limit → cap < limit) :
    (engine.withMaxDepth (some cap)).Truncates engine cap :=
  ⟨rfl, rfl, h⟩

/-- Above the lower limit both engines decide alike. -/
theorem Truncates.judge_eq {lower upper : Engine κ α} {cap depth : Nat}
    (h : lower.Truncates upper cap) (hdepth : depth < cap) (kind : κ) (bounds : Rect α) :
    lower.judge kind bounds depth = upper.judge kind bounds depth := by
  have hcap : lower.settings.maxDepth = some cap := by rw [h.settings]
  have hlower : lower.settings.isCapped depth = false := by
    rw [Settings.isCapped_eq hcap]
    exact decide_eq_false (Nat.not_le_of_lt hdepth)
  have hupper : upper.settings.isCapped depth = false := by
    cases hlimit : upper.settings.maxDepth with
    | none => rw [Settings.isCapped, hlimit]
    | some limit =>
        rw [Settings.isCapped_eq hlimit]
        exact decide_eq_false (Nat.not_le_of_lt (hdepth.trans (h.lt limit hlimit)))
  have hsize : ∀ rect, lower.settings.isUndersized rect = upper.settings.isUndersized rect := by
    intro rect
    rw [h.settings]
    rfl
  have hkeeps : lower.keepsKind kind bounds = upper.keepsKind kind bounds := by
    rw [keepsKind, keepsKind, hsize, h.table, h.settings]
  rw [judge, judge, hlower, hupper, hsize, hkeeps, h.table, h.settings]

variable [DrawSource σ α] {lower upper : Engine κ α} {cap : Nat}

/-- Stopping a region raises no failure. -/
theorem not_outcome_judge_error {engine : Engine κ α} {admits : α → Prop} {kind : κ}
    {bounds : Rect α} {depth : Nat} {failure : LayoutError α}
    (hcapped : engine.settings.isCapped depth = true) :
    ¬ Sampler.Outcome admits (engine.judge kind bounds depth) (.error failure) := by
  rw [judge, hcapped, Bool.or_true, if_pos rfl]
  split
  · simp
  · simp [Safeguard.not_outcome_draw_error]

/-- A region at the limit is stopped, and with a source that never fails this
cannot fail. -/
theorem exists_stopped {engine : Engine κ α} {kind : κ} {bounds : Rect α} {depth : Nat}
    {source : σ} (hcapped : engine.settings.isCapped depth = true)
    (hsource : DrawSource.Supplies (fun _ => True) source) :
    ∃ final after, (engine.judge kind bounds depth).run source = (.ok (.stopped final), after) := by
  rcases hverdict : (engine.judge kind bounds depth).run source with ⟨failure | verdict, after⟩
  · exfalso
    rcases Sampler.failure_of_run hsource.delivers hverdict with hfailed | hfails
    · exact not_outcome_judge_error hcapped hfailed
    · exact hsource.not_fails failure hfails
  · obtain ⟨houtcome, _⟩ := Sampler.outcome_of_run hsource.delivers hverdict
    rcases outcome_judge houtcome with ⟨_, final, rfl, _⟩ | ⟨hgoes, _⟩
    · exact ⟨final, after, rfl⟩
    · rw [hcapped, Bool.or_true] at hgoes
      cases hgoes

/-- When only regions at the limit are queued, they are stopped one by one. -/
theorem exists_final_of_deep {engine : Engine κ α}
    (hcap : engine.settings.maxDepth = some cap) {progress : Progress κ α} {source : σ}
    (horderly : progress.Orderly) (hdeep : progress.Deep cap)
    (hsource : DrawSource.Supplies (fun _ => True) source) :
    ∃ final after, (engine.process progress.queue.toList.length progress).run source =
      (.ok (some final), after) := by
  generalize hlength : progress.queue.toList.length = count
  induction count generalizing progress source with
  | zero =>
      rw [process_of_empty engine 0 (List.length_eq_zero_iff.mp hlength)]
      exact ⟨progress, source, rfl⟩
  | succ count ih =>
      have hsome : progress.queue.toList ≠ [] := by
        intro hempty
        rw [hempty] at hlength
        cases hlength
      obtain ⟨position, node, queue, hfaces⟩ := horderly.exists_front hsome
      have hcapped : engine.settings.isCapped node.depth = true := by
        rw [Settings.isCapped_eq hcap]
        exact decide_eq_true (hdeep.le_front hfaces)
      obtain ⟨final, after, hverdict⟩ := exists_stopped hcapped hsource
      have hturn : (progress.turn (.stopped final)).queue.toList.length = count := by
        rw [hfaces.toList_queue, List.length_cons] at hlength
        rw [hfaces.queue_turn, Verdict.pending, List.length_nil, List.range'_zero, List.append_nil]
        exact Nat.succ.inj hlength
      rw [process_turn engine count hfaces, Sampler.run_bind, hverdict]
      exact ih (horderly.turn hfaces (.stopped final)) (hdeep.turn hfaces _)
        (Sampler.supplies_of_run hsource hverdict) hturn

/-- On its way to the end the run with the higher limit passes a state without
queued regions above the lower limit, and the run with the lower limit passes it
too. -/
theorem Truncates.exists_deep (h : lower.Truncates upper cap) {limit : Nat}
    {progress final : Progress κ α} {source after : σ} (horderly : progress.Orderly)
    (hlayered : progress.Layered)
    (hprocess : (upper.process limit progress).run source = (.ok (some final), after)) :
    ∃ reached middle, lower.Passes progress source reached middle ∧ reached.Deep cap ∧
      upper.Reaches (fun _ => True) reached final := by
  induction limit generalizing progress source with
  | zero =>
      by_cases hdeep : progress.Deep cap
      · exact ⟨progress, source, .start, hdeep, (reaches_of_run_process hprocess).1⟩
      · obtain ⟨position, node, queue, hfaces, _⟩ :=
          Progress.exists_faces_of_not_deep horderly hlayered hdeep
        have hsome : progress.queue.toList ≠ [] := by
          rw [hfaces.toList_queue]
          exact List.cons_ne_nil _ _
        rw [process_zero upper hsome] at hprocess
        cases hprocess
  | succ limit ih =>
      by_cases hdeep : progress.Deep cap
      · exact ⟨progress, source, .start, hdeep, (reaches_of_run_process hprocess).1⟩
      · obtain ⟨position, node, queue, hfaces, hdepth⟩ :=
          Progress.exists_faces_of_not_deep horderly hlayered hdeep
        rw [process_turn upper limit hfaces, Sampler.run_bind] at hprocess
        rcases hverdict : (upper.judge node.kind node.bounds node.depth).run source
          with ⟨failure | verdict, middle⟩
        · rw [hverdict] at hprocess
          cases hprocess
        · rw [hverdict] at hprocess
          obtain ⟨hpassed, _⟩ :=
            Sampler.outcome_of_run (DrawSource.delivers_any source) hverdict
          obtain ⟨reached, last, hway, hstate, hfinal⟩ :=
            ih (horderly.turn hfaces (fits_of_outcome hpassed)) (hlayered.turn hfaces verdict)
              hprocess
          -- the front is above the lower limit, so both runs take this turn
          rw [← h.judge_eq hdepth] at hverdict
          exact ⟨reached, last, (Passes.start.turn hfaces hverdict).trans hway, hstate, hfinal⟩

/-- Up to a region above the lower limit both runs pass the same states. -/
theorem Truncates.passes (h : lower.Truncates upper cap) {origin progress : Progress κ α}
    {source middle : σ} (horderly : origin.Orderly) (hlayered : origin.Layered)
    (hpassed : upper.Passes origin source progress middle) {position : Nat} {node : Node κ α}
    {queue : Queue Nat} (hfaces : progress.Faces position node queue) (hdepth : node.depth < cap) :
    lower.Passes origin source progress middle := by
  induction hpassed generalizing position node queue with
  | start => exact .start
  | turn hpassed hfront hverdict ih =>
      have hmono := (hpassed.reaches.layered horderly hlayered).front_mono hfront hfaces
      have habove := Nat.lt_of_le_of_lt hmono hdepth
      refine .turn (ih hfront habove) hfront ?_
      rw [h.judge_eq habove]
      exact hverdict

/-- If the run with the higher limit fails at a region above the lower limit, the
run with the lower limit fails there too. -/
theorem Truncates.failsAt (h : lower.Truncates upper cap) {width length : α} {source after : σ}
    {depth : Nat} {failure : LayoutError α} (hdepth : depth < cap)
    (hfails : upper.FailsAt width length source depth failure after) :
    lower.FailsAt width length source depth failure after := by
  obtain ⟨hbounds, progress, middle, position, node, queue, hpassed, hfaces, rfl, hfailed⟩ := hfails
  have hroot : lower.settings.root = upper.settings.root := by rw [h.settings]
  refine ⟨hbounds, progress, middle, position, node, queue, ?_, hfaces, rfl, ?_⟩
  · rw [hroot]
    exact h.passes (Progress.orderly_start _ _) (Progress.layered_start _ _) hpassed hfaces hdepth
  · rw [h.judge_eq hdepth]
    exact hfailed

/-- From a state without queued regions above the limit the run with the limit ends,
in a tree that agrees down to the limit with that of any other run that goes on from
there. -/
theorem exists_run_of_deep (hcap : lower.settings.maxDepth = some cap) {width length : α}
    (hbounds : Rect.checked (⟨0, 0, width, length⟩ : Rect α) = .ok ⟨0, 0, width, length⟩)
    {source middle : σ} (hsource : DrawSource.Supplies (fun _ => True) source)
    {reached final : Progress κ α}
    (hpassed : lower.Passes (.start lower.settings.root ⟨0, 0, width, length⟩) source reached
      middle)
    (hdeep : reached.Deep cap) (hextends : reached.Extends final) {root : Region κ α}
    (hroot : root.StandsAt final.nodes 0) :
    ∃ enough truncated rest, (∀ more ≥ enough,
        (lower.run more width length).run source = (.ok (some truncated), rest)) ∧
      truncated.root.AgreesTo cap root := by
  have hstart := Progress.orderly_start lower.settings.root (⟨0, 0, width, length⟩ : Rect α)
  have horderly := hpassed.reaches.orderly hstart
  have hdeepens := hpassed.reaches.deepens hstart (Progress.deepens_start _ _)
  obtain ⟨last, rest, hlast⟩ := exists_final_of_deep hcap horderly hdeep (hpassed.supplies hsource)
  obtain ⟨turns, hturns⟩ := hpassed.exists_turns
  obtain ⟨hreached, _⟩ := reaches_of_run_process hlast
  obtain ⟨tree, hassembled, htree⟩ := (hreached.orderly horderly).exists_root
  refine ⟨reached.queue.toList.length + turns, lower.finish ⟨0, 0, width, length⟩ last, rest,
    fun more hmore => ?_, ?_⟩
  · exact run_of_checked hbounds (process_of_le hmore ((hturns _).trans hlast) (by simp))
  · rw [finish, hassembled, Option.getD_some]
    exact Progress.agreesTo_of_standsAt hdeepens hdeep (hreached.extends_origin horderly) hextends
      (Nat.zero_add cap) hdeepens.root htree hroot

/-- A lower limit of the depth only truncates.  With a source that never fails, if a
run returns a layout, so does the run with the lower limit, and its layout agrees
down to this limit; and if a run fails at a region above the lower limit, the run
with the lower limit fails alike.  A run fails nowhere but at its rectangle or at
some region. -/
theorem run_truncates (hlimits : lower.Truncates upper cap) {source : σ}
    (hsource : DrawSource.Supplies (fun _ => True) source) (width length : α) :
    (∀ limit generation after,
      (upper.run limit width length).run source = (.ok (some generation), after) →
      ∃ enough truncated rest, (∀ more ≥ enough,
          (lower.run more width length).run source = (.ok (some truncated), rest)) ∧
        truncated.root.AgreesTo cap generation.root) ∧
    (∀ depth < cap, ∀ failure after,
      upper.FailsAt width length source depth failure after →
      ∃ enough, ∀ more ≥ enough,
        (lower.run more width length).run source = (.error failure, after)) ∧
    ∀ failure after,
      (∃ limit, (upper.run limit width length).run source = (.error failure, after)) ↔
        (Rect.checked (⟨0, 0, width, length⟩ : Rect α) = .error failure ∧ source = after) ∨
          ∃ depth, upper.FailsAt width length source depth failure after := by
  refine ⟨fun limit generation after hrun => ?_, fun depth hdepth failure after hfails => ?_,
    fun failure after => run_fails_iff⟩
  · obtain ⟨hbounds, final, hprocess, rfl⟩ := exists_process_of_run hrun
    have hroot : lower.settings.root = upper.settings.root := by rw [hlimits.settings]
    have hcap : lower.settings.maxDepth = some cap := by rw [hlimits.settings]
    have hstart := Progress.orderly_start upper.settings.root (⟨0, 0, width, length⟩ : Rect α)
    obtain ⟨reached, middle, hpassed, hdeep, hreached⟩ :=
      hlimits.exists_deep hstart (Progress.layered_start _ _) hprocess
    have horderly := hpassed.reaches.orderly hstart
    obtain ⟨root, hassembled, hstands⟩ := (hreached.orderly horderly).exists_root
    rw [finish, hassembled, Option.getD_some]
    rw [← hroot] at hpassed
    exact exists_run_of_deep hcap hbounds hsource hpassed hdeep
      (hreached.extends_origin horderly) hstands
  · exact (hlimits.failsAt hdepth hfails).exists_limit

end Engine

/-- With the same steady draws the small garden stops at its two parcels when two
levels are allowed. -/
theorem Garden.run_truncates_small :
    ∃ generation after enough truncated rest,
      (small.run 12 400 300).run (⟨1 / 10⟩ : Steady Rat) = (.ok (some generation), after) ∧
      generation.stats.maxDepth = 3 ∧
      (∀ more ≥ enough, ((small.withMaxDepth (some 2)).run more 400 300).run
        (⟨1 / 10⟩ : Steady Rat) = (.ok (some truncated), rest)) ∧
      truncated.root.AgreesTo 2 generation.root := by
  have hfinished : (Engine.finished ((small.run 12 400 300).run (⟨1 / 10⟩ : Steady Rat))).map
      (fun generation => generation.stats.maxDepth) = some 3 := by
    decide +kernel
  obtain ⟨generation, hgeneration, hdeepest⟩ := Option.map_eq_some_iff.mp hfinished
  obtain ⟨after, hrun⟩ := Engine.eq_of_finished hgeneration
  have hunlimited : small.settings.maxDepth = none := by
    decide +kernel
  have hlimits : (small.withMaxDepth (some 2)).Truncates small 2 := by
    apply Engine.truncates_withMaxDepth
    intro limit hlimit
    rw [hunlimited] at hlimit
    cases hlimit
  obtain ⟨enough, truncated, rest, hends, hagrees⟩ :=
    (Engine.run_truncates hlimits (Steady.supplies trivial) 400 300).1 12 generation after hrun
  exact ⟨generation, after, enough, truncated, rest, hrun, hdeepest, hends, hagrees⟩

end Parterre
