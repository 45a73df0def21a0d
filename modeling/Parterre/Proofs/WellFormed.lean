/-
Finished trees are well formed: nothing is pending, exactly the terminal
regions are leaves, a tiling is not empty, and an embedded pair is a frame of
the full size and a final feature inside the margin.
-/
import Parterre.Proofs.Placement
import Parterre.Garden.Rules
import Parterre.Source.Script

namespace Parterre

variable {κ α σ : Type}

theorem Region.StandsAt.bounds_eq {nodes : Array (Node κ α)} {position : Nat}
    {region : Region κ α} {node : Node κ α} (h : region.StandsAt nodes position)
    (hnode : nodes[position]? = some node) : region.bounds = node.bounds := by
  cases h with
  | node hfound _ =>
      rw [hnode, Option.some.injEq] at hfound
      rw [hfound, Region.bounds]

/-- The layout that a run returned. -/
def Engine.finished : Except (LayoutError α) (Option (Generation κ α)) × σ →
    Option (Generation κ α)
  | (.ok generation, _) => generation
  | _ => none

theorem Engine.eq_of_finished {result : Except (LayoutError α) (Option (Generation κ α)) × σ}
    {generation : Generation κ α} (h : Engine.finished result = some generation) :
    ∃ after, result = (.ok (some generation), after) := by
  obtain ⟨_ | given, after⟩ := result
  · cases h
  · exact ⟨after, by rw [show given = some generation from h]⟩

variable [Scalar α]

/-- State, composition and children of a finished region agree. -/
structure Region.WellFormed (region : Region κ α) : Prop where
  decided : region.state ≠ .pending
  terminal_iff : region.state = .terminal ↔ region.children = []
  leaf_iff : region.children = [] ↔ region.composition = none
  /-- A tiled region has a part. -/
  parts : region.composition = some .tiled → region.children ≠ []
  /-- An embedded pair is the region and a leaf inside the margin. -/
  pair : ∀ margin, region.composition = some (.embedded margin) →
    ∃ frame feature, region.children = [frame, feature] ∧
      frame.bounds = region.bounds ∧ feature.state = .terminal ∧
      feature.children = [] ∧ region.bounds.inset margin = .ok feature.bounds

namespace Region.StandsAt

variable {progress : Progress κ α} {position : Nat} {region : Region κ α}

/-- A terminal node carries a leaf. -/
theorem leaf_of_terminal (h : region.StandsAt progress.nodes position)
    (horderly : progress.Orderly) {node : Node κ α}
    (hnode : progress.nodes[position]? = some node)
    (hterminal : node.state = .terminal) :
    region = .final node.kind node.bounds := by
  cases h with
  | @node _ found children hfound hchildren =>
      rw [hnode, Option.some.injEq] at hfound
      subst hfound
      cases horderly.shaped position node hnode with
      | terminal _ hcomposition hnone =>
          rw [hnone] at hchildren
          cases hchildren
          rw [Region.final, hterminal, hcomposition]
      | pending hstate | tiled hstate | embedded hstate =>
          rw [hterminal] at hstate
          cases hstate

/-- When nothing is queued any more, the tree of every position is well
formed. -/
theorem wellFormed (h : region.StandsAt progress.nodes position)
    (horderly : progress.Orderly) (hempty : progress.queue.toList = []) :
    region.WellFormed := by
  cases h with
  | @node _ node children hnode hchildren =>
      cases horderly.shaped position node hnode with
      | pending hstate _ _ =>
          have hmem := (horderly.mem_queue_iff position).mpr ⟨node, hnode, hstate⟩
          rw [hempty] at hmem
          cases hmem
      | terminal hstate hcomposition hnone =>
          rw [hnone] at hchildren
          cases hchildren
          constructor <;> simp [Region.state, Region.composition, Region.children,
            hstate, hcomposition]
      | tiled hstate hcomposition hsome =>
          have hparts : children ≠ [] := by
            rintro rfl
            exact hsome (List.forall₂_nil_right_iff.mp hchildren)
          constructor <;> simp [Region.state, Region.composition, Region.children,
            hstate, hcomposition, hparts]
      | @embedded margin first second frame feature hstate hcomposition hpair
          hframe hbounds hfeature hterminal hinset =>
          rw [hpair] at hchildren
          obtain ⟨frameTree, rest, hfirst, hrest, rfl⟩ :=
            List.forall₂_cons_left_iff.mp hchildren
          obtain ⟨featureTree, rest, hsecond, hnil, rfl⟩ :=
            List.forall₂_cons_left_iff.mp hrest
          obtain rfl := List.forall₂_nil_left_iff.mp hnil
          have hleaf := hsecond.leaf_of_terminal horderly hfeature hterminal
          constructor
          case pair =>
            intro other hother
            simp only [Region.composition, hcomposition, Option.some.injEq,
              Composition.embedded.injEq] at hother
            subst hother
            subst hleaf
            exact ⟨frameTree, .final feature.kind feature.bounds, rfl,
              (hfirst.bounds_eq hframe).trans hbounds, rfl, rfl, hinset⟩
          all_goals simp [Region.state, Region.composition, Region.children, hstate,
            hcomposition]

end Region.StandsAt

namespace Engine

variable [DecidableEq κ] [RegionKind κ] [DrawSource σ α]

/-- A run that returns a layout started from a proper rectangle and has worked
off its queue, and its tree is that of the first position of the arena. -/
theorem exists_final_of_delivers {engine : Engine κ α} {admits : α → Prop} {limit : Nat}
    {width height : α} {source after : σ} {generation : Generation κ α}
    (hsource : DrawSource.Delivers admits source)
    (hrun : (engine.run limit width height).run source =
      (.ok (some generation), after)) :
    (⟨0, 0, width, height⟩ : Rect α).Proper ∧
      ∃ final, engine.Reaches admits
          (.start engine.settings.root ⟨0, 0, width, height⟩) final ∧
        final.queue.toList = [] ∧
        generation = engine.finish ⟨0, 0, width, height⟩ final := by
  obtain ⟨houtcome, _⟩ := Sampler.outcome_of_run hsource hrun
  simp only [run, Sampler.outcome_bind_ok_iff, Sampler.outcome_lift_iff,
    Sampler.outcome_pure_iff, Except.ok.injEq] at houtcome
  obtain ⟨bounds, hbounds, progress, hprogress, hgeneration⟩ := houtcome
  obtain ⟨rfl, hproper⟩ := Rect.checked_eq_ok_iff.mp hbounds.symm
  cases progress with
  | none => cases hgeneration
  | some final =>
      rw [Option.map_some, Option.some.injEq] at hgeneration
      obtain ⟨hreached, hempty⟩ := reaches_of_process hprogress
      exact ⟨hproper, final, hreached, hempty, hgeneration⟩

theorem exists_final_of_run {engine : Engine κ α} {limit : Nat} {width height : α}
    {source after : σ} {generation : Generation κ α}
    (hrun : (engine.run limit width height).run source =
      (.ok (some generation), after)) :
    ∃ final, engine.Reaches (fun _ => True)
        (.start engine.settings.root ⟨0, 0, width, height⟩) final ∧
      final.queue.toList = [] ∧
      generation = engine.finish ⟨0, 0, width, height⟩ final :=
  (exists_final_of_delivers (DrawSource.delivers_any source) hrun).2

/-- The arena is in order at every turn, and a finished layout has the asked
size, is well formed in every region, and visits every node of the arena
once. -/
theorem run_wellFormed (engine : Engine κ α) (width height : α) :
    (∀ progress, engine.Reaches (fun _ => True)
        (.start engine.settings.root ⟨0, 0, width, height⟩) progress →
      progress.Orderly) ∧
    ∀ (limit : Nat) (source after : σ) (generation : Generation κ α),
      (engine.run limit width height).run source = (.ok (some generation), after) →
      generation.root.bounds = ⟨0, 0, width, height⟩ ∧
      (∀ region ∈ generation.root.walk, region.WellFormed) ∧
      ∃ final, engine.Reaches (fun _ => True)
          (.start engine.settings.root ⟨0, 0, width, height⟩) final ∧
        final.queue.toList = [] ∧
        generation = engine.finish ⟨0, 0, width, height⟩ final ∧
        ∃ places, places.Perm (List.range final.nodes.size) ∧
          List.Forall₂ (Region.StandsAt final.nodes) places generation.root.walk := by
  have hstart : (Progress.start engine.settings.root
      (⟨0, 0, width, height⟩ : Rect α)).Orderly := Progress.orderly_start _ _
  refine ⟨fun progress hreached => hreached.orderly hstart, ?_⟩
  intro limit source after generation hrun
  obtain ⟨final, hreached, hempty, rfl⟩ := exists_final_of_run hrun
  have horderly := hreached.orderly hstart
  obtain ⟨root, hroot, hstands⟩ := horderly.exists_root
  have hfinish : (engine.finish ⟨0, 0, width, height⟩ final).root = root := by
    rw [finish, hroot, Option.getD_some]
  obtain ⟨places, hplaces, hperm⟩ := hstands.exists_places
  rw [hfinish]
  refine ⟨?_, ?_, final, hreached, hempty, rfl, places, ?_, hplaces⟩
  · obtain ⟨kept, hkept, hbounds⟩ := hreached.bounds hstart (Progress.node_start _ _)
    exact (hstands.bounds_eq hkept).trans hbounds
  · intro region hregion
    obtain ⟨place, _, hplace⟩ := exists_of_forall₂_of_mem hplaces hregion
    exact hplace.wellFormed horderly hempty
  · apply horderly.perm_range_of_places _ hperm
    intro place hmem
    obtain ⟨region, _, hplace⟩ := exists_of_forall₂_of_mem hplaces.flip hmem
    exact hplace.lt_size

end Engine

namespace Garden

/-- A garden with a narrow path whose zones are parcels at once. -/
def Config.small : Config Rat where
  minDim := 60
  maxDepth := none
  pathWidth := 50
  corridorRatio := ⟨1 / 5, 4 / 5⟩
  splitRatio := ⟨3 / 10, 7 / 10⟩
  minZoneSize := 400
  pond := ⟨150, 20⟩
  fountain := ⟨150, 40⟩
  treasure := ⟨1 / 10, 100, 10⟩
  parcelWeights := ⟨1 / 5, 1 / 4, 1 / 5, 1 / 20, 1 / 20, 1 / 4⟩
  safeguard := [⟨.grass, 1⟩]

/-- The engine of the small garden. -/
def small : Engine Kind Rat :=
  (engine Config.small).toOption.get (by decide +kernel)

/-- A path from top to bottom with a pond on its left and a forest on its
right. -/
def smallDraws : Script Rat :=
  .ofList [1 / 4, 1 / 2, 1 / 10, 3 / 10]

theorem small_finished :
    ∃ generation after,
      (small.run 12 400 300).run smallDraws = (.ok (some generation), after) ∧
        generation.stats = ⟨8, 9, 4, 3, 1, 1⟩ := by
  have hfinished : (Engine.finished ((small.run 12 400 300).run smallDraws)).map
      Generation.stats = some ⟨8, 9, 4, 3, 1, 1⟩ := by
    decide +kernel
  obtain ⟨generation, hgeneration, hstats⟩ := Option.map_eq_some_iff.mp hfinished
  obtain ⟨after, hrun⟩ := Engine.eq_of_finished hgeneration
  exact ⟨generation, after, hrun, hstats⟩

theorem run_wellFormed_small :
    ∃ generation after,
      (small.run 12 400 300).run smallDraws = (.ok (some generation), after) ∧
      generation.root.bounds = ⟨0, 0, 400, 300⟩ ∧
      ∀ region ∈ generation.root.walk, region.WellFormed := by
  obtain ⟨generation, after, hrun, _⟩ := small_finished
  obtain ⟨hbounds, hregions, _⟩ :=
    (Engine.run_wellFormed small 400 300).2 12 smallDraws after generation hrun
  exact ⟨generation, after, hrun, hbounds, hregions⟩

end Garden

end Parterre
