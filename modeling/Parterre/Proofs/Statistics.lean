/-
The counts of a finished run describe its tree.  The arena holds a node for every
region with its depth, and the loop has decided about every region but the
features, and has stopped those of them that are too small or too deep.
-/
import Parterre.Proofs.DepthOrder
import Parterre.Proofs.Ground

namespace Parterre

variable {κ α σ : Type}

theorem map_childrenAt (nodes : Array (Node κ α)) :
    (List.range nodes.size).map (childrenAt nodes) = nodes.toList.map Node.children := by
  apply List.ext_getElem
  · simp
  · intro position hposition hlt
    rw [List.getElem_map, List.getElem_map, List.getElem_range, childrenAt_eq]
    rw [List.length_map, Array.length_toList] at hlt
    rw [Array.getElem_toList, Array.getElem?_eq_getElem hlt]

namespace Region

theorem lt_depth_of_mem {region child : Region κ α} (h : child ∈ region.children) :
    child.depth < region.depth := by
  obtain ⟨kind, bounds, state, composition, children⟩ := region
  rw [Region.children] at h
  rw [depth]
  induction children with
  | nil => cases h
  | cons first rest ih =>
      rw [levels]
      rcases List.mem_cons.mp h with rfl | hrest
      · exact Nat.lt_of_lt_of_le (Nat.lt_succ_self _) (Nat.le_max_left _ _)
      · exact Nat.lt_of_lt_of_le (ih hrest) (Nat.le_max_right _ _)

/-- Some child reaches down to the lowest level. -/
theorem exists_deepest {region : Region κ α} (h : region.children ≠ []) :
    ∃ child ∈ region.children, region.depth = child.depth + 1 := by
  obtain ⟨kind, bounds, state, composition, children⟩ := region
  rw [Region.children] at h ⊢
  rw [depth]
  induction children with
  | nil => exact absurd rfl h
  | cons first rest ih =>
      rw [levels]
      rcases Nat.le_total (levels rest) (first.depth + 1) with hle | hle
      · exact ⟨first, List.mem_cons_self, Nat.max_eq_left hle⟩
      · have hrest : rest ≠ [] := by
          rintro rfl
          exact Nat.not_succ_le_zero _ hle
        obtain ⟨child, hchild, hdepth⟩ := ih hrest
        exact ⟨child, List.mem_cons_of_mem _ hchild, (Nat.max_eq_right hle).trans hdepth⟩

/-- Some node of the arena is as deep as the tree of a position reaches. -/
theorem StandsAt.exists_depth {progress : Progress κ α} (hdeepens : progress.Deepens)
    {region : Region κ α} {position depth : Nat} (h : region.StandsAt progress.nodes position)
    (hdepth : progress.HasDepth position depth) :
    ∃ place, progress.HasDepth place (depth + region.depth) := by
  induction region using Region.induct generalizing position depth with
  | node kind bounds state composition children ih =>
      cases h with
      | @node _ node _ hnode hchildren =>
          by_cases hnone : children = []
          · subst hnone
            exact ⟨position, hdepth⟩
          · obtain rfl := hdepth.unique (Progress.hasDepth_of_node hnode)
            have hsome : (Region.node node.kind node.bounds node.state node.composition
                children).children ≠ [] := hnone
            obtain ⟨child, hchild, hdeepest⟩ := exists_deepest hsome
            obtain ⟨place, hplace, hstands⟩ := exists_of_forall₂_of_mem hchildren hchild
            obtain ⟨deepest, hfound⟩ :=
              ih child hchild hstands (hdeepens.child position node hnode place hplace)
            rw [Nat.add_right_comm] at hfound
            exact ⟨deepest, hdeepest ▸ hfound⟩

end Region

namespace Progress

variable [Scalar α] {progress : Progress κ α} {root region : Region κ α}

/-- Every position of the arena carries a tree. -/
theorem Orderly.exists_standsAt (h : progress.Orderly) {position : Nat}
    (hlt : position < progress.nodes.size) :
    ∃ region : Region κ α, region.StandsAt progress.nodes position := by
  obtain ⟨_, htrees⟩ := h.standsAt_of_foldr (List.nil_append _).symm
  obtain ⟨region, _, hstands⟩ := htrees position (Nat.zero_le _) hlt
  exact ⟨region, hstands⟩

/-- No tree of the arena reaches deeper than the one at its first position. -/
theorem Orderly.depth_le (h : progress.Orderly) (hdeepens : progress.Deepens)
    (hroot : root.StandsAt progress.nodes 0) {position depth : Nat}
    (hregion : region.StandsAt progress.nodes position)
    (hdepth : progress.HasDepth position depth) : depth + region.depth ≤ root.depth := by
  induction position using Nat.strong_induction_on generalizing region depth with
  | _ position ih =>
      by_cases hzero : position = 0
      · subst hzero
        rw [hregion.unique hroot, hdepth.unique hdeepens.root, Nat.zero_add]
      · obtain ⟨parent, hchild⟩ :=
          (h.mem_children_iff position).mpr ⟨Nat.pos_of_ne_zero hzero, hregion.lt_size⟩
        obtain ⟨node, hnode, hmem⟩ := exists_of_mem_childrenAt hchild
        obtain ⟨above, habove⟩ :=
          h.exists_standsAt (Array.getElem?_eq_some_iff.mp hnode).1
        have hparent : node.depth + above.depth ≤ root.depth :=
          ih parent (h.lt_of_mem_childrenAt hchild) habove (hasDepth_of_node hnode)
        -- the tree stands among the children of the tree of its parent
        have hbelow : region.depth < above.depth := by
          cases habove with
          | node hfound hchildren =>
              rw [hnode, Option.some.injEq] at hfound
              subst hfound
              obtain ⟨found, hfound, hstands⟩ := exists_of_forall₂_of_mem hchildren.flip hmem
              rw [hregion.unique hstands]
              exact Region.lt_depth_of_mem hfound
        have hsame := hdepth.unique (hdeepens.child parent node hnode position hmem)
        omega

/-- The deepest node is on the lowest level of the tree. -/
theorem Orderly.maxDepth_stats (h : progress.Orderly) (hdeepens : progress.Deepens)
    (hroot : root.StandsAt progress.nodes 0) : progress.stats.maxDepth = root.depth := by
  apply Nat.le_antisymm
  · apply maxDepth_stats_le_iff.mpr
    intro position node hposition
    obtain ⟨region, hregion⟩ := h.exists_standsAt (Array.getElem?_eq_some_iff.mp hposition).1
    have hdepth := h.depth_le hdeepens hroot hregion (hasDepth_of_node hposition)
    exact (Nat.le_add_right _ _).trans hdepth
  · obtain ⟨place, hplace⟩ := hroot.exists_depth hdeepens hdeepens.root
    obtain ⟨node, hnode, hdepth⟩ := Option.map_eq_some_iff.mp hplace
    rw [Nat.zero_add] at hdepth
    rw [← hdepth]
    exact maxDepth_stats_le_iff.mp (Nat.le_refl _) place node hnode

/-- The tree of the first position visits every position of the arena once. -/
theorem Orderly.exists_places (h : progress.Orderly) (hroot : root.StandsAt progress.nodes 0) :
    ∃ places, places.Perm (List.range progress.nodes.size) ∧
      List.Forall₂ (Region.StandsAt progress.nodes) places root.walk := by
  obtain ⟨places, hplaces, hperm⟩ := hroot.exists_places
  refine ⟨places, h.perm_range_of_places ?_ hperm, hplaces⟩
  intro place hmem
  obtain ⟨region, _, hplace⟩ := exists_of_forall₂_of_mem hplaces.flip hmem
  exact hplace.lt_size

theorem Orderly.regions_stats (h : progress.Orderly) (hroot : root.StandsAt progress.nodes 0) :
    progress.stats.regions = root.count := by
  obtain ⟨places, hperm, hplaces⟩ := h.exists_places hroot
  rw [Region.count, ← hplaces.length_eq, hperm.length_eq, List.length_range]
  rfl

/-- A region is a leaf where its node has no children. -/
theorem Orderly.leaves_stats (h : progress.Orderly) (hroot : root.StandsAt progress.nodes 0) :
    progress.stats.leaves = root.leaves.length := by
  obtain ⟨places, hperm, hplaces⟩ := h.exists_places hroot
  have hleaf : ∀ place region, Region.StandsAt progress.nodes place region →
      (childrenAt progress.nodes place).isEmpty = region.isLeaf := by
    intro place region hstands
    cases hstands with
    | node hnode hchildren =>
        rw [childrenAt_eq hnode, Region.isLeaf, Region.children, Bool.eq_iff_iff,
          List.isEmpty_iff_length_eq_zero, List.isEmpty_iff_length_eq_zero, hchildren.length_eq]
  calc progress.stats.leaves
      = (progress.nodes.toList.map Node.children).countP List.isEmpty := by
        rw [stats, List.countP_map, ← Array.countP_toList]
        rfl
    _ = places.countP fun place => (childrenAt progress.nodes place).isEmpty := by
        rw [← map_childrenAt, List.countP_map, hperm.countP_eq]
        rfl
    _ = root.walk.countP Region.isLeaf := countP_eq_of_forall₂ hleaf hplaces
    _ = root.leaves.length := by rw [Region.leaves, List.countP_eq_length_filter]

end Progress

namespace Engine

variable [DecidableEq κ] [RegionKind κ] [Scalar α] [DrawSource σ α]

section

variable {engine : Engine κ α} {limit : Nat} {width length : α} {source after : σ}
  {generation : Generation κ α}
  (hrun : (engine.run limit width length).run source = (.ok (some generation), after))

include hrun

/-- A layout is the tree at the first position of the arena in which its run ends. -/
theorem exists_arena_of_run :
    ∃ final : Progress κ α,
      (engine.process limit (.start engine.settings.root ⟨0, 0, width, length⟩)).run source =
        (.ok (some final), after) ∧
      final.Orderly ∧ final.Deepens ∧
      generation.stats = final.stats ∧ generation.root.StandsAt final.nodes 0 := by
  obtain ⟨_, final, hprocess, rfl⟩ := exists_process_of_run hrun
  obtain ⟨hreached, _⟩ := reaches_of_run_process hprocess
  have hstart := Progress.orderly_start engine.settings.root (⟨0, 0, width, length⟩ : Rect α)
  have horderly := hreached.orderly hstart
  obtain ⟨root, hassembled, hroot⟩ := horderly.exists_root
  refine ⟨final, hprocess, horderly, hreached.deepens hstart (Progress.deepens_start _ _), rfl,
    ?_⟩
  rwa [finish, hassembled, Option.getD_some]

/-- The loop has counted the verdicts on the ground of its layout. -/
theorem exists_verdicts_of_run :
    ∃ verdicts, List.Forall₂ engine.Shows (generation.root.grounds 0) verdicts ∧
      generation.stats.iterations = verdicts.length ∧
      generation.stats.embeds = verdicts.countP Verdict.isEmbedding ∧
      generation.stats.safeguarded = verdicts.countP Verdict.isStopped := by
  obtain ⟨final, hprocess, _, _, hstats, hroot⟩ := exists_arena_of_run hrun
  obtain ⟨lines, hgiven, hrecords, _, htrees, hcounts⟩ := exists_lines_of_process
    (Progress.queued_start _ _) (Progress.awaits_start _ _) hprocess
  obtain ⟨line, rest, rfl, _, hnone⟩ := List.map_eq_cons_iff.mp hgiven
  obtain rfl := List.map_eq_nil_iff.mp hnone
  have hline : line.tree = generation.root := by
    obtain ⟨hfirst, _⟩ := List.forall₂_cons.mp htrees
    exact hfirst.unique hroot
  have hshows := (hrecords line List.mem_cons_self).shows_verdicts
  rw [hline] at hshows
  rw [Lineage.verdictsAll, Lineage.verdictsAll, List.append_nil] at hcounts
  rw [hstats]
  exact ⟨line.verdicts, hshows, hcounts.iterations.trans (Nat.zero_add _),
    hcounts.embeds.trans (Nat.zero_add _), hcounts.safeguarded.trans (Nat.zero_add _)⟩

theorem leaves_of_run : generation.stats.leaves = generation.root.leaves.length := by
  obtain ⟨final, _, horderly, _, hstats, hroot⟩ := exists_arena_of_run hrun
  rw [hstats, horderly.leaves_stats hroot]

theorem embeds_of_run :
    generation.stats.embeds = generation.root.walk.countP Region.isEmbedding := by
  obtain ⟨verdicts, hshows, _, hembeds, _⟩ := exists_verdicts_of_run hrun
  calc generation.stats.embeds = verdicts.countP Verdict.isEmbedding := hembeds
    _ = (generation.root.grounds 0).countP fun place => place.2.isEmbedding :=
        (countP_eq_of_forall₂ (fun _ _ hplace => hplace.2) hshows).symm
    _ = generation.root.walk.countP Region.isEmbedding :=
        Region.countP_isEmbedding_grounds (wellFormed_of_run hrun) 0

end

/-- The counts of a run that returns a layout: its regions and leaves, the levels
below its root, the embedded pairs in it, the regions that were decided about,
which are all but one for each embedded pair, and those of them that are too small
or too deep. -/
theorem run_counts (engine : Engine κ α) {limit : Nat} {width length : α} {source after : σ}
    {generation : Generation κ α}
    (hrun : (engine.run limit width length).run source = (.ok (some generation), after)) :
    generation.stats.regions = generation.root.count ∧
    generation.stats.leaves = generation.root.leaves.length ∧
    generation.stats.maxDepth = generation.root.depth ∧
    generation.stats.embeds = generation.root.walk.countP Region.isEmbedding ∧
    generation.stats.iterations + generation.stats.embeds = generation.stats.regions ∧
    generation.stats.safeguarded = (generation.root.grounds 0).countP engine.stops ∧
    generation.root.walk.Perm
      ((generation.root.grounds 0).map Prod.snd ++ generation.root.features) := by
  obtain ⟨final, _, horderly, hdeepens, hstats, hroot⟩ := exists_arena_of_run hrun
  obtain ⟨verdicts, hshows, hiterations, _, hsafeguarded⟩ := exists_verdicts_of_run hrun
  have hwell := wellFormed_of_run hrun
  have hregions : generation.stats.regions = generation.root.count := by
    rw [hstats, horderly.regions_stats hroot]
  have hground := Region.walk_perm_grounds hwell 0
  refine ⟨hregions, leaves_of_run hrun, ?_, embeds_of_run hrun, ?_, ?_, hground⟩
  · rw [hstats, horderly.maxDepth_stats hdeepens hroot]
  · have hlength := hground.length_eq
    rw [List.length_append, List.length_map, Region.length_features hwell] at hlength
    rw [hregions, hiterations, ← hshows.length_eq, embeds_of_run hrun, Region.count, hlength]
  · calc generation.stats.safeguarded = verdicts.countP Verdict.isStopped := hsafeguarded
      _ = (generation.root.grounds 0).countP engine.stops :=
          (countP_eq_of_forall₂ (fun _ _ hplace => hplace.1) hshows).symm

end Engine

/-- The small garden has a pond on grass and a path that is too narrow to be
divided. -/
theorem Garden.run_counts_small :
    ∃ generation after,
      (small.run 12 400 300).run smallDraws = (.ok (some generation), after) ∧
      generation.root.count = 9 ∧ generation.root.leaves.length = 4 ∧
      generation.root.depth = 3 ∧ generation.root.walk.countP Region.isEmbedding = 1 ∧
      (generation.root.grounds 0).countP small.stops = 1 := by
  obtain ⟨generation, after, hrun, hstats⟩ := small_finished
  obtain ⟨hregions, hleaves, hdepth, hembeds, _, hsafeguarded, _⟩ :=
    Engine.run_counts small hrun
  rw [hstats] at hregions hleaves hdepth hembeds hsafeguarded
  exact ⟨generation, after, hrun, hregions.symm, hleaves.symm, hdepth.symm, hembeds.symm,
    hsafeguarded.symm⟩

end Parterre
