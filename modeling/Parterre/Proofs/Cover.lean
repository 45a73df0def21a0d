/-
A layout over the exact rationals tiles the area it was asked for.  Features
lie on top of their frames, so they are left aside: what is tiled is the area
under them.
-/
import Mathlib
import Parterre.Proofs.Growth
import Parterre.Proofs.Tiling

namespace Parterre

variable {κ α σ : Type}

namespace Region

mutual

/-- The leaves of a tree when the features of embedded pairs are left aside. -/
def groundLeaves : Region κ α → List (Region κ α)
  | .node kind bounds state composition [] =>
      [.node kind bounds state composition []]
  | .node _ _ _ (some (.embedded _)) (frame :: _) => frame.groundLeaves
  | .node _ _ _ _ (first :: rest) => first.groundLeaves ++ groundLeavesAll rest

def groundLeavesAll : List (Region κ α) → List (Region κ α)
  | [] => []
  | region :: rest => region.groundLeaves ++ groundLeavesAll rest

end

/-- The children of a region that lie on top of another child. -/
def overlays (region : Region κ α) : List (Region κ α) :=
  match region.composition with
  | some (.embedded _) => region.children.drop 1
  | _ => []

/-- The features of a tree. -/
def features (region : Region κ α) : List (Region κ α) :=
  region.walk.flatMap overlays

theorem groundLeavesAll_eq_flatMap (regions : List (Region κ α)) :
    groundLeavesAll regions = regions.flatMap groundLeaves := by
  induction regions with
  | nil => rfl
  | cons region rest ih => rw [groundLeavesAll, ih, List.flatMap_cons]

@[simp]
theorem groundLeaves_final (kind : κ) (bounds : Rect α) :
    (final kind bounds).groundLeaves = [.final kind bounds] := by
  rw [final, groundLeaves]

theorem groundLeaves_tiled (kind : κ) (bounds : Rect α) (state : Status)
    {children : List (Region κ α)} (h : children ≠ []) :
    (node kind bounds state (some .tiled) children).groundLeaves =
      children.flatMap groundLeaves := by
  obtain ⟨first, rest, rfl⟩ := List.exists_cons_of_ne_nil h
  rw [groundLeaves, groundLeavesAll_eq_flatMap, List.flatMap_cons]
  intro margin
  simp

theorem groundLeaves_embedded (kind : κ) (bounds : Rect α) (state : Status) (margin : α)
    (frame : Region κ α) (rest : List (Region κ α)) :
    (node kind bounds state (some (.embedded margin)) (frame :: rest)).groundLeaves =
      frame.groundLeaves := by
  rw [groundLeaves]

theorem walk_final (kind : κ) (bounds : Rect α) :
    (final kind bounds).walk = [.final kind bounds] :=
  walk_of_leaf rfl

@[simp]
theorem leaves_final (kind : κ) (bounds : Rect α) :
    (final kind bounds).leaves = [.final kind bounds] := by
  rw [leaves, walk_final]
  rfl

theorem features_eq (region : Region κ α) :
    region.features = region.overlays ++ region.children.flatMap features := by
  rw [features, walk_eq, List.flatMap_cons, List.flatMap_assoc]
  rfl

theorem features_of_leaf {region : Region κ α} (h : region.children = []) :
    region.features = [] := by
  rw [features_eq, overlays, h, List.drop_nil, List.flatMap_nil, List.append_nil]
  split <;> rfl

@[simp]
theorem features_final (kind : κ) (bounds : Rect α) :
    (final kind bounds).features = [] :=
  features_of_leaf rfl

/-- What a region of a finished layout covers. -/
structure Covered (region : Region κ Rat) : Prop where
  /-- Everything below lies in the region. -/
  encloses : ∀ below ∈ region.walk, region.bounds.encloses below.bounds = true
  tiled : region.composition = some .tiled →
    region.bounds.TiledBy (region.children.map bounds)
  /-- A feature keeps the margin on all four sides. -/
  offset : ∀ margin, region.composition = some (.embedded margin) →
    ∃ frame feature, region.children = [frame, feature] ∧
      feature.bounds.x = region.bounds.x + margin ∧
      feature.bounds.y = region.bounds.y + margin ∧
      feature.bounds.right = region.bounds.right - margin ∧
      feature.bounds.bottom = region.bounds.bottom - margin
  ground : region.bounds.TiledBy (region.groundLeaves.map bounds)
  leaves : region.leaves.Perm (region.groundLeaves ++ region.features)

theorem covered_final (kind : κ) (bounds : Rect Rat) :
    (final kind bounds).Covered where
  encloses := by
    intro below hbelow
    rw [walk_final, List.mem_singleton] at hbelow
    rw [hbelow]
    exact Rect.encloses_refl bounds
  tiled := nofun
  offset := nofun
  ground := by
    rw [groundLeaves_final]
    exact .refl bounds
  leaves := by simp

theorem covered_tiled {kind : κ} {bounds : Rect Rat} {children : List (Region κ Rat)}
    (hchildren : children ≠ []) (htiled : bounds.TiledBy (children.map Region.bounds))
    (hbelow : ∀ child ∈ children, child.Covered) :
    (node kind bounds .expanded (some .tiled) children).Covered where
  encloses := by
    intro below hmem
    rw [mem_walk_iff] at hmem
    rcases hmem with rfl | ⟨child, hchild, hmem⟩
    · exact Rect.encloses_refl bounds
    · exact Rect.encloses_trans (htiled.encloses _ (List.mem_map_of_mem hchild))
        ((hbelow child hchild).encloses below hmem)
  tiled := fun _ => htiled
  offset := nofun
  ground := by
    rw [groundLeaves_tiled kind bounds _ hchildren, List.map_flatMap]
    exact htiled.flatMap fun child hchild => (hbelow child hchild).ground
  leaves := by
    rw [leaves_node _ _ _ _ hchildren, groundLeaves_tiled _ _ _ hchildren, features_eq]
    refine (List.Perm.flatMap_left _ fun child hchild =>
      (hbelow child hchild).leaves).trans ?_
    exact (List.flatMap_append_perm children _ _).symm

theorem covered_embedded {kind featureKind : κ} {bounds inner : Rect Rat} {margin : Rat}
    {frame : Region κ Rat} (hframe : frame.bounds = bounds) (hcovered : frame.Covered)
    (hinset : bounds.inset margin = .ok inner) :
    (node kind bounds .expanded (some (.embedded margin))
      [frame, .final featureKind inner]).Covered := by
  obtain ⟨hmargin, rfl⟩ := Rect.eq_of_inset hinset
  constructor
  case encloses =>
    intro below hmem
    rw [mem_walk_iff] at hmem
    rcases hmem with rfl | ⟨child, hchild, hmem⟩
    · exact Rect.encloses_refl bounds
    · rcases List.mem_pair.mp hchild with rfl | rfl
      · rw [Region.bounds, ← hframe]
        exact hcovered.encloses below hmem
      · rw [walk_final, List.mem_singleton] at hmem
        subst hmem
        rw [Rect.encloses_iff]
        simp only [Region.bounds, final]
        exact ⟨⟨by linarith, by linarith⟩, by linarith, by linarith⟩
  case tiled =>
    intro h
    cases h
  case offset =>
    intro other hother
    simp only [composition, Option.some.injEq, Composition.embedded.injEq] at hother
    subst hother
    refine ⟨frame, _, rfl, rfl, rfl, ?_, ?_⟩
    · change bounds.x + margin + (bounds.width - (margin + margin)) =
        bounds.x + bounds.width - margin
      ring
    · change bounds.y + margin + (bounds.height - (margin + margin)) =
        bounds.y + bounds.height - margin
      ring
  case ground =>
    rw [groundLeaves_embedded, Region.bounds, ← hframe]
    exact hcovered.ground
  case leaves =>
    rw [leaves_node _ _ _ _ (List.cons_ne_nil _ _), groundLeaves_embedded, features_eq]
    simp only [List.flatMap_cons, List.flatMap_nil, List.append_nil, leaves_final,
      features_final, overlays, composition, children, List.drop_one, List.tail_cons]
    apply (hcovered.leaves.append_right _).trans
    rw [List.append_assoc]
    exact List.perm_append_comm.append_left _

end Region

namespace Engine

variable [DecidableEq κ] [RegionKind κ] {engine : Engine κ Rat} {admits : Rat → Prop}

/-- The parts of a tiling are those of a cut. -/
theorem tiledBy_of_outcome {kind : κ} {bounds : Rect Rat} {depth : Nat}
    {parts : List (κ × Rect Rat)}
    (h : Sampler.Outcome admits (engine.judge kind bounds depth)
      (.ok (.expanded (.tiled parts)))) :
    bounds.TiledBy (parts.map Prod.snd) := by
  rcases outcome_judge h with
    ⟨_, _, hstopped, _⟩ | ⟨_, _, step, expansion, _, _, hgives, hexpansion⟩
  · cases hstopped
  · cases hexpansion
    cases hgives with
    | laid hlays hparts =>
        have hlength := Cut.length_of_parts hparts
        rw [List.map_snd_zip (by rw [hlength, hlays.length_kinds])]
        exact Cut.tiledBy_of_parts hparts

theorem Grown.covered {depth : Nat} {kind : κ} {bounds : Rect Rat}
    {region : Region κ Rat} (h : engine.Grown admits depth kind bounds region) :
    region.bounds = bounds ∧ ∀ found ∈ region.walk, found.Covered := by
  refine Grown.induct (motive := fun _ _ bounds region =>
    region.bounds = bounds ∧ ∀ found ∈ region.walk, found.Covered) ?_ h
  intro depth kind bounds verdict below hverdict ih
  refine ⟨verdict.bounds_graft kind bounds below, fun found hfound => ?_⟩
  have hbounds : below.map Region.bounds = verdict.pending.map Prod.snd :=
    map_bounds_of_forall₂ (ih.imp fun _ _ hpart => hpart.1)
  have hcovered : ∀ child ∈ below, ∀ found ∈ child.walk, found.Covered := by
    intro child hchild
    obtain ⟨_, _, _, hwalk⟩ := exists_of_forall₂_of_mem ih hchild
    exact hwalk
  have hfits := fits_of_outcome hverdict
  rw [Region.mem_walk_iff] at hfound
  cases hfits with
  | stopped replacement =>
      rcases hfound with rfl | ⟨child, hchild, _⟩
      · exact Region.covered_final replacement bounds
      · cases hchild
  | final =>
      rcases hfound with rfl | ⟨child, hchild, _⟩
      · exact Region.covered_final kind bounds
      · cases hchild
  | @tiled parts hparts =>
      rcases hfound with rfl | ⟨child, hchild, hmem⟩
      · have hbelow : below ≠ [] := by
          rintro rfl
          exact hparts (List.forall₂_nil_right_iff.mp ih)
        have htiled := tiledBy_of_outcome hverdict
        rw [Verdict.pending] at hbounds
        rw [← hbounds] at htiled
        exact Region.covered_tiled hbelow htiled fun child hchild =>
          hcovered child hchild child child.mem_walk_self
      · exact hcovered child hchild found hmem
  | @embedded frame feature margin hframe hinset =>
      obtain ⟨frameTree, rest, ⟨hsame, hwalk⟩, hrest, rfl⟩ :=
        List.forall₂_cons_left_iff.mp ih
      obtain rfl := List.forall₂_nil_left_iff.mp hrest
      rcases hfound with rfl | ⟨child, hchild, hmem⟩
      · exact Region.covered_embedded (hsame.trans hframe)
          (hwalk frameTree frameTree.mem_walk_self) hinset
      · rcases List.mem_pair.mp hchild with rfl | rfl
        · exact hwalk found hmem
        · rw [Region.walk_final, List.mem_singleton] at hmem
          rw [hmem]
          exact Region.covered_final _ _

/-- All regions of a layout cover what they should, and the first one what was asked
for. -/
theorem covered_of_run [DrawSource σ Rat] {limit : Nat} {width length : Rat}
    {source after : σ} {generation : Generation κ Rat}
    (hrun : (engine.run limit width length).run source = (.ok (some generation), after)) :
    generation.root.bounds = ⟨0, 0, width, length⟩ ∧
      ∀ region ∈ generation.root.walk, region.Covered :=
  (grown_of_run (DrawSource.delivers_any source) hrun).covered

/-- Regions lie in their ancestors, tilings tile, features keep their margin,
and the leaves under the features tile the area. -/
theorem run_tiles [DrawSource σ Rat] (engine : Engine κ Rat) {limit : Nat}
    {width length : Rat} {source after : σ} {generation : Generation κ Rat}
    (hrun : (engine.run limit width length).run source =
      (.ok (some generation), after)) :
    (∀ region ∈ generation.root.walk, ∀ below ∈ region.walk,
      region.bounds.encloses below.bounds = true) ∧
    (∀ region ∈ generation.root.walk, region.composition = some .tiled →
      region.bounds.TiledBy (region.children.map Region.bounds)) ∧
    (∀ region ∈ generation.root.walk, ∀ margin,
      region.composition = some (.embedded margin) →
      ∃ frame feature, region.children = [frame, feature] ∧
        feature.bounds.x = region.bounds.x + margin ∧
        feature.bounds.y = region.bounds.y + margin ∧
        feature.bounds.right = region.bounds.right - margin ∧
        feature.bounds.bottom = region.bounds.bottom - margin) ∧
    generation.root.leaves.Perm
      (generation.root.groundLeaves ++ generation.root.features) ∧
    (⟨0, 0, width, length⟩ : Rect Rat).TiledBy
      (generation.root.groundLeaves.map Region.bounds) ∧
    ((generation.root.groundLeaves.map Region.bounds).map Rect.area).sum =
      width * length := by
  obtain ⟨hbounds, hcovered⟩ :=
    (grown_of_run (DrawSource.delivers_any source) hrun).covered
  have hroot := hcovered _ generation.root.mem_walk_self
  have hground := hroot.ground
  rw [hbounds] at hground
  exact ⟨fun region hregion => (hcovered region hregion).encloses,
    fun region hregion => (hcovered region hregion).tiled,
    fun region hregion => (hcovered region hregion).offset, hroot.leaves, hground,
    hground.area_sum⟩

end Engine

theorem Garden.run_tiles_small :
    ∃ generation after,
      (small.run 12 400 300).run smallDraws = (.ok (some generation), after) ∧
      (⟨0, 0, 400, 300⟩ : Rect Rat).TiledBy
        (generation.root.groundLeaves.map Region.bounds) ∧
      ((generation.root.groundLeaves.map Region.bounds).map Rect.area).sum =
        400 * 300 := by
  obtain ⟨generation, after, hrun, _⟩ := small_finished
  obtain ⟨_, _, _, _, htiled, harea⟩ := Engine.run_tiles small hrun
  exact ⟨generation, after, hrun, htiled, harea⟩

end Parterre
