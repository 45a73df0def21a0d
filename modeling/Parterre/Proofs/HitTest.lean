/-
The leaf that is seen at a point.  Hit testing follows the order in which the leaves
are drawn: the leaf that is seen is the last one such that it and every region above
it contain the point.  In a layout over the exact rationals regions lie in the
regions above them and leave no point out, so the last leaf that contains the point
is seen, and the feature of an embedded pair is seen at every point inside it.
-/
import Parterre.Proofs.Ancestry
import Parterre.Proofs.Cover
import Parterre.Proofs.PointSets
import Parterre.Proofs.SmallLeaves

namespace Parterre

variable {κ α σ : Type}

namespace Region

mutual

/-- The leaves of a tree in drawing order, each with the way to it. -/
def placedLeaves : Region κ α → List (List Nat × Region κ α)
  | .node kind bounds state composition [] => [([], .node kind bounds state composition [])]
  | .node _ _ _ _ (first :: rest) => placedLeavesFrom 0 (first :: rest)

/-- The leaves of some trees that hang side by side, the first one at the given place. -/
def placedLeavesFrom (place : Nat) : List (Region κ α) → List (List Nat × Region κ α)
  | [] => []
  | region :: rest =>
      region.placedLeaves.map (fun placed => (place :: placed.1, placed.2)) ++
        placedLeavesFrom (place + 1) rest

end

theorem placedLeaves_node (kind : κ) (bounds : Rect α) (state : Status)
    (composition : Option (Composition α)) {children : List (Region κ α)} (h : children ≠ []) :
    (node kind bounds state composition children).placedLeaves = placedLeavesFrom 0 children := by
  obtain ⟨first, rest, rfl⟩ := List.exists_cons_of_ne_nil h
  rw [placedLeaves]

theorem placedLeavesFrom_eq_filter {children : List (Region κ α)}
    (h : ∀ child ∈ children,
      child.placedLeaves = child.places.filter fun placed => placed.2.isLeaf) (start : Nat) :
    placedLeavesFrom start children =
      (placesFrom start children).filter fun placed => placed.2.isLeaf := by
  induction children generalizing start with
  | nil => rfl
  | cons first rest ih =>
      obtain ⟨hfirst, hrest⟩ := List.forall_mem_cons.mp h
      rw [placedLeavesFrom, placesFrom, List.filter_append, List.filter_map, hfirst,
        ih hrest (start + 1)]
      rfl

/-- These are the places where there is no child. -/
theorem placedLeaves_eq_filter (region : Region κ α) :
    region.placedLeaves = region.places.filter fun placed => placed.2.isLeaf := by
  induction region using Region.induct with
  | node kind bounds state composition children ih =>
      rw [places_eq, Region.children]
      by_cases hleaf : children = []
      · subst hleaf
        rfl
      · rw [placedLeaves_node _ _ _ _ hleaf, placedLeavesFrom_eq_filter ih,
          List.filter_cons_of_neg]
        rwa [isLeaf, List.isEmpty_iff]

/-- With their ways left out, these are the leaves in drawing order. -/
theorem map_snd_placedLeaves (region : Region κ α) :
    region.placedLeaves.map Prod.snd = region.leaves := by
  rw [placedLeaves_eq_filter, leaves, ← map_snd_places, List.filter_map]
  rfl

/-- The ways lead to the leaves, and to all of them. -/
theorem mem_placedLeaves_iff {region leaf : Region κ α} {way : List Nat} :
    (way, leaf) ∈ region.placedLeaves ↔ region.at? way = some leaf ∧ leaf.children = [] := by
  rw [placedLeaves_eq_filter, List.mem_filter, mem_places_iff, isLeaf, List.isEmpty_iff]

/-- The ways ascend, so none of them occurs twice. -/
theorem ascending_placedLeaves (region : Region κ α) :
    (region.placedLeaves.map Prod.fst).Pairwise (· < ·) := by
  rw [placedLeaves_eq_filter]
  exact region.ascending_places.sublist (List.filter_sublist.map Prod.fst)

section

variable [Scalar α]

/-- Every region on a way contains the point. -/
def shows (px py : α) : List Nat → Region κ α → Bool
  | [], region => region.contains px py
  | place :: way, region =>
      region.contains px py && (region.children[place]?).all (shows px py way)

theorem shows_iff {px py : α} {region : Region κ α} {way : List Nat} :
    region.shows px py way = true ↔
      ∀ above found, above <+: way → region.at? above = some found →
        found.contains px py = true := by
  induction way generalizing region with
  | nil =>
      rw [shows]
      constructor
      · rintro h above found habove hfound
        obtain rfl := List.prefix_nil.mp habove
        cases hfound
        exact h
      · exact fun h => h [] region List.prefix_rfl rfl
  | cons place rest ih =>
      rw [shows, Bool.and_eq_true, Option.all_eq_true]
      constructor
      · rintro ⟨hregion, hchild⟩ above found habove hfound
        rcases List.prefix_cons_iff.mp habove with rfl | ⟨later, rfl, hlater⟩
        · cases hfound
          exact hregion
        · obtain ⟨child, hplace, hrest⟩ := Option.bind_eq_some_iff.mp hfound
          exact ih.mp (hchild child hplace) later found hlater hrest
      · intro h
        refine ⟨h [] region List.nil_prefix rfl, fun child hplace => ih.mpr ?_⟩
        intro above found habove hfound
        refine h (place :: above) found (List.cons_prefix_cons.mpr ⟨rfl, habove⟩) ?_
        exact Option.bind_eq_some_iff.mpr ⟨child, hplace, hfound⟩

theorem leafAt_of_not_contains {px py : α} {region : Region κ α}
    (h : region.contains px py = false) : region.leafAt px py = none := by
  cases region
  rw [leafAt, if_pos]
  rw [contains, bounds] at h
  rw [h, Bool.not_false]

theorem leafAt_of_leaf {px py : α} {region : Region κ α} (hleaf : region.children = [])
    (h : region.contains px py = true) : region.leafAt px py = some region := by
  obtain ⟨kind, bounds, state, composition, children⟩ := region
  obtain rfl : children = [] := hleaf
  rw [contains, Region.bounds] at h
  simp [leafAt, h]

theorem leafAt_of_children {px py : α} {region : Region κ α} (hchildren : region.children ≠ [])
    (h : region.contains px py = true) :
    region.leafAt px py = topLeafAt px py region.children := by
  obtain ⟨kind, bounds, state, composition, children⟩ := region
  rw [contains, Region.bounds] at h
  rw [Region.children] at hchildren
  simp [leafAt, h, hchildren, Region.children]

theorem topLeafAt_cons (px py : α) (region : Region κ α) (rest : List (Region κ α)) :
    topLeafAt px py (region :: rest) = (topLeafAt px py rest).or (region.leafAt px py) := by
  rw [topLeafAt]
  cases topLeafAt px py rest <;> rfl

/-- The last leaf such that it and every region above it contain the point. -/
def lastShown (px py : α) (region : Region κ α) : Option (Region κ α) :=
  (region.placedLeaves.filter fun placed => region.shows px py placed.1).getLast?.map Prod.snd

theorem topLeafAt_eq {px py : α} {region : Region κ α} (hregion : region.contains px py = true)
    {before children : List (Region κ α)} (hchildren : region.children = before ++ children)
    (h : ∀ child ∈ children, child.leafAt px py = child.lastShown px py) :
    topLeafAt px py children =
      ((placedLeavesFrom before.length children).filter fun placed =>
        region.shows px py placed.1).getLast?.map Prod.snd := by
  -- ways start at the region, so the children in front are kept for their places
  induction children generalizing before with
  | nil => rfl
  | cons first rest ih =>
      obtain ⟨hfirst, hrest⟩ := List.forall_mem_cons.mp h
      have hsplit : region.children = (before ++ [first]) ++ rest := by
        rw [hchildren, List.append_assoc, List.singleton_append]
      have hlater := ih hsplit hrest
      have hshows : ∀ way, region.shows px py (before.length :: way) = first.shows px py way := by
        intro way
        rw [shows, hregion, Bool.true_and, hchildren,
          List.getElem?_append_right (Nat.le_refl _), Nat.sub_self]
        rfl
      rw [List.length_append, List.length_singleton] at hlater
      rw [topLeafAt_cons, hlater, hfirst, lastShown, placedLeavesFrom, List.filter_append,
        List.getLast?_append, Option.map_or, List.filter_map, List.getLast?_map, Option.map_map]
      simp only [Function.comp_def, hshows]

/-- The search from the last child to the first finds the last leaf that is shown. -/
theorem leafAt_eq_lastShown (px py : α) (region : Region κ α) :
    region.leafAt px py = region.lastShown px py := by
  induction region using Region.induct with
  | node kind bounds state composition children ih =>
      cases hregion : (node kind bounds state composition children).contains px py with
      | false =>
          have hnone : ∀ way,
              (node kind bounds state composition children).shows px py way = false := by
            intro way
            cases way <;> rw [shows, hregion]
            rw [Bool.false_and]
          simp only [leafAt_of_not_contains hregion, lastShown, hnone, List.filter_false,
            List.getLast?_nil, Option.map_none]
      | true =>
          by_cases hleaf : children = []
          · subst hleaf
            rw [leafAt_of_leaf rfl hregion, lastShown, placedLeaves]
            simp [shows, hregion]
          · have hchildren : (node kind bounds state composition children).children ≠ [] := hleaf
            rw [leafAt_of_children hchildren hregion, lastShown, placedLeaves_node _ _ _ _ hleaf]
            exact topLeafAt_eq hregion (List.nil_append _).symm ih

theorem leafAt_eq_none_iff {px py : α} {region : Region κ α} :
    region.leafAt px py = none ↔
      ∀ placed ∈ region.placedLeaves, region.shows px py placed.1 = false := by
  rw [leafAt_eq_lastShown, lastShown, Option.map_eq_none_iff, List.getLast?_eq_none_iff,
    List.filter_eq_nil_iff]
  simp only [Bool.not_eq_true]

theorem topLeafAt_eq_none {px py : α} {children : List (Region κ α)}
    (h : ∀ child ∈ children, child.contains px py = false) : topLeafAt px py children = none := by
  induction children with
  | nil => rfl
  | cons first rest ih =>
      obtain ⟨hfirst, hrest⟩ := List.forall_mem_cons.mp h
      rw [topLeafAt_cons, ih hrest, leafAt_of_not_contains hfirst]
      rfl

/-- A child is not hidden by later children that do not contain the point. -/
theorem topLeafAt_of_later {px py : α} {children : List (Region κ α)} {place : Nat}
    {child leaf : Region κ α} (hchild : children[place]? = some child)
    (hleaf : child.leafAt px py = some leaf)
    (hlater : ∀ later other, place < later → children[later]? = some other →
      other.contains px py = false) :
    topLeafAt px py children = some leaf := by
  induction children generalizing place with
  | nil => cases hchild
  | cons first rest ih =>
      rw [topLeafAt_cons]
      cases place with
      | zero =>
          cases hchild
          have hrest : ∀ other ∈ rest, other.contains px py = false := by
            intro other hother
            obtain ⟨later, hplace⟩ := List.getElem?_of_mem hother
            exact hlater (later + 1) other (Nat.succ_pos later) hplace
          rw [topLeafAt_eq_none hrest, hleaf]
          rfl
      | succ place =>
          rw [ih hchild fun later other hlt hother =>
            hlater (later + 1) other (Nat.succ_lt_succ hlt) hother]
          rfl

end

/-- The way leads to the frame of an embedded pair or to a region below it. -/
def LiesInFrame (root : Region κ α) (way : List Nat) : Prop :=
  ∃ above parent margin, above ++ [0] <+: way ∧ root.at? above = some parent ∧
    parent.composition = some (.embedded margin)

end Region

namespace Region

/-- What is known about a region of a finished layout. -/
structure Sound (region : Region κ Rat) : Prop where
  covered : region.Covered
  wellFormed : region.WellFormed
  proper : region.bounds.Proper

section

variable {region : Region κ Rat} {px py : Rat}

/-- Regions lie in the regions above, so a leaf is shown where it contains the point. -/
theorem shows_eq_contains (hcovered : ∀ found ∈ region.walk, found.Covered) {way : List Nat}
    {leaf : Region κ Rat} (hleaf : region.at? way = some leaf) :
    region.shows px py way = leaf.contains px py := by
  rw [Bool.eq_iff_iff, shows_iff]
  constructor
  · exact fun h => h way leaf List.prefix_rfl hleaf
  · rintro hcontains above found ⟨rest, rfl⟩ hfound
    rw [at?_append, hfound, Option.bind_some] at hleaf
    have hbelow : leaf ∈ found.walk := mem_walk_iff_at?.mpr ⟨rest, hleaf⟩
    have hmem : found ∈ region.walk := mem_walk_iff_at?.mpr ⟨above, hfound⟩
    exact Rect.contains_of_encloses ((hcovered found hmem).encloses leaf hbelow) hcontains

theorem leafAt_eq_last_contains (hcovered : ∀ found ∈ region.walk, found.Covered) :
    region.leafAt px py =
      (region.leaves.filter fun leaf => leaf.contains px py).getLast? := by
  have hshows : ∀ placed ∈ region.placedLeaves,
      region.shows px py placed.1 = placed.2.contains px py := by
    rintro ⟨way, leaf⟩ hmem
    exact shows_eq_contains hcovered (mem_placedLeaves_iff.mp hmem).1
  rw [leafAt_eq_lastShown, lastShown, List.filter_congr hshows, ← map_snd_placedLeaves,
    List.filter_map, List.getLast?_map]
  rfl

/-- The leaves leave no point of a region out. -/
theorem isSome_leafAt_iff (hcovered : ∀ found ∈ region.walk, found.Covered) :
    (region.leafAt px py).isSome = true ↔ region.contains px py = true := by
  constructor
  · intro h
    by_contra hnot
    rw [leafAt_of_not_contains (Bool.not_eq_true _ ▸ hnot)] at h
    cases h
  · intro h
    have hroot := hcovered region region.mem_walk_self
    obtain ⟨_, hpart, hcontains⟩ := hroot.ground.covers px py h
    obtain ⟨leaf, hground, rfl⟩ := List.mem_map.mp hpart
    have hleaf : leaf ∈ region.leaves :=
      hroot.leaves.mem_iff.mpr (List.mem_append_left _ hground)
    rw [leafAt_eq_last_contains hcovered, List.getLast?_isSome]
    exact List.ne_nil_of_mem (List.mem_filter.mpr ⟨hleaf, hcontains⟩)

/-- A way that does not lie in a frame parts only tilings, as a feature has no children. -/
theorem tiled_of_way (hregion : region.WellFormed) {place : Nat} {rest : List Nat}
    {found : Region κ Rat} (hfound : region.at? (place :: rest) = some found)
    (hchildren : found.children ≠ []) (hopen : ¬ region.LiesInFrame (place :: rest)) :
    region.composition = some .tiled := by
  obtain ⟨child, hchild, hrest⟩ := Option.bind_eq_some_iff.mp hfound
  rcases hcomposition : region.composition with _ | (_ | margin)
  · rw [hregion.leaf_iff.mpr hcomposition] at hchild
    cases hchild
  · rfl
  · obtain ⟨frame, feature, hpair, _, _, hleaf, _⟩ := hregion.pair margin hcomposition
    rw [hpair] at hchild
    match place with
    | 0 => exact absurd ⟨[], region, margin, ⟨rest, rfl⟩, rfl, hcomposition⟩ hopen
    | 1 =>
        cases hchild
        cases rest with
        | nil =>
            cases hrest
            exact absurd hleaf hchildren
        | cons later rest =>
            rw [at?, hleaf] at hrest
            cases hrest
    | _ + 2 => cases hchild

theorem not_contains_of_later (hsound : ∀ found ∈ region.walk, found.Sound)
    (htiled : region.composition = some .tiled) {place later : Nat} {child other : Region κ Rat}
    (hchild : region.children[place]? = some child) (hother : region.children[later]? = some other)
    (hlt : place < later) (hinside : child.bounds.HoldsInside px py) :
    other.contains px py = false := by
  have hapart := ((hsound region region.mem_walk_self).covered.tiled htiled).apart
  rw [List.pairwise_map, List.pairwise_iff_getElem] at hapart
  obtain ⟨hplace, rfl⟩ := List.getElem?_eq_some_iff.mp hchild
  obtain ⟨hlater, rfl⟩ := List.getElem?_eq_some_iff.mp hother
  have hmem := mem_walk_of_child (List.getElem_mem hlater) (mem_walk_self _)
  exact hinside.not_contains (hapart place later hplace hlater hlt) (hsound _ hmem).proper

section

variable {pair frame feature : Region κ Rat} {way : List Nat}

/-- The regions above a feature hold what it holds. -/
theorem holdsInside_of_way (hcovered : region.Covered) (hpair : region.at? way = some pair)
    (hchildren : pair.children = [frame, feature])
    (hinside : feature.bounds.HoldsInside px py) : region.bounds.HoldsInside px py := by
  have hfeature : region.at? (way ++ [1]) = some feature := by
    rw [at?_append, hpair, Option.bind_some, at?, hchildren]
    rfl
  exact hinside.mono (hcovered.encloses feature (mem_walk_iff_at?.mpr ⟨_, hfeature⟩))

/-- Inside the feature of an embedded pair the feature is seen. -/
theorem leafAt_feature (hsound : ∀ found ∈ region.walk, found.Sound)
    (hpair : region.at? way = some pair) (hchildren : pair.children = [frame, feature])
    (hleaf : feature.children = []) (hopen : ¬ region.LiesInFrame way)
    (hinside : feature.bounds.HoldsInside px py) : region.leafAt px py = some feature := by
  -- down the way every region holds the point inside, and so no later part of a tiling has it
  induction way generalizing region with
  | nil =>
      cases hpair
      have hempty : pair.at? [] = some pair := rfl
      have hself := (hsound pair pair.mem_walk_self).covered
      have hregion := (holdsInside_of_way hself hempty hchildren hinside).contains
      have hsome : pair.children ≠ [] := by simp [hchildren]
      rw [leafAt_of_children hsome hregion, hchildren, topLeafAt_cons, topLeafAt_cons,
        leafAt_of_leaf hleaf hinside.contains]
      rfl
  | cons place rest ih =>
      have hself := hsound region region.mem_walk_self
      have hsome : pair.children ≠ [] := by simp [hchildren]
      have htiled := tiled_of_way hself.wellFormed hpair hsome hopen
      obtain ⟨child, hchild, hrest⟩ := Option.bind_eq_some_iff.mp hpair
      have hmem := List.mem_of_getElem? hchild
      have hbelow : ∀ found ∈ child.walk, found.Sound := fun found hfound =>
        hsound found (mem_walk_of_child hmem hfound)
      have hopen' : ¬ child.LiesInFrame rest := by
        rintro ⟨above, parent, margin, habove, hparent, hcomposition⟩
        refine hopen ⟨place :: above, parent, margin, ?_, ?_, hcomposition⟩
        · exact List.cons_prefix_cons.mpr ⟨rfl, habove⟩
        · exact Option.bind_eq_some_iff.mpr ⟨child, hchild, hparent⟩
      have hregion := (holdsInside_of_way hself.covered hpair hchildren hinside).contains
      have hinner := holdsInside_of_way (hbelow child child.mem_walk_self).covered hrest hchildren
        hinside
      rw [leafAt_of_children (List.ne_nil_of_mem hmem) hregion]
      exact topLeafAt_of_later hchild (ih hbelow hrest hopen') fun later other hlater hother =>
        not_contains_of_later hsound htiled hchild hother hlater hinner

end

end

end Region

namespace Engine

variable [DecidableEq κ] [RegionKind κ]

theorem sound_of_run {engine : Engine κ Rat} [DrawSource σ Rat] {limit : Nat}
    {width length : Rat} {source after : σ} {generation : Generation κ Rat}
    (hrun : (engine.run limit width length).run source = (.ok (some generation), after)) :
    ∀ region ∈ generation.root.walk, region.Sound := by
  exact fun region hregion => ⟨(covered_of_run hrun).2 region hregion,
    wellFormed_of_run hrun region hregion, proper_of_run hrun region hregion⟩

/-- Hit testing finds the last leaf in drawing order such that it and every region above
it contain the point.  In a layout over the exact rationals a leaf is found at every
point of the root, it is the last one that contains the point, and inside the feature
of an embedded pair it is the feature, unless the pair lies in the frame of another. -/
theorem leafAt_last_drawn [DrawSource σ Rat] (engine : Engine κ Rat) :
    (∀ (α : Type) [Scalar α] (region : Region κ α) (px py : α),
      region.placedLeaves.map Prod.snd = region.leaves ∧
      (∀ way leaf, (way, leaf) ∈ region.placedLeaves ↔
        region.at? way = some leaf ∧ leaf.children = []) ∧
      (region.placedLeaves.map Prod.fst).Pairwise (· < ·) ∧
      (∀ way, region.shows px py way = true ↔ ∀ above found, above <+: way →
        region.at? above = some found → found.contains px py = true) ∧
      region.leafAt px py =
        (region.placedLeaves.filter fun placed =>
          region.shows px py placed.1).getLast?.map Prod.snd ∧
      (region.leafAt px py = none ↔
        ∀ placed ∈ region.placedLeaves, region.shows px py placed.1 = false)) ∧
    ∀ (limit : Nat) (width length : Rat) (source after : σ) (generation : Generation κ Rat),
      (engine.run limit width length).run source = (.ok (some generation), after) →
      (∀ px py, ((generation.root.leafAt px py).isSome = true ↔
          generation.root.contains px py = true) ∧
        generation.root.leafAt px py =
          (generation.root.leaves.filter fun leaf => leaf.contains px py).getLast?) ∧
      ∀ way pair margin, generation.root.at? way = some pair →
        pair.composition = some (.embedded margin) → ¬ generation.root.LiesInFrame way →
        ∃ frame feature, pair.children = [frame, feature] ∧
          ∀ px py, feature.bounds.HoldsInside px py →
            generation.root.leafAt px py = some feature := by
  constructor
  · intro α _ region px py
    exact ⟨region.map_snd_placedLeaves, fun _ _ => Region.mem_placedLeaves_iff,
      region.ascending_placedLeaves, fun _ => Region.shows_iff,
      region.leafAt_eq_lastShown px py, Region.leafAt_eq_none_iff⟩
  · intro limit width length source after generation hrun
    have hsound := sound_of_run hrun
    have hcovered := fun region hregion => (hsound region hregion).covered
    refine ⟨fun px py => ⟨Region.isSome_leafAt_iff hcovered,
      Region.leafAt_eq_last_contains hcovered⟩, ?_⟩
    intro way pair margin hpair hcomposition hopen
    have hmem := Region.mem_walk_iff_at?.mpr ⟨way, hpair⟩
    obtain ⟨frame, feature, hchildren, _, _, hleaf, _⟩ :=
      (hsound pair hmem).wellFormed.pair margin hcomposition
    exact ⟨frame, feature, hchildren, fun px py hinside =>
      Region.leafAt_feature hsound hpair hchildren hleaf hopen hinside⟩

end Engine

namespace Garden

/-- The pond of the small garden is seen at a point inside it.  At the seam of its parcel
and the path the path is seen, which is drawn later. -/
theorem leafAt_last_drawn_small :
    ∃ generation after pond,
      (small.run 12 400 300).run smallDraws = (.ok (some generation), after) ∧
      generation.root.at? [0, 0, 1] = some pond ∧ pond.kind = .pond ∧
      pond.bounds.HoldsInside 100 100 ∧ generation.root.leafAt 100 100 = some pond ∧
      (generation.root.leaves.filter fun leaf => leaf.contains 175 10).getLast?.map Region.kind =
        some .path := by
  have hfinished : (Engine.finished ((small.run 12 400 300).run smallDraws)).map
      (fun generation =>
        ([[], [0], [0, 0]].map fun way => (generation.root.at? way).bind Region.composition,
          (generation.root.at? [0, 0, 1]).map fun pond =>
            (pond.kind, [pond.bounds.x, pond.bounds.right, pond.bounds.y, pond.bounds.bottom]),
          (generation.root.leafAt 175 10).map Region.kind)) =
      some ([some .tiled, some .tiled, some (.embedded 20)],
        some (.pond, [20, 155, 20, 280]), some .path) := by
    decide +kernel
  obtain ⟨generation, hgeneration, hparts⟩ := Option.map_eq_some_iff.mp hfinished
  simp only [List.map_cons, List.map_nil, Prod.mk.injEq, List.cons.injEq, and_true] at hparts
  obtain ⟨⟨hroot, hzone, hparcel⟩, hpond, hpath⟩ := hparts
  obtain ⟨after, hrun⟩ := Engine.eq_of_finished hgeneration
  obtain ⟨hpoints, hfeatures⟩ :=
    (Engine.leafAt_last_drawn small).2 12 400 300 smallDraws after generation hrun
  obtain ⟨parcel, hat, hcomposition⟩ := Option.bind_eq_some_iff.mp hparcel
  obtain ⟨pond, hatpond, hparts⟩ := Option.map_eq_some_iff.mp hpond
  simp only [Prod.mk.injEq, List.cons.injEq, and_true] at hparts
  obtain ⟨hkind, hleft, hright, htop, hbottom⟩ := hparts
  -- the regions above the parcel are tiled
  have hopen : ¬ generation.root.LiesInFrame [0, 0] := by
    rintro ⟨above, parent, margin, habove, hparent, hembedded⟩
    have hways : above = [] ∨ above = [0] := by
      have hsplit : above ++ [0] <+: [0] ++ [0] := habove
      rcases List.prefix_concat_iff.mp hsplit with hwhole | hshort
      · exact Or.inr (List.append_cancel_right hwhole)
      · have hsame : above ++ [0] = [] ++ [0] := hshort.eq_of_length_le (by simp)
        exact Or.inl (List.append_cancel_right hsame)
    rcases hways with rfl | rfl
    · rw [hparent, Option.bind_some, hembedded] at hroot
      cases hroot
    · rw [hparent, Option.bind_some, hembedded] at hzone
      cases hzone
  obtain ⟨frame, feature, hchildren, hseen⟩ := hfeatures _ parcel 20 hat hcomposition hopen
  have hsame : feature = pond := by
    have hlast := generation.root.at?_append [0, 0] [1]
    rw [hat, Option.bind_some, Region.at?, hchildren] at hlast
    exact Option.some.inj (hlast.symm.trans hatpond)
  subst hsame
  have hinside : feature.bounds.HoldsInside 100 100 := by
    unfold Rect.HoldsInside
    rw [hleft, htop, hright, hbottom]
    decide +kernel
  rw [(hpoints 175 10).2] at hpath
  exact ⟨generation, after, feature, hrun, hatpond, hkind, hinside, hseen 100 100 hinside, hpath⟩

end Garden

end Parterre
