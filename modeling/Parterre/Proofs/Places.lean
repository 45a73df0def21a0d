/-
Places in a tree.  A way names the place of a child at every step.  A walk visits the
regions in the lexicographic order of the ways to them, so the way to the region that
comes next is known from the tree alone.
-/
import Parterre.Proofs.Preorder

namespace Parterre

variable {κ α : Type}

/-- The region at the end of a way, which names the place of a child at every
step. -/
def Region.at? : List Nat → Region κ α → Option (Region κ α)
  | [], region => some region
  | place :: way, region => region.children[place]?.bind (at? way)

theorem Region.at?_append (first second : List Nat) (region : Region κ α) :
    region.at? (first ++ second) = (region.at? first).bind (at? second) := by
  induction first generalizing region with
  | nil => rfl
  | cons place rest ih =>
      rw [List.cons_append, at?, at?]
      cases region.children[place]? with
      | none => rfl
      | some child => exact ih child

/-- The regions of a tree are those at the ends of its ways. -/
theorem Region.mem_walk_iff_at? {region found : Region κ α} :
    found ∈ region.walk ↔ ∃ way, region.at? way = some found := by
  induction region using Region.induct with
  | node kind bounds state composition children ih =>
      rw [mem_walk_iff]
      constructor
      · rintro (rfl | ⟨child, hchild, hfound⟩)
        · exact ⟨[], rfl⟩
        · obtain ⟨place, hplace⟩ := List.getElem?_of_mem hchild
          obtain ⟨way, hway⟩ := (ih child hchild).mp hfound
          exact ⟨place :: way, Option.bind_eq_some_iff.mpr ⟨child, hplace, hway⟩⟩
      · rintro ⟨way, hway⟩
        cases way with
        | nil => exact Or.inl (Option.some.inj hway).symm
        | cons place rest =>
            obtain ⟨child, hplace, hrest⟩ := Option.bind_eq_some_iff.mp hway
            have hchild := List.mem_of_getElem? hplace
            exact Or.inr ⟨child, hchild, (ih child hchild).mpr ⟨rest, hrest⟩⟩

namespace Region

mutual

/-- The regions of a tree with the ways to them, each one in front of the regions
below it. -/
def places : Region κ α → List (List Nat × Region κ α)
  | .node kind bounds state composition children =>
      ([], .node kind bounds state composition children) :: placesFrom 0 children

/-- The regions of some trees that hang side by side, the first one at the given place. -/
def placesFrom (place : Nat) : List (Region κ α) → List (List Nat × Region κ α)
  | [] => []
  | region :: rest =>
      region.places.map (fun found => (place :: found.1, found.2)) ++ placesFrom (place + 1) rest

end

theorem places_eq (region : Region κ α) :
    region.places = ([], region) :: placesFrom 0 region.children := by
  cases region
  rw [places, children]

/-- What is read at the places of a tree, level by level. -/
theorem map_placesFrom {β : Type} (f : Nat → Region κ α → β) (level start : Nat)
    (regions : List (Region κ α)) :
    (placesFrom start regions).map (fun found => f (level + found.1.length) found.2) =
      regions.flatMap fun region =>
        region.places.map fun found => f (level + 1 + found.1.length) found.2 := by
  induction regions generalizing start with
  | nil => rfl
  | cons first rest ih =>
      rw [placesFrom, List.map_append, List.map_map, List.flatMap_cons, ih (start + 1)]
      congr 2
      funext found
      rw [Function.comp_apply, List.length_cons, Nat.add_assoc, Nat.add_comm 1]

theorem map_places {β : Type} (f : Nat → Region κ α → β) (level : Nat) (region : Region κ α) :
    region.places.map (fun found => f (level + found.1.length) found.2) =
      f level region :: region.children.flatMap fun child =>
        child.places.map fun found => f (level + 1 + found.1.length) found.2 := by
  rw [places_eq, List.map_cons, map_placesFrom]
  rfl

theorem map_snd_placesFrom {regions : List (Region κ α)}
    (h : ∀ region ∈ regions, region.places.map Prod.snd = region.walk) (start : Nat) :
    (placesFrom start regions).map Prod.snd = regions.flatMap walk := by
  induction regions generalizing start with
  | nil => rfl
  | cons first rest ih =>
      obtain ⟨hfirst, hrest⟩ := List.forall_mem_cons.mp h
      rw [placesFrom, List.map_append, List.map_map, List.flatMap_cons, ← hfirst,
        ← ih hrest (start + 1)]
      rfl

/-- With the ways left out, the places are what a walk visits. -/
theorem map_snd_places (region : Region κ α) : region.places.map Prod.snd = region.walk := by
  induction region using Region.induct with
  | node kind bounds state composition children ih =>
      rw [places_eq, walk_eq, List.map_cons, Region.children, map_snd_placesFrom ih]

theorem mem_placesFrom_iff {regions : List (Region κ α)} {start : Nat} {way : List Nat}
    {found : Region κ α} :
    (way, found) ∈ placesFrom start regions ↔
      ∃ place region rest, way = (start + place) :: rest ∧ regions[place]? = some region ∧
        (rest, found) ∈ region.places := by
  induction regions generalizing start with
  | nil => simp [placesFrom]
  | cons first others ih =>
      rw [placesFrom, List.mem_append, List.mem_map, ih]
      constructor
      · rintro (⟨⟨rest, below⟩, hmem, heq⟩ | ⟨place, region, rest, rfl, hregion, hmem⟩)
        · cases heq
          exact ⟨0, first, rest, rfl, rfl, hmem⟩
        · refine ⟨place + 1, region, rest, ?_, hregion, hmem⟩
          rw [Nat.add_right_comm, Nat.add_assoc]
      · rintro ⟨place, region, rest, rfl, hregion, hmem⟩
        cases place with
        | zero =>
            cases hregion
            exact Or.inl ⟨(rest, found), hmem, rfl⟩
        | succ place =>
            refine Or.inr ⟨place, region, rest, ?_, hregion, hmem⟩
            rw [Nat.add_right_comm, Nat.add_assoc]

/-- The ways lead to the regions, and to all of them. -/
theorem mem_places_iff {region found : Region κ α} {way : List Nat} :
    (way, found) ∈ region.places ↔ region.at? way = some found := by
  induction region using Region.induct generalizing way with
  | node kind bounds state composition children ih =>
      rw [places_eq, List.mem_cons, mem_placesFrom_iff, Region.children]
      constructor
      · rintro (hroot | ⟨place, child, rest, rfl, hchild, hmem⟩)
        · cases hroot
          rfl
        · rw [Nat.zero_add]
          exact Option.bind_eq_some_iff.mpr
            ⟨child, hchild, (ih child (List.mem_of_getElem? hchild)).mp hmem⟩
      · intro hfound
        cases way with
        | nil =>
            cases hfound
            exact Or.inl rfl
        | cons place rest =>
            obtain ⟨child, hchild, hrest⟩ := Option.bind_eq_some_iff.mp hfound
            refine Or.inr ⟨place, child, rest, by rw [Nat.zero_add], hchild, ?_⟩
            exact (ih child (List.mem_of_getElem? hchild)).mpr hrest

theorem ascending_placesFrom {regions : List (Region κ α)}
    (h : ∀ region ∈ regions, (region.places.map Prod.fst).Pairwise (· < ·)) (start : Nat) :
    ((placesFrom start regions).map Prod.fst).Pairwise (· < ·) := by
  induction regions generalizing start with
  | nil => exact .nil
  | cons first rest ih =>
      obtain ⟨hfirst, hrest⟩ := List.forall_mem_cons.mp h
      rw [placesFrom, List.map_append, List.map_map, List.pairwise_append]
      refine ⟨?_, ih hrest (start + 1), ?_⟩
      · rw [List.pairwise_map] at hfirst ⊢
        exact hfirst.imp fun h => List.cons_lt_cons_iff.mpr (Or.inr ⟨rfl, h⟩)
      · intro way hway other hother
        obtain ⟨one, _, rfl⟩ := List.mem_map.mp hway
        obtain ⟨⟨_, found⟩, hfound, rfl⟩ := List.mem_map.mp hother
        obtain ⟨place, _, later, rfl, _, _⟩ := mem_placesFrom_iff.mp hfound
        exact List.cons_lt_cons_iff.mpr (Or.inl (by omega))

/-- The ways ascend in lexicographic order. -/
theorem ascending_places (region : Region κ α) :
    (region.places.map Prod.fst).Pairwise (· < ·) := by
  induction region using Region.induct with
  | node kind bounds state composition children ih =>
      rw [places_eq, List.map_cons, List.pairwise_cons, Region.children]
      refine ⟨fun way hway => ?_, ascending_placesFrom ih 0⟩
      obtain ⟨⟨_, found⟩, hfound, rfl⟩ := List.mem_map.mp hway
      obtain ⟨place, _, rest, rfl, _, _⟩ := mem_placesFrom_iff.mp hfound
      exact List.nil_lt_cons _ _

end Region

end Parterre
