/-
The totals of the leaves by kind.  Every leaf is counted under the name of its kind and
under no other, so the counts add up to the leaves.  Over the exact rationals the areas
add up to the area that was asked for and the features on top of it.
-/
import Parterre.Proofs.Ancestry
import Parterre.Proofs.Lookup
import Parterre.Proofs.Statistics
import Parterre.Region.Summary

namespace Parterre

variable {κ α σ : Type}

section

variable [Scalar α]

namespace LeafTotal

/-- The total of leaves with the given areas; without leaves there is none. -/
def ofAreas? : List α → Option (LeafTotal α)
  | [] => none
  | first :: rest => some ⟨rest.length + 1, Scalar.sum (first :: rest)⟩

theorem next_ofAreas? (areas : List α) (area : α) :
    some (next (ofAreas? areas) area) = ofAreas? (areas ++ [area]) := by
  cases areas with
  | nil => rfl
  | cons first rest =>
      rw [List.cons_append, ofAreas?, ofAreas?, next, Option.getD_some, List.length_append,
        List.length_singleton, ← List.cons_append, Scalar.sum, Scalar.sum, List.foldl_append]
      rfl

theorem ofAreas?_eq_some_iff {areas : List α} {total : LeafTotal α} :
    ofAreas? areas = some total ↔ areas ≠ [] ∧ total = ⟨areas.length, Scalar.sum areas⟩ := by
  cases areas with
  | nil => simp [ofAreas?]
  | cons first rest => simp [ofAreas?, eq_comm]

end LeafTotal

theorem lookup_addLeaf_self {totals : List (String × LeafTotal α)}
    (h : totals.Pairwise fun first second => first.1 < second.1) (leafName : String) (area : α) :
    (addLeaf leafName area totals).lookup leafName =
      some (.next (totals.lookup leafName) area) := by
  obtain ⟨kept, hkept, hbefore⟩ :=
    exists_lookup_updateEntry leafName (fun total => LeafTotal.next total area) totals
  rw [addLeaf, hkept, hbefore h]

/-- What a total adds up to grows by the share of the new leaf. -/
theorem sum_addLeaf {β : Type} [AddCommMonoid β] (measure : LeafTotal α → β) {area : α} {more : β}
    (hfirst : measure (.next none area) = more)
    (hnext : ∀ total, measure (.next (some total) area) = measure total + more)
    (leafName : String) (totals : List (String × LeafTotal α)) :
    ((addLeaf leafName area totals).map fun entry => measure entry.2).sum =
      (totals.map fun entry => measure entry.2).sum + more := by
  rw [addLeaf]
  induction totals with
  | nil => simp [updateEntry, hfirst]
  | cons entry rest ih =>
      obtain ⟨other, total⟩ := entry
      rw [updateEntry]
      by_cases hsame : leafName = other
      · rw [if_pos hsame, List.map_cons, List.map_cons, List.sum_cons, List.sum_cons, hnext,
          add_right_comm]
      · rw [if_neg hsame]
        by_cases hless : leafName < other
        · rw [if_pos hless, List.map_cons, List.sum_cons, hfirst, add_comm]
        · rw [if_neg hless, List.map_cons, List.map_cons, List.sum_cons, List.sum_cons, ih,
            add_assoc]

end

namespace Region

variable [RegionKind κ]

/-- The areas of the leaves whose kind has the name, in drawing order. -/
def areasOf [Scalar α] (name : String) (region : Region κ α) : List α :=
  (region.leaves.filter fun leaf => RegionKind.name leaf.kind = name).map
    fun leaf => leaf.bounds.area

section

variable [Scalar α] (region : Region κ α)

/-- The names are in ascending order, and under a name stands the total of its leaves. -/
theorem ascending_and_lookup_leafTotals :
    (region.leafTotals.Pairwise fun first second => first.1 < second.1) ∧
      ∀ name, region.leafTotals.lookup name = LeafTotal.ofAreas? (region.areasOf name) := by
  rw [leafTotals]
  simp only [areasOf]
  induction region.leaves using List.reverseRecOn with
  | nil => exact ⟨.nil, fun _ => rfl⟩
  | append_singleton front leaf ih =>
      obtain ⟨hascending, hlookup⟩ := ih
      rw [List.foldl_append, List.foldl_cons, List.foldl_nil]
      refine ⟨ascending_updateEntry hascending, fun name => ?_⟩
      by_cases hname : name = RegionKind.name leaf.kind
      · subst hname
        rw [lookup_addLeaf_self hascending, hlookup, LeafTotal.next_ofAreas?, List.filter_append,
          List.map_append]
        simp
      · rw [addLeaf, lookup_updateEntry_of_ne hname, hlookup, List.filter_append]
        simp [Ne.symm hname]

theorem mem_leafTotals_iff {name : String} {total : LeafTotal α} :
    (name, total) ∈ region.leafTotals ↔
      (∃ leaf ∈ region.leaves, RegionKind.name leaf.kind = name) ∧
        total = ⟨(region.areasOf name).length, Scalar.sum (region.areasOf name)⟩ := by
  obtain ⟨hascending, hlookup⟩ := region.ascending_and_lookup_leafTotals
  have hsome : region.areasOf name ≠ [] ↔
      ∃ leaf ∈ region.leaves, RegionKind.name leaf.kind = name := by
    rw [areasOf, ne_eq, List.map_eq_nil_iff, List.filter_eq_nil_iff]
    simp
  rw [← lookup_eq_some_iff_of_nodup (nodup_keys_of_ascending hascending), hlookup,
    LeafTotal.ofAreas?_eq_some_iff, hsome]

/-- Where the kinds have different names, the leaves of a name are those of a kind. -/
theorem areasOf_name [DecidableEq κ] (hnames : Function.Injective (RegionKind.name : κ → String))
    (kind : κ) :
    region.areasOf (RegionKind.name kind) =
      (region.leaves.filter fun leaf => leaf.kind = kind).map fun leaf => leaf.bounds.area := by
  simp only [areasOf, hnames.eq_iff]

theorem sum_leafTotals {β : Type} [AddCommMonoid β] (measure : LeafTotal α → β)
    (share : α → β) (hfirst : ∀ area, measure ⟨1, 0 + area⟩ = share area)
    (hnext : ∀ total area, measure ⟨total.count + 1, total.area + area⟩ =
      measure total + share area) :
    (region.leafTotals.map fun entry => measure entry.2).sum =
      (region.leaves.map fun leaf => share leaf.bounds.area).sum := by
  rw [leafTotals]
  induction region.leaves using List.reverseRecOn with
  | nil => rfl
  | append_singleton front leaf ih =>
      rw [List.foldl_append, List.foldl_cons, List.foldl_nil,
        sum_addLeaf measure (hfirst _) fun total => hnext total _, ih, List.map_append,
        List.sum_append, List.map_singleton, List.sum_singleton]

/-- Every leaf is counted once. -/
theorem sum_count_leafTotals :
    (region.leafTotals.map fun entry => entry.2.count).sum = region.leaves.length := by
  rw [sum_leafTotals region LeafTotal.count (fun _ => 1) (fun _ => rfl) (fun _ _ => rfl),
    List.map_const', List.sum_replicate, smul_eq_mul, Nat.mul_one]

end

/-- Every leaf adds its area once. -/
theorem sum_area_leafTotals (region : Region κ Rat) :
    (region.leafTotals.map fun entry => entry.2.area).sum =
      (region.leaves.map fun leaf => leaf.bounds.area).sum :=
  sum_leafTotals region LeafTotal.area id (fun area => zero_add area) fun _ _ => rfl

end Region

namespace Engine

variable [DecidableEq κ] [RegionKind κ]

section

variable {engine : Engine κ Rat} [DrawSource σ Rat] {limit : Nat} {width length : Rat}
  {source after : σ} {generation : Generation κ Rat}
  (hrun : (engine.run limit width length).run source = (.ok (some generation), after))

include hrun

/-- The leaves under the features cover the area that was asked for. -/
theorem sum_area_leaves_of_run :
    (generation.root.leaves.map fun leaf => leaf.bounds.area).sum =
      width * length + (generation.root.features.map fun feature => feature.bounds.area).sum := by
  obtain ⟨hbounds, hcovered⟩ := covered_of_run hrun
  have hroot := hcovered _ generation.root.mem_walk_self
  have hground : (generation.root.groundLeaves.map fun leaf => leaf.bounds.area).sum =
      width * length := by
    have hsum := hroot.ground.area_sum
    rw [hbounds, List.map_map] at hsum
    exact hsum
  rw [(hroot.leaves.map _).sum_eq, List.map_append, List.sum_append, hground]

/-- Features have an area, so there is none where their areas add up to nothing. -/
theorem sum_area_features_eq_zero_iff :
    (generation.root.features.map fun feature => feature.bounds.area).sum = 0 ↔
      generation.stats.embeds = 0 := by
  have hlength : generation.stats.embeds = generation.root.features.length := by
    rw [embeds_of_run hrun, Region.length_features (wellFormed_of_run hrun)]
  have hpositive : ∀ feature ∈ generation.root.features, 0 < feature.bounds.area := by
    intro feature hfeature
    have hground := Region.walk_perm_grounds (wellFormed_of_run hrun) 0
    exact (proper_of_run hrun feature
      (hground.mem_iff.mpr (List.mem_append_right _ hfeature))).area_pos
  rw [hlength, List.length_eq_zero_iff]
  constructor
  · intro hzero
    by_contra hsome
    have hsum := List.sum_pos (generation.root.features.map fun feature => feature.bounds.area)
      (by simpa using hpositive) (by simpa using hsome)
    exact hsum.ne' hzero
  · intro hnone
    rw [hnone]
    rfl

end

/-- The totals account for every leaf and for the overlap of the features.  There is an
entry for the name of a kind if and only if there are leaves of the kind, with their
number and the sum of their areas; in a layout the numbers add up to its leaves.  Over
the exact rationals the areas add up to the area of the layout and of all features on
top, so they are the area of the root if and only if nothing is embedded. -/
theorem leafTotals_account (hnames : Function.Injective (RegionKind.name : κ → String)) :
    (∀ {α : Type} [Scalar α] (region : Region κ α),
      (region.leafTotals.map Prod.fst).Nodup ∧
      (∀ name ∈ region.leafTotals.map Prod.fst, ∃ kind : κ, RegionKind.name kind = name) ∧
      ∀ kind : κ, (RegionKind.name kind ∈ region.leafTotals.map Prod.fst ↔
          ∃ leaf ∈ region.leaves, leaf.kind = kind) ∧
        ∀ total, (RegionKind.name kind, total) ∈ region.leafTotals →
          total.count = region.leaves.countP (fun leaf => leaf.kind = kind) ∧
          total.area = Scalar.sum ((region.leaves.filter fun leaf => leaf.kind = kind).map
            fun leaf => leaf.bounds.area)) ∧
    (∀ {α σ : Type} [Scalar α] [DrawSource σ α] (engine : Engine κ α) (limit : Nat)
      (width length : α) (source after : σ) (generation : Generation κ α),
      (engine.run limit width length).run source = (.ok (some generation), after) →
      (generation.root.leafTotals.map fun entry => entry.2.count).sum =
        generation.stats.leaves) ∧
    ∀ {σ : Type} [DrawSource σ Rat] (engine : Engine κ Rat) (limit : Nat)
      (width length : Rat) (source after : σ) (generation : Generation κ Rat),
      (engine.run limit width length).run source = (.ok (some generation), after) →
      (generation.root.leafTotals.map fun entry => entry.2.area).sum =
        width * length +
          (generation.root.features.map fun feature => feature.bounds.area).sum ∧
      ((generation.root.leafTotals.map fun entry => entry.2.area).sum =
          generation.root.bounds.area ↔
        generation.stats.embeds = 0) := by
  refine ⟨fun region => ?_, ?_, ?_⟩
  · have hascending := region.ascending_and_lookup_leafTotals.1
    have hkeys : ∀ name, name ∈ region.leafTotals.map Prod.fst ↔
        ∃ leaf ∈ region.leaves, RegionKind.name leaf.kind = name := by
      intro name
      simp [region.mem_leafTotals_iff]
    refine ⟨nodup_keys_of_ascending hascending, fun name hname => ?_, fun kind => ⟨?_, ?_⟩⟩
    · obtain ⟨leaf, _, hleaf⟩ := (hkeys name).mp hname
      exact ⟨leaf.kind, hleaf⟩
    · simp only [hkeys, hnames.eq_iff]
    · intro total htotal
      obtain ⟨_, rfl⟩ := region.mem_leafTotals_iff.mp htotal
      rw [region.areasOf_name hnames, List.length_map, List.countP_eq_length_filter]
      exact ⟨rfl, rfl⟩
  · intro α σ _ _ engine limit width length source after generation hrun
    rw [Region.sum_count_leafTotals, leaves_of_run hrun]
  · intro σ _ engine limit width length source after generation hrun
    have harea : generation.root.bounds.area = width * length := by
      rw [(covered_of_run hrun).1]
      rfl
    have hsum := sum_area_leaves_of_run hrun
    rw [Region.sum_area_leafTotals, hsum, harea]
    exact ⟨rfl, add_eq_left.trans (sum_area_features_eq_zero_iff hrun)⟩

end Engine

theorem Garden.leafTotals_account_small :
    Function.Injective (RegionKind.name : Garden.Kind → String) ∧
      ∃ generation after,
        (small.run 12 400 300).run smallDraws = (.ok (some generation), after) ∧
        (generation.root.leafTotals.map fun entry => entry.2.count).sum = 4 ∧
        (generation.root.leafTotals.map fun entry => entry.2.area).sum ≠
          generation.root.bounds.area := by
  have hnames : Function.Injective (RegionKind.name : Garden.Kind → String) := by
    intro kind other
    cases kind <;> cases other <;> decide
  obtain ⟨generation, after, hrun, hstats⟩ := small_finished
  obtain ⟨_, hcounts, hareas⟩ := Engine.leafTotals_account hnames
  have hcount := hcounts small 12 400 300 smallDraws after generation hrun
  obtain ⟨_, hembeds⟩ := hareas small 12 400 300 smallDraws after generation hrun
  rw [hstats] at hcount hembeds
  exact ⟨hnames, generation, after, hrun, hcount, fun hsame => nomatch hembeds.mp hsame⟩

end Parterre
