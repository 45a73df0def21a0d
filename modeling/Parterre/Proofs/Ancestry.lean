/-
Regions and the regions above them, by their lines.  An expanded region has the kind
that its line gives, the rectangle of every line is proper, and what a line was given
is what was decided about the line above.
-/
import Parterre.Proofs.Binary64.Exact
import Parterre.Proofs.FullSize
import Parterre.Proofs.Relabelling

namespace Parterre

/-- Finite scalars that are not in one order are in the other. -/
class Scalar.Compares (α : Type) [Scalar α] : Prop where
  le_of_not_lt : ∀ {first second : α}, Scalar.isFinite first = true →
    Scalar.isFinite second = true → ¬ second < first → first ≤ second

instance : Scalar.Compares Rat where
  le_of_not_lt _ _ h := not_lt.mp h

instance : Scalar.Compares Float where
  le_of_not_lt hfirst hsecond h := by
    rw [Binary64.lt_iff hsecond hfirst, not_lt] at h
    exact (Binary64.le_iff hfirst hsecond).mpr h

variable {κ α σ : Type}

namespace Lineage

/-- Every line but the first is a child of the line above. -/
theorem exists_above {line found : Lineage κ α} {above : List Nat} {place : Nat}
    (h : line.at? (above ++ [place]) = some found) :
    ∃ parent, line.at? above = some parent ∧ parent.children[place]? = some found := by
  rw [at?_append] at h
  obtain ⟨parent, hparent, hlast⟩ := Option.bind_eq_some_iff.mp h
  obtain ⟨child, hchild, hsame⟩ := Option.bind_eq_some_iff.mp hlast
  cases hsame
  exact ⟨parent, hparent, hchild⟩

@[simp]
theorem bounds_tree (line : Lineage κ α) : line.tree.bounds = line.region.bounds := by
  cases line
  exact Verdict.bounds_graft _ _ _ _

theorem tree_eq_graft (line : Lineage κ α) : line.tree =
    line.region.verdict.graft line.region.kind line.region.bounds (line.children.map tree) := by
  cases line
  rw [tree, treeAll_eq_map]
  rfl

theorem kind_tree {line : Lineage κ α} (h : line.tree.state = .expanded) :
    line.tree.kind = line.region.kind := by
  cases line
  exact Verdict.kind_of_expanded h

theorem expanded_of_children {line : Lineage κ α} (h : line.tree.children ≠ []) :
    line.tree.state = .expanded := by
  cases line
  exact Verdict.expanded_of_children h

end Lineage

variable [Scalar α]

theorem Rect.Proper.finite {bounds : Rect α} (h : bounds.Proper) (axis : Axis) :
    Scalar.isFinite (bounds.extent axis) = true := by
  obtain ⟨hfinite, _, _⟩ := h
  simp only [isFinite, Bool.and_eq_true] at hfinite
  cases axis with
  | vertical => exact hfinite.1.2
  | horizontal => exact hfinite.2

variable [DecidableEq κ] [RegionKind κ]

namespace Engine

variable {engine : Engine κ α} {admits : α → Prop} {depth : Nat} {line : Lineage κ α}

/-- The rectangles of a lineage are proper if the first one is. -/
theorem Records.proper (h : engine.Records admits depth line)
    (hproper : line.region.bounds.Proper) {way : List Nat} {found : Lineage κ α}
    (hfound : line.at? way = some found) : found.region.bounds.Proper := by
  induction way generalizing depth line with
  | nil =>
      cases hfound
      exact hproper
  | cons place rest ih =>
      obtain ⟨child, hchild, hrest⟩ := Option.bind_eq_some_iff.mp hfound
      have hpart : child.given ∈ line.region.verdict.pending := by
        rw [← h.given_children]
        exact List.mem_map_of_mem (List.mem_of_getElem? hchild)
      exact ih (h.of_child hchild) (proper_of_judge h.verdict hproper hpart) hrest

/-- A line was given what was decided about the line above. -/
theorem Records.getElem?_pending (h : engine.Records admits depth line) {place : Nat}
    {child : Lineage κ α} (hchild : line.children[place]? = some child) :
    line.region.verdict.pending[place]? = some child.given := by
  rw [← h.given_children, List.getElem?_map, hchild, Option.map_some]

/-- A run that returns a layout has a lineage of proper rectangles. -/
theorem exists_proper_lineage [DrawSource σ α] {limit : Nat} {width length : α}
    {source after : σ} {generation : Generation κ α}
    (hrun : (engine.run limit width length).run source = (.ok (some generation), after)) :
    ∃ height lineage,
      (engine.lineages height 0 [(engine.settings.root, ⟨0, 0, width, length⟩)]).run source =
        (.ok (some [lineage]), after) ∧
      lineage.tree = generation.root ∧
      lineage.given = (engine.settings.root, ⟨0, 0, width, length⟩) ∧
      lineage.region.bounds.Proper ∧
      engine.Records (fun _ => True) 0 lineage := by
  obtain ⟨height, lineage, hlineages, htree, hgiven, hrecords⟩ := exists_lineage_of_run hrun
  have hproper := (exists_final_of_delivers (DrawSource.delivers_any source) hrun).1
  refine ⟨height, lineage, hlineages, htree, hgiven, ?_, hrecords⟩
  rw [show lineage.region.bounds = ⟨0, 0, width, length⟩ from congrArg Prod.snd hgiven]
  exact hproper

/-- All regions of a layout have proper rectangles, features included. -/
theorem proper_of_run [DrawSource σ α] {limit : Nat} {width length : α}
    {source after : σ} {generation : Generation κ α}
    (hrun : (engine.run limit width length).run source = (.ok (some generation), after)) :
    ∀ region ∈ generation.root.walk, region.bounds.Proper := by
  obtain ⟨_, lineage, _, htree, _, hproper, hrecords⟩ := exists_proper_lineage hrun
  intro region hregion
  obtain ⟨way, hway⟩ := Region.mem_walk_iff_at?.mp hregion
  rw [← htree] at hway
  rcases hrecords.at_cases hway with
    ⟨line, hline, rfl⟩ | ⟨_, above, parent, frame, margin, _, hparent, hverdict⟩
  · rw [Lineage.bounds_tree]
    exact hrecords.proper hproper hline
  · have hfits := fits_of_outcome (hrecords.of_at hparent).verdict
    rw [hverdict] at hfits
    cases hfits with
    | embedded _ hinset => exact (Rect.inset_eq_ok_iff.mp hinset).2.2

end Engine

end Parterre
