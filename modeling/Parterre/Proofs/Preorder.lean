/-
Trees of regions.  What holds of a region whenever it holds of its children
holds of every region; and the walk over a tree lists a region, then its
children with everything below them.
-/
import Parterre.Region.Walk

namespace Parterre

variable {κ α : Type}

namespace Region

/-- Induction from the children of a region to the region. -/
@[elab_as_elim]
theorem induct {motive : Region κ α → Prop}
    (node : ∀ kind bounds state composition children,
      (∀ child ∈ children, motive child) →
        motive (.node kind bounds state composition children))
    (region : Region κ α) : motive region := by
  apply @Region.rec κ α motive fun children => ∀ child ∈ children, motive child
  · exact node
  · intro child hchild
    cases hchild
  · intro first rest hfirst hrest child hchild
    rcases List.mem_cons.mp hchild with rfl | hmem
    · exact hfirst
    · exact hrest child hmem

theorem preorderAll_eq_flatMap (regions : List (Region κ α)) :
    preorderAll regions = regions.flatMap preorder := by
  induction regions with
  | nil => rfl
  | cons region rest ih => rw [preorderAll, ih, List.flatMap_cons]

theorem preorder_eq (region : Region κ α) :
    region.preorder = region :: region.children.flatMap preorder := by
  cases region
  rw [preorder, preorderAll_eq_flatMap, children]

end Region

/-- A walk visits the stacked trees one after the other. -/
theorem Walk.toList_collect (visited : Array (Region κ α)) (walk : Walk κ α) :
    (walk.collect visited).toList =
      visited.toList ++ walk.stack.flatMap Region.preorder := by
  fun_induction Walk.collect visited walk with
  | case1 visited walk hnext =>
      obtain ⟨stack⟩ := walk
      cases stack with
      | nil => simp
      | cons region rest => simp [Walk.next?] at hnext
  | case2 visited walk region after hnext ih =>
      obtain ⟨stack⟩ := walk
      cases stack with
      | nil => simp [Walk.next?] at hnext
      | cons first rest =>
          simp only [Walk.next?, Option.some.injEq, Prod.mk.injEq] at hnext
          obtain ⟨rfl, rfl⟩ := hnext
          rw [ih]
          simp [Region.preorder_eq first]

namespace Region

theorem walk_eq_preorder (region : Region κ α) : region.walk = region.preorder := by
  rw [walk, Walk.toList_collect]
  simp

theorem walk_eq (region : Region κ α) :
    region.walk = region :: region.children.flatMap walk := by
  rw [walk_eq_preorder, preorder_eq]
  simp only [funext walk_eq_preorder]

/-- A region of a tree is its root or lies in the tree of a child. -/
theorem mem_walk_iff {region found : Region κ α} :
    found ∈ region.walk ↔
      found = region ∨ ∃ child ∈ region.children, found ∈ child.walk := by
  rw [walk_eq, List.mem_cons, List.mem_flatMap]

theorem mem_walk_of_child {region child found : Region κ α} (hchild : child ∈ region.children)
    (hfound : found ∈ child.walk) : found ∈ region.walk :=
  mem_walk_iff.mpr (Or.inr ⟨child, hchild, hfound⟩)

theorem walk_of_leaf {region : Region κ α} (h : region.children = []) :
    region.walk = [region] := by
  rw [walk_eq, h]
  rfl

theorem mem_walk_self (region : Region κ α) : region ∈ region.walk :=
  mem_walk_iff.mpr (Or.inl rfl)

/-- Where a region has children, its leaves are theirs. -/
theorem leaves_node (kind : κ) (bounds : Rect α) (state : Status)
    (composition : Option (Composition α)) {children : List (Region κ α)}
    (h : children ≠ []) :
    (node kind bounds state composition children).leaves = children.flatMap leaves := by
  have hleaf : (node kind bounds state composition children).isLeaf = false := by
    rw [isLeaf, List.isEmpty_eq_false_iff]
    exact h
  rw [leaves, walk_eq, List.filter_cons_of_neg (by simp [hleaf]), List.filter_flatMap]
  rfl

end Region

end Parterre
