/-
Where the regions of a finished tree come from.  Every position of the arena
carries a tree, and assembling the arena finds it.  The tree at the first
position visits every position of the arena once: a position other than the
first is visited as often as the one position it is a child of.
-/
import Mathlib.Data.List.Forall2
import Mathlib.Data.List.Nodup
import Parterre.Proofs.Arena
import Parterre.Proofs.Preorder

namespace Parterre

variable {κ α : Type}

/-- The tree of a position of the arena. -/
inductive Region.StandsAt (nodes : Array (Node κ α)) : Nat → Region κ α → Prop
  | node {position : Nat} {node : Node κ α} {children : List (Region κ α)}
      (hnode : nodes[position]? = some node)
      (hchildren : List.Forall₂ (StandsAt nodes) node.children children) :
      StandsAt nodes position
        (.node node.kind node.bounds node.state node.composition children)

/-- The children of the node at a position. -/
def childrenAt (nodes : Array (Node κ α)) (position : Nat) : List Nat :=
  match nodes[position]? with
  | some node => node.children
  | none => []

theorem childrenAt_eq {nodes : Array (Node κ α)} {position : Nat} {node : Node κ α}
    (hnode : nodes[position]? = some node) :
    childrenAt nodes position = node.children := by
  rw [childrenAt, hnode]

theorem exists_of_mem_childrenAt {nodes : Array (Node κ α)} {position child : Nat}
    (hchild : child ∈ childrenAt nodes position) :
    ∃ node, nodes[position]? = some node ∧ child ∈ node.children := by
  unfold childrenAt at hchild
  split at hchild
  · rename_i node hnode
    exact ⟨node, hnode, hchild⟩
  · cases hchild

namespace Region.StandsAt

variable {nodes : Array (Node κ α)} {position : Nat} {region : Region κ α}

theorem lt_size (h : region.StandsAt nodes position) : position < nodes.size := by
  cases h with
  | node hnode _ => exact (Array.getElem?_eq_some_iff.mp hnode).1

theorem unique {other : Region κ α} (h : region.StandsAt nodes position)
    (hother : other.StandsAt nodes position) : region = other := by
  induction region using Region.induct generalizing position other with
  | node kind bounds state composition children ih =>
      cases h with
      | @node _ node _ hnode hchildren =>
          cases hother with
          | @node _ found others hfound hothers =>
              rw [hnode, Option.some.injEq] at hfound
              subst hfound
              have hsame : children = others := by
                clear hnode
                generalize node.children = places at hchildren hothers
                induction hchildren generalizing others with
                | nil =>
                    cases hothers
                    rfl
                | cons hfirst _ ihrest =>
                    cases hothers with
                    | cons hfirst' hrest' =>
                        rw [ih _ List.mem_cons_self hfirst hfirst',
                          ihrest (fun child hmem =>
                            ih child (List.mem_cons_of_mem _ hmem)) hrest']
              rw [hsame]

/-- The walk over a tree visits the first position and the children of all
visited positions. -/
theorem exists_places (h : region.StandsAt nodes position) :
    ∃ places, List.Forall₂ (StandsAt nodes) places region.walk ∧
      places.Perm (position :: places.flatMap (childrenAt nodes)) := by
  induction region using Region.induct generalizing position with
  | node kind bounds state composition children ih =>
      cases h with
      | @node _ node _ hnode hchildren =>
          have hbelow : ∃ places,
              List.Forall₂ (StandsAt nodes) places (children.flatMap walk) ∧
              places.Perm (node.children ++ places.flatMap (childrenAt nodes)) := by
            clear hnode
            generalize node.children = roots at hchildren
            induction hchildren with
            | nil => exact ⟨[], .nil, .refl _⟩
            | @cons root child roots children hfirst _ ihrest =>
                obtain ⟨first, hfirst, hfirstPerm⟩ := ih _ List.mem_cons_self hfirst
                obtain ⟨rest, hrest, hrestPerm⟩ := ihrest fun child hmem =>
                  ih child (List.mem_cons_of_mem _ hmem)
                refine ⟨first ++ rest, List.rel_append hfirst hrest, ?_⟩
                refine (hfirstPerm.append hrestPerm).trans ?_
                rw [List.flatMap_append, List.cons_append, List.cons_append]
                refine .cons _ ?_
                rw [← List.append_assoc, ← List.append_assoc]
                exact List.perm_append_comm.append_right _
          obtain ⟨places, hplaces, hperm⟩ := hbelow
          refine ⟨position :: places, ?_, ?_⟩
          · rw [walk_eq]
            exact .cons (.node hnode hchildren) hplaces
          · rw [List.flatMap_cons, childrenAt_eq hnode]
            exact hperm.cons _

end Region.StandsAt

theorem exists_of_forall₂_of_mem {β γ : Type} {related : β → γ → Prop}
    {left : List β} {right : List γ} (h : List.Forall₂ related left right)
    {element : γ} (hmem : element ∈ right) : ∃ other ∈ left, related other element := by
  induction h with
  | nil => cases hmem
  | cons hfirst _ ih =>
      rcases List.mem_cons.mp hmem with rfl | hrest
      · exact ⟨_, List.mem_cons_self, hfirst⟩
      · obtain ⟨other, hother, hrelated⟩ := ih hrest
        exact ⟨other, List.mem_cons_of_mem _ hother, hrelated⟩

/-- Looking up every element finds related ones. -/
theorem forall₂_filterMap {β γ : Type} {related : β → γ → Prop} {find : β → Option γ}
    {list : List β} (hfind : ∀ element ∈ list, ∃ found,
      find element = some found ∧ related element found) :
    List.Forall₂ related list (list.filterMap find) := by
  induction list with
  | nil => exact .nil
  | cons first rest ih =>
      obtain ⟨found, hfound, hrelated⟩ := hfind first List.mem_cons_self
      rw [List.filterMap_cons_some hfound]
      exact .cons hrelated (ih fun element hmem =>
        hfind element (List.mem_cons_of_mem _ hmem))

/-- If only one element of a list has the value among its images, and has it
once, the value is as frequent among the images as the element in the list. -/
theorem count_flatMap_of_source {β γ : Type} [DecidableEq β] [DecidableEq γ]
    {images : β → List γ} {source : β} {value : γ}
    (hsource : ∀ element,
      (images element).count value = if element = source then 1 else 0)
    (list : List β) : (list.flatMap images).count value = list.count source := by
  induction list with
  | nil => rfl
  | cons first rest ih =>
      rw [List.flatMap_cons, List.count_append, hsource, ih, List.count_cons, Nat.add_comm]
      simp only [beq_iff_eq]

variable [Scalar α]

namespace Progress.Orderly

variable {progress : Progress κ α}

theorem mem_children_iff (h : progress.Orderly) (child : Nat) :
    (∃ position, child ∈ childrenAt progress.nodes position) ↔
      0 < child ∧ child < progress.nodes.size := by
  have hmem := h.children_perm.mem_iff (a := child)
  have hsize := h.nonempty
  rw [List.mem_flatMap, List.mem_range'_1] at hmem
  constructor
  · rintro ⟨position, hchild⟩
    obtain ⟨node, hnode, hchild⟩ := exists_of_mem_childrenAt hchild
    have hnode : node ∈ progress.nodes.toList := by
      rw [← Array.getElem?_toList] at hnode
      exact List.mem_of_getElem? hnode
    have hrange := hmem.mp ⟨node, hnode, hchild⟩
    omega
  · rintro ⟨hpositive, hlt⟩
    obtain ⟨node, hnode, hchild⟩ := hmem.mpr (by omega)
    obtain ⟨position, hposition⟩ := List.mem_iff_getElem?.mp hnode
    rw [Array.getElem?_toList] at hposition
    exact ⟨position, childrenAt_eq hposition ▸ hchild⟩

theorem lt_of_mem_childrenAt (h : progress.Orderly) {position child : Nat}
    (hchild : child ∈ childrenAt progress.nodes position) : position < child := by
  obtain ⟨node, hnode, hchild⟩ := exists_of_mem_childrenAt hchild
  exact h.lt_child position node hnode child hchild

/-- A position is the child of one position only, and only once. -/
theorem count_childrenAt (h : progress.Orderly) {parent child : Nat}
    (hchild : child ∈ childrenAt progress.nodes parent) (position : Nat) :
    (childrenAt progress.nodes position).count child =
      if position = parent then 1 else 0 := by
  have hnodup : (progress.nodes.toList.flatMap Node.children).Nodup :=
    h.children_perm.nodup_iff.mpr List.nodup_range'
  rw [List.nodup_flatMap] at hnodup
  obtain ⟨hsingle, hapart⟩ := hnodup
  obtain ⟨node, hnode, hmem⟩ := exists_of_mem_childrenAt hchild
  rw [← Array.getElem?_toList] at hnode
  by_cases heq : position = parent
  · subst heq
    rw [if_pos rfl]
    exact List.count_eq_one_of_mem
      (childrenAt_eq (Array.getElem?_toList ▸ hnode) ▸
        hsingle node (List.mem_of_getElem? hnode)) hchild
  · rw [if_neg heq, List.count_eq_zero]
    intro hother
    obtain ⟨found, hfound, hmem'⟩ := exists_of_mem_childrenAt hother
    rw [← Array.getElem?_toList] at hfound
    obtain ⟨hparent, rfl⟩ := List.getElem?_eq_some_iff.mp hnode
    obtain ⟨hposition, rfl⟩ := List.getElem?_eq_some_iff.mp hfound
    rw [List.pairwise_iff_getElem] at hapart
    rcases Nat.lt_or_gt_of_ne heq with hlt | hlt
    · exact hapart position parent hposition hparent hlt hmem' hmem
    · exact hapart parent position hparent hposition hlt hmem hmem'

/-- The positions that a tree at the first position visits are all positions,
each visited once. -/
theorem perm_range_of_places (h : progress.Orderly) {places : List Nat}
    (hsize : ∀ place ∈ places, place < progress.nodes.size)
    (hperm : places.Perm (0 :: places.flatMap (childrenAt progress.nodes))) :
    places.Perm (List.range progress.nodes.size) := by
  have hcount : ∀ place < progress.nodes.size, places.count place = 1 := by
    intro place
    induction place using Nat.strong_induction_on with
    | _ place ih =>
        intro hlt
        rw [hperm.count_eq, List.count_cons]
        by_cases hzero : place = 0
        · subst hzero
          have hnone : 0 ∉ places.flatMap (childrenAt progress.nodes) := by
            intro hmem
            obtain ⟨position, _, hchild⟩ := List.mem_flatMap.mp hmem
            exact Nat.not_lt_zero _ (h.lt_of_mem_childrenAt hchild)
          rw [List.count_eq_zero.mpr hnone]
          rfl
        · obtain ⟨parent, hchild⟩ :=
            (h.mem_children_iff place).mpr ⟨Nat.pos_of_ne_zero hzero, hlt⟩
          have hparent := h.lt_of_mem_childrenAt hchild
          rw [count_flatMap_of_source (h.count_childrenAt hchild),
            ih parent hparent (hparent.trans hlt), if_neg (by simpa using Ne.symm hzero)]
  rw [List.perm_iff_count]
  intro place
  rw [List.nodup_range.count]
  by_cases hlt : place < progress.nodes.size
  · rw [hcount place hlt, if_pos (List.mem_range.mpr hlt)]
  · rw [if_neg (by rwa [List.mem_range]), List.count_eq_zero]
    exact fun hmem => hlt (hsize place hmem)

/-- Assembling the last nodes of an arena gives their trees, the last one
first. -/
theorem standsAt_of_foldr (h : progress.Orderly) {before behind : List (Node κ α)}
    (hnodes : progress.nodes.toList = before ++ behind) :
    let trees := behind.foldr
      (fun node trees => trees.push (node.assemble progress.nodes.size trees)) #[]
    trees.size = behind.length ∧
      ∀ position, before.length ≤ position → position < progress.nodes.size →
        ∃ region, trees[progress.nodes.size - 1 - position]? = some region ∧
          region.StandsAt progress.nodes position := by
  have hlength : progress.nodes.size = before.length + behind.length := by
    rw [← Array.length_toList, hnodes, List.length_append]
  induction behind generalizing before with
  | nil =>
      refine ⟨rfl, fun position hge hlt => ?_⟩
      rw [List.length_nil] at hlength
      omega
  | cons node behind ih =>
      rw [List.append_cons] at hnodes
      obtain ⟨hsize, htrees⟩ := ih hnodes (by simp [hlength]; omega)
      rw [List.foldr_cons]
      generalize behind.foldr
        (fun node trees => trees.push (node.assemble progress.nodes.size trees)) #[] =
          trees at hsize htrees
      refine ⟨by rw [Array.size_push, hsize, List.length_cons], ?_⟩
      intro position hge hlt
      rw [List.length_append, List.length_singleton] at htrees
      rw [List.length_cons] at hlength
      by_cases heq : position = before.length
      · have hlast : progress.nodes.size - 1 - position = trees.size := by omega
        have hnode : progress.nodes[position]? = some node := by
          rw [← Array.getElem?_toList, hnodes, heq]
          simp
        rw [hlast, Array.getElem?_push_size]
        refine ⟨_, rfl, .node hnode (forall₂_filterMap ?_)⟩
        intro child hchild
        rw [← childrenAt_eq hnode] at hchild
        have hbehind := h.lt_of_mem_childrenAt hchild
        have hinside := (h.mem_children_iff child).mp ⟨position, hchild⟩
        exact htrees child (by omega) hinside.2
      · obtain ⟨region, hregion, hstands⟩ := htrees position (by omega) hlt
        have hold : progress.nodes.size - 1 - position < trees.size := by omega
        rw [Array.getElem?_push_lt hold, ← Array.getElem?_eq_getElem hold]
        exact ⟨region, hregion, hstands⟩

/-- Assembling an arena gives the tree at its first position. -/
theorem exists_root (h : progress.Orderly) :
    ∃ root, (assembleAll progress.nodes).back? = some root ∧
      root.StandsAt progress.nodes 0 := by
  obtain ⟨hsize, htrees⟩ := h.standsAt_of_foldr (List.nil_append _).symm
  obtain ⟨root, hroot, hstands⟩ := htrees 0 (Nat.zero_le _) h.nonempty
  refine ⟨root, ?_, hstands⟩
  rw [Array.length_toList] at hsize
  rw [assembleAll, ← Array.foldr_toList, Array.back?, hsize]
  exact hroot

end Progress.Orderly

end Parterre
