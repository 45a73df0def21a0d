/-
The ground of a layout: its regions without the features of embedded pairs.  The
features are as many as the embeddings, and what is left has a verdict each, the
one that the lineage records.
-/
import Parterre.Proofs.Cover
import Parterre.Proofs.Tally

namespace Parterre

variable {κ α σ : Type}

namespace Region

/-- The children are a frame and a feature on top of it. -/
def isEmbedding (region : Region κ α) : Bool :=
  match region.composition with
  | some (.embedded _) => true
  | _ => false

mutual

/-- The regions of a tree with their depths when the features of embedded pairs
are left aside. -/
def grounds (depth : Nat) : Region κ α → List (Nat × Region κ α)
  | .node kind bounds state (some (.embedded margin)) (frame :: rest) =>
      (depth, .node kind bounds state (some (.embedded margin)) (frame :: rest))
        :: frame.grounds (depth + 1)
  | .node kind bounds state composition children =>
      (depth, .node kind bounds state composition children)
        :: groundsAll (depth + 1) children

def groundsAll (depth : Nat) : List (Region κ α) → List (Nat × Region κ α)
  | [] => []
  | region :: rest => region.grounds depth ++ groundsAll depth rest

end

theorem groundsAll_eq_flatMap (depth : Nat) (regions : List (Region κ α)) :
    groundsAll depth regions = regions.flatMap (grounds depth) := by
  induction regions with
  | nil => rfl
  | cons region rest ih => rw [groundsAll, ih, List.flatMap_cons]

theorem grounds_embedded (depth : Nat) (kind : κ) (bounds : Rect α) (state : Status)
    (margin : α) (frame : Region κ α) (rest : List (Region κ α)) :
    (node kind bounds state (some (.embedded margin)) (frame :: rest)).grounds depth =
      (depth, node kind bounds state (some (.embedded margin)) (frame :: rest))
        :: frame.grounds (depth + 1) := by
  rw [grounds]

theorem grounds_of_not_embedding (depth : Nat) {region : Region κ α}
    (h : region.isEmbedding = false) :
    region.grounds depth =
      (depth, region) :: region.children.flatMap (grounds (depth + 1)) := by
  obtain ⟨kind, bounds, state, composition, children⟩ := region
  rw [grounds, groundsAll_eq_flatMap, Region.children]
  intro margin frame rest hcomposition
  subst hcomposition
  cases h

theorem isEmbedding_iff {region : Region κ α} :
    region.isEmbedding = true ↔ ∃ margin, region.composition = some (.embedded margin) := by
  obtain ⟨kind, bounds, state, composition, children⟩ := region
  rcases composition with _ | (_ | margin) <;> simp [isEmbedding, Region.composition]

theorem overlays_of_not_embedding {region : Region κ α} (h : region.isEmbedding = false) :
    region.overlays = [] := by
  obtain ⟨kind, bounds, state, composition, children⟩ := region
  rcases composition with _ | (_ | margin)
  · rfl
  · rfl
  · cases h

section WellFormed

variable [Scalar α]

/-- An embedding has one feature, and it is a leaf. -/
theorem WellFormed.overlays {region : Region κ α} (h : region.WellFormed)
    (hembedding : region.isEmbedding = true) :
    ∃ frame feature, region.children = [frame, feature] ∧ region.overlays = [feature] ∧
      feature.children = [] := by
  obtain ⟨margin, hsome⟩ := isEmbedding_iff.mp hembedding
  obtain ⟨frame, feature, hchildren, _, _, hnone, _⟩ := h.pair margin hsome
  refine ⟨frame, feature, hchildren, ?_, hnone⟩
  rw [Region.overlays, hsome, hchildren]
  rfl

/-- All regions are the ground and the features. -/
theorem walk_perm_grounds {region : Region κ α} (h : ∀ found ∈ region.walk, found.WellFormed)
    (depth : Nat) :
    region.walk.Perm ((region.grounds depth).map Prod.snd ++ region.features) := by
  induction region using Region.induct generalizing depth with
  | node kind bounds state composition children ih =>
      have hbelow : ∀ child ∈ children, ∀ found ∈ child.walk, found.WellFormed := by
        intro child hchild found hfound
        exact h found (mem_walk_iff.mpr (Or.inr ⟨child, hchild, hfound⟩))
      rw [walk_eq, features_eq]
      by_cases hembedding : (node kind bounds state composition children).isEmbedding = true
      · obtain ⟨frame, feature, hpair, hoverlays, hleaf⟩ :=
          (h _ (mem_walk_self _)).overlays hembedding
        obtain ⟨margin, hsome⟩ := isEmbedding_iff.mp hembedding
        obtain rfl : children = [frame, feature] := hpair
        obtain rfl : composition = some (.embedded margin) := hsome
        have hframe := ih frame List.mem_cons_self (hbelow frame List.mem_cons_self) (depth + 1)
        rw [hoverlays, grounds_embedded]
        simp only [Region.children, List.flatMap_cons, List.flatMap_nil, List.append_nil,
          walk_of_leaf hleaf, features_of_leaf hleaf, List.map_cons, List.cons_append,
          List.perm_cons]
        refine (hframe.append_right [feature]).trans ?_
        rw [List.append_assoc]
        exact List.perm_append_comm.append_left _
      · rw [Bool.not_eq_true] at hembedding
        rw [overlays_of_not_embedding hembedding, grounds_of_not_embedding depth hembedding,
          List.nil_append, List.map_cons, List.cons_append, List.perm_cons, List.map_flatMap]
        refine (List.Perm.flatMap_left _ fun child hchild => ?_).trans
          (List.flatMap_append_perm _ _ _).symm
        exact ih child hchild (hbelow child hchild) (depth + 1)

/-- There is a feature for every embedding. -/
theorem length_features {region : Region κ α} (h : ∀ found ∈ region.walk, found.WellFormed) :
    region.features.length = region.walk.countP isEmbedding := by
  rw [features]
  generalize region.walk = regions at h
  induction regions with
  | nil => rfl
  | cons first rest ih =>
      obtain ⟨hfirst, hrest⟩ := List.forall_mem_cons.mp h
      rw [List.flatMap_cons, List.length_append, ih hrest, List.countP_cons, Nat.add_comm]
      by_cases hembedding : first.isEmbedding = true
      · obtain ⟨_, feature, _, hoverlays, _⟩ := hfirst.overlays hembedding
        rw [hoverlays, if_pos hembedding, List.length_singleton]
      · rw [if_neg hembedding, overlays_of_not_embedding (Bool.not_eq_true _ ▸ hembedding),
          List.length_nil]

/-- The embeddings are on the ground. -/
theorem countP_isEmbedding_grounds {region : Region κ α}
    (h : ∀ found ∈ region.walk, found.WellFormed) (depth : Nat) :
    (region.grounds depth).countP (fun place => place.2.isEmbedding) =
      region.walk.countP isEmbedding := by
  have hperm := walk_perm_grounds h depth
  have hfeatures : region.features.countP isEmbedding = 0 := by
    rw [List.countP_eq_zero]
    intro feature hfeature hembedding
    have hmem := hperm.mem_iff.mpr (List.mem_append_right _ hfeature)
    obtain ⟨owner, howner, hoverlay⟩ := List.mem_flatMap.mp hfeature
    have hleaf : feature.children = [] := by
      by_cases howns : owner.isEmbedding = true
      · obtain ⟨_, only, _, hoverlays, hnone⟩ := (h owner howner).overlays howns
        rw [hoverlays] at hoverlay
        exact List.mem_singleton.mp hoverlay ▸ hnone
      · rw [overlays_of_not_embedding (Bool.not_eq_true _ ▸ howns)] at hoverlay
        cases hoverlay
    obtain ⟨margin, hsome⟩ := isEmbedding_iff.mp hembedding
    rw [(h feature hmem).leaf_iff.mp hleaf] at hsome
    cases hsome
  rw [hperm.countP_eq, List.countP_append, hfeatures, Nat.add_zero, List.countP_map]
  rfl

end WellFormed

end Region

theorem countP_eq_of_forall₂ {β γ : Type} {related : β → γ → Prop} {first : β → Bool}
    {second : γ → Bool} {left : List β} {right : List γ}
    (hsame : ∀ one other, related one other → first one = second other)
    (h : List.Forall₂ related left right) : left.countP first = right.countP second := by
  induction h with
  | nil => rfl
  | cons hfirst _ ih => rw [List.countP_cons, List.countP_cons, ih, hsame _ _ hfirst]

namespace Engine

variable [DecidableEq κ] [RegionKind κ] [Scalar α] {engine : Engine κ α}

/-- The region is too small or too deep. -/
def stops (engine : Engine κ α) (place : Nat × Region κ α) : Bool :=
  engine.settings.isUndersized place.2.bounds || engine.settings.isCapped place.1

theorem isStopped_of_judge {admits : α → Prop} {kind : κ} {bounds : Rect α} {depth : Nat}
    {verdict : Verdict κ α}
    (h : Sampler.Outcome admits (engine.judge kind bounds depth) (.ok verdict)) :
    (engine.settings.isUndersized bounds || engine.settings.isCapped depth) =
      verdict.isStopped := by
  rcases outcome_judge h with ⟨hstops, _, rfl, _⟩ | ⟨hgoes, _, _, _, _, _, _, rfl⟩
  · exact hstops
  · exact hgoes

/-- The verdict was passed on the region at its depth. -/
def Shows (engine : Engine κ α) (place : Nat × Region κ α) (verdict : Verdict κ α) : Prop :=
  engine.stops place = verdict.isStopped ∧ place.2.isEmbedding = verdict.isEmbedding

/-- The verdicts of a lineage are those on the ground of its tree, in order. -/
theorem Records.shows_verdicts {admits : α → Prop} {depth : Nat} {line : Lineage κ α}
    (h : engine.Records admits depth line) :
    List.Forall₂ engine.Shows (line.tree.grounds depth) line.verdicts := by
  induction h with
  | @node depth region children hverdict hgiven hchildren ih =>
      have hbelow : List.Forall₂ engine.Shows
          ((Lineage.treeAll children).flatMap (Region.grounds (depth + 1)))
          (Lineage.verdictsAll children) := by
        clear hgiven hchildren
        induction children with
        | nil => exact .nil
        | cons first rest ihrest =>
            obtain ⟨hfirst, hothers⟩ := List.forall_mem_cons.mp ih
            exact List.rel_append hfirst (ihrest hothers)
      have hstopped := isStopped_of_judge hverdict
      obtain ⟨kind, bounds, verdict⟩ := region
      rcases verdict with replacement | (_ | parts | ⟨frame, feature, margin⟩)
      · obtain rfl := List.map_eq_nil_iff.mp hgiven
        exact .cons ⟨hstopped, rfl⟩ .nil
      · obtain rfl := List.map_eq_nil_iff.mp hgiven
        exact .cons ⟨hstopped, rfl⟩ .nil
      · rw [Lineage.tree, Verdict.graft, Region.grounds_of_not_embedding depth rfl,
          Lineage.verdicts]
        exact .cons ⟨hstopped, rfl⟩ hbelow
      · obtain ⟨only, rfl⟩ := List.length_eq_one_iff.mp
          ((List.length_map Lineage.given).symm.trans (congrArg List.length hgiven))
        rw [Lineage.tree, Verdict.graft, Lineage.treeAll, Lineage.treeAll, List.cons_append,
          Region.grounds_embedded, Lineage.verdicts, Lineage.verdictsAll, Lineage.verdictsAll,
          List.append_nil]
        exact .cons ⟨hstopped, rfl⟩ (ih only List.mem_cons_self)

end Engine

end Parterre
