/-
The order of a walk.  The calls of a walk visit the stacked trees one after the other, each
one from its root down, and find nothing once all are visited.  Which call visits a region
is known from the way to it: as many regions come before it as lie above it and in front of
its way.  So regions come after the regions above them, and all regions below a child come
before the next child.
-/
import Mathlib.Data.Set.Function
import Parterre.Garden.Kind
import Parterre.Proofs.Places

namespace Parterre

variable {κ α : Type}

/-- The region that a call of a walk visits.  Calls are counted from zero. -/
def Walk.visit? : Nat → Walk κ α → Option (Region κ α)
  | 0, walk => walk.next?.map Prod.fst
  | call + 1, walk => walk.next?.bind fun step => visit? call step.2

/-- Whatever is stacked, the calls go through the listings of the stacked trees. -/
theorem Walk.visit?_eq (call : Nat) (stack : List (Region κ α)) :
    visit? call ⟨stack⟩ = (stack.flatMap Region.preorder)[call]? := by
  -- a call puts the children on top of what is left, so the stack changes with every call
  induction call generalizing stack with
  | zero =>
      cases stack with
      | nil => rfl
      | cons region rest =>
          rw [List.flatMap_cons, Region.preorder_eq]
          rfl
  | succ call ih =>
      cases stack with
      | nil => rfl
      | cons region rest =>
          have hstep : visit? (call + 1) ⟨region :: rest⟩ =
              visit? call ⟨region.children ++ rest⟩ := rfl
          rw [hstep, ih, List.flatMap_cons, Region.preorder_eq, List.flatMap_append,
            List.cons_append, List.getElem?_cons_succ]

namespace Region

theorem length_flatMap_preorder {regions : List (Region κ α)}
    (h : ∀ region ∈ regions, region.preorder.length = region.weight) :
    (regions.flatMap preorder).length = weightAll regions := by
  induction regions with
  | nil => rfl
  | cons first rest ih =>
      obtain ⟨hfirst, hrest⟩ := List.forall_mem_cons.mp h
      rw [List.flatMap_cons, List.length_append, hfirst, ih hrest, weightAll]

@[simp]
theorem length_preorder (region : Region κ α) : region.preorder.length = region.weight := by
  induction region using Region.induct with
  | node kind bounds state composition children ih =>
      rw [preorder_eq, List.length_cons, Region.children, length_flatMap_preorder ih, weight]

theorem count_eq_weight (region : Region κ α) : region.count = region.weight := by
  rw [count, walk_eq_preorder, length_preorder]

/-- How many regions a walk visits before the one at the end of a way: those above it, and
at every step all those of the children in front. -/
def ordinal : Region κ α → List Nat → Nat
  | _, [] => 0
  | region, place :: way =>
      weightAll (region.children.take place) + 1 +
        (region.children[place]?).elim 0 fun child => child.ordinal way

theorem ordinal_cons {region child : Region κ α} {place : Nat}
    (h : region.children[place]? = some child) (way : List Nat) :
    region.ordinal (place :: way) =
      weightAll (region.children.take place) + 1 + child.ordinal way := by
  rw [ordinal, h]
  rfl

/-- Up to a region on the way, and from there on. -/
theorem ordinal_append {region found : Region κ α} {above : List Nat}
    (h : region.at? above = some found) (rest : List Nat) :
    region.ordinal (above ++ rest) = region.ordinal above + found.ordinal rest := by
  induction above generalizing region with
  | nil =>
      cases h
      rw [List.nil_append, ordinal, Nat.zero_add]
  | cons place way ih =>
      obtain ⟨child, hchild, hfound⟩ := Option.bind_eq_some_iff.mp h
      rw [List.cons_append, ordinal_cons hchild, ordinal_cons hchild, ih hfound, ← Nat.add_assoc]

theorem flatMap_preorder_children {region child : Region κ α} {place : Nat}
    (h : region.children[place]? = some child) :
    region.children.flatMap preorder = (region.children.take place).flatMap preorder ++
      (child.preorder ++ (region.children.drop (place + 1)).flatMap preorder) := by
  obtain ⟨hplace, rfl⟩ := List.getElem?_eq_some_iff.mp h
  rw [← List.flatMap_cons, ← List.drop_eq_getElem_cons hplace, ← List.flatMap_append,
    List.take_append_drop]

/-- All that is below a region is listed in one piece, behind as many regions as the ordinal
says. -/
theorem preorder_split {region found : Region κ α} {way : List Nat}
    (h : region.at? way = some found) :
    ∃ before behind, region.preorder = before ++ found.preorder ++ behind ∧
      before.length = region.ordinal way := by
  induction way generalizing region with
  | nil =>
      cases h
      exact ⟨[], [], by rw [List.nil_append, List.append_nil], rfl⟩
  | cons place rest ih =>
      obtain ⟨child, hchild, hfound⟩ := Option.bind_eq_some_iff.mp h
      obtain ⟨before, behind, hsplit, hlength⟩ := ih hfound
      refine ⟨region :: (region.children.take place).flatMap preorder ++ before,
        behind ++ (region.children.drop (place + 1)).flatMap preorder, ?_, ?_⟩
      · rw [preorder_eq, flatMap_preorder_children hchild, hsplit]
        simp only [List.append_assoc, List.cons_append]
      · have hfront : ((region.children.take place).flatMap preorder).length =
            weightAll (region.children.take place) :=
          length_flatMap_preorder fun other _ => other.length_preorder
        rw [List.length_append, List.length_cons, hfront, hlength, ordinal_cons hchild]

/-- The call with the number of a region visits it. -/
theorem visit?_ordinal {region found : Region κ α} {way : List Nat}
    (h : region.at? way = some found) :
    Walk.visit? (region.ordinal way) ⟨[region]⟩ = some found := by
  obtain ⟨before, behind, hsplit, hlength⟩ := preorder_split h
  rw [Walk.visit?_eq, List.flatMap_singleton, hsplit, ← hlength, List.append_assoc,
    List.getElem?_append_right (Nat.le_refl _), Nat.sub_self, preorder_eq]
  rfl

theorem ordinal_lt_weight {region found : Region κ α} {way : List Nat}
    (h : region.at? way = some found) : region.ordinal way < region.weight := by
  have hvisit := visit?_ordinal h
  rw [Walk.visit?_eq, List.flatMap_singleton] at hvisit
  obtain ⟨hlt, _⟩ := List.getElem?_eq_some_iff.mp hvisit
  rwa [length_preorder] at hlt

theorem weightAll_take_add_weight_le {children : List (Region κ α)} {child : Region κ α}
    {place later : Nat} (hchild : children[place]? = some child) (hlt : place < later) :
    weightAll (children.take place) + child.weight ≤ weightAll (children.take later) := by
  induction children generalizing place later with
  | nil => cases hchild
  | cons first rest ih =>
      obtain ⟨later, rfl⟩ := Nat.exists_eq_succ_of_ne_zero (Nat.ne_zero_of_lt hlt)
      rw [List.take_succ_cons, weightAll]
      cases place with
      | zero =>
          cases hchild
          rw [List.take_zero, weightAll, Nat.zero_add]
          exact Nat.le_add_right _ _
      | succ place =>
          rw [List.take_succ_cons, weightAll, Nat.add_assoc]
          exact Nat.add_le_add_left (ih hchild (Nat.lt_of_succ_lt_succ hlt)) _

/-- All regions below a child come before those below a later child. -/
theorem ordinal_lt_of_later {region found other : Region κ α} {place later : Nat}
    {rest way : List Nat} (hfound : region.at? (place :: rest) = some found)
    (hother : region.at? (later :: way) = some other) (hlt : place < later) :
    region.ordinal (place :: rest) < region.ordinal (later :: way) := by
  obtain ⟨child, hchild, hrest⟩ := Option.bind_eq_some_iff.mp hfound
  obtain ⟨next, hnext, _⟩ := Option.bind_eq_some_iff.mp hother
  have hbelow := ordinal_lt_weight hrest
  have hfront := weightAll_take_add_weight_le hchild hlt
  rw [ordinal_cons hchild, ordinal_cons hnext]
  omega

/-- Different places have different ordinals. -/
theorem way_eq_of_ordinal_eq {region found target : Region κ α} {way other : List Nat}
    (hfound : region.at? way = some found) (htarget : region.at? other = some target)
    (h : region.ordinal way = region.ordinal other) : way = other := by
  induction way generalizing region other with
  | nil =>
      cases other with
      | nil => rfl
      | cons later rest =>
          rw [ordinal, ordinal] at h
          omega
  | cons place rest ih =>
      cases other with
      | nil =>
          rw [ordinal, ordinal] at h
          omega
      | cons later way =>
          -- where the ways part, the one through the child in front comes first
          rcases Nat.lt_trichotomy place later with hlt | rfl | hlt
          · exact absurd h (ordinal_lt_of_later hfound htarget hlt).ne
          · obtain ⟨child, hchild, hrest⟩ := Option.bind_eq_some_iff.mp hfound
            obtain ⟨same, hsame, hway⟩ := Option.bind_eq_some_iff.mp htarget
            obtain rfl := Option.some.inj (hchild.symm.trans hsame)
            rw [ordinal_cons hchild, ordinal_cons hchild, Nat.add_left_cancel_iff] at h
            rw [ih hrest hway h]
          · exact absurd h (ordinal_lt_of_later htarget hfound hlt).ne'

/-- A call that comes before all children are done belongs to one of them. -/
theorem exists_child_of_lt {children : List (Region κ α)} {call : Nat}
    (h : call < weightAll children) :
    ∃ place child rest, children[place]? = some child ∧ rest < child.weight ∧
      call = weightAll (children.take place) + rest := by
  induction children generalizing call with
  | nil => cases h
  | cons first others ih =>
      rw [weightAll] at h
      by_cases hfirst : call < first.weight
      · exact ⟨0, first, call, rfl, hfirst, (Nat.zero_add call).symm⟩
      · have hothers : call - first.weight < weightAll others := by omega
        obtain ⟨place, child, rest, hchild, hrest, hcall⟩ := ih hothers
        refine ⟨place + 1, child, rest, hchild, hrest, ?_⟩
        rw [List.take_succ_cons, weightAll]
        omega

/-- Every call visits a region. -/
theorem exists_ordinal {region : Region κ α} {call : Nat} (h : call < region.weight) :
    ∃ way found, region.at? way = some found ∧ region.ordinal way = call := by
  induction region using Region.induct generalizing call with
  | node kind bounds state composition children ih =>
      cases call with
      | zero => exact ⟨[], _, rfl, rfl⟩
      | succ call =>
          rw [weight] at h
          obtain ⟨place, child, rest, hchild, hrest, hcall⟩ :=
            exists_child_of_lt (Nat.lt_of_succ_lt_succ h)
          obtain ⟨way, found, hfound, hordinal⟩ := ih child (List.mem_of_getElem? hchild) hrest
          refine ⟨place :: way, found, Option.bind_eq_some_iff.mpr ⟨child, hchild, hfound⟩, ?_⟩
          rw [ordinal_cons hchild, hordinal, hcall, Region.children]
          omega

/-- The places of a tree correspond to the calls that its walk takes. -/
theorem bijOn_ordinal (region : Region κ α) :
    Set.BijOn region.ordinal {way | (region.at? way).isSome} {call | call < region.count} := by
  rw [count_eq_weight]
  refine ⟨fun way hway => ?_, fun way hway other hother h => ?_, fun call hcall => ?_⟩
  · obtain ⟨found, hfound⟩ := Option.isSome_iff_exists.mp hway
    exact ordinal_lt_weight hfound
  · obtain ⟨found, hfound⟩ := Option.isSome_iff_exists.mp hway
    obtain ⟨target, htarget⟩ := Option.isSome_iff_exists.mp hother
    exact way_eq_of_ordinal_eq hfound htarget h
  · obtain ⟨way, found, hfound, hordinal⟩ := exists_ordinal hcall
    exact ⟨way, Option.isSome_iff_exists.mpr ⟨found, hfound⟩, hordinal⟩

/-- Regions come after the regions above them. -/
theorem ordinal_lt_below {region parent : Region κ α} {above : List Nat}
    (h : region.at? above = some parent) (place : Nat) (rest : List Nat) :
    region.ordinal above < region.ordinal (above ++ place :: rest) := by
  rw [ordinal_append h, ordinal]
  omega

/-- Below any region, what is below a child comes before what is below a later child. -/
theorem ordinal_append_lt {region found other : Region κ α} {above : List Nat}
    {place later : Nat} {rest way : List Nat}
    (hfound : region.at? (above ++ place :: rest) = some found)
    (hother : region.at? (above ++ later :: way) = some other) (hlt : place < later) :
    region.ordinal (above ++ place :: rest) < region.ordinal (above ++ later :: way) := by
  rw [at?_append] at hfound hother
  obtain ⟨parent, hparent, hbelow⟩ := Option.bind_eq_some_iff.mp hfound
  rw [hparent, Option.bind_some] at hother
  rw [ordinal_append hparent, ordinal_append hparent]
  exact Nat.add_lt_add_left (ordinal_lt_of_later hbelow hother hlt) _

theorem leaves_split {region found : Region κ α} {way : List Nat}
    (h : region.at? way = some found) :
    ∃ before behind, region.leaves = before ++ found.leaves ++ behind := by
  obtain ⟨before, behind, hsplit, _⟩ := preorder_split h
  refine ⟨before.filter isLeaf, behind.filter isLeaf, ?_⟩
  rw [leaves, leaves, walk_eq_preorder, hsplit, List.filter_append, List.filter_append,
    walk_eq_preorder]

/-- The leaves of the first child are drawn first, and then those of the second one. -/
theorem leaves_split_pair {region pair first second : Region κ α} {above : List Nat}
    {others : List (Region κ α)} (hpair : region.at? above = some pair)
    (hchildren : pair.children = first :: second :: others) :
    ∃ before behind, region.leaves = before ++ first.leaves ++ second.leaves ++ behind := by
  obtain ⟨before, behind, hsplit⟩ := leaves_split hpair
  obtain ⟨kind, bounds, state, composition, children⟩ := pair
  obtain rfl : children = first :: second :: others := hchildren
  refine ⟨before, others.flatMap leaves ++ behind, ?_⟩
  rw [hsplit, leaves_node _ _ _ _ (List.cons_ne_nil _ _), List.flatMap_cons, List.flatMap_cons]
  simp only [List.append_assoc]

/-- A walk lists a region and then its children with all that is below them, and its calls
go through this list and find nothing afterwards.  The calls correspond one to one to the
ways of the tree.  A region is visited before all regions below it, and all regions below a
child are visited before those below a later child.  So the regions below the frame of an
embedded pair are visited before its feature, and its leaves are drawn first. -/
theorem walk_in_order (region : Region κ α) :
    region.walk = region.preorder ∧
    (∀ call, Walk.visit? call ⟨[region]⟩ = region.preorder[call]?) ∧
    Set.BijOn region.ordinal {way | (region.at? way).isSome} {call | call < region.count} ∧
    (∀ way found, region.at? way = some found →
      Walk.visit? (region.ordinal way) ⟨[region]⟩ = some found) ∧
    (∀ above place rest found, region.at? (above ++ place :: rest) = some found →
      region.ordinal above < region.ordinal (above ++ place :: rest)) ∧
    (∀ above place later rest way found other, place < later →
      region.at? (above ++ place :: rest) = some found →
      region.at? (above ++ later :: way) = some other →
      region.ordinal (above ++ place :: rest) < region.ordinal (above ++ later :: way)) ∧
    ∀ above pair margin frame feature others, region.at? above = some pair →
      pair.composition = some (.embedded margin) → pair.children = frame :: feature :: others →
      (∀ rest below, frame.at? rest = some below →
        region.ordinal (above ++ 0 :: rest) < region.ordinal (above ++ [1])) ∧
      ∃ before behind, region.leaves = before ++ frame.leaves ++ feature.leaves ++ behind := by
  refine ⟨region.walk_eq_preorder, ?_, region.bijOn_ordinal, ?_, ?_, ?_, ?_⟩
  · intro call
    rw [Walk.visit?_eq, List.flatMap_singleton]
  · exact fun way found hfound => visit?_ordinal hfound
  · intro above place rest found hfound
    rw [at?_append] at hfound
    obtain ⟨parent, hparent, _⟩ := Option.bind_eq_some_iff.mp hfound
    exact ordinal_lt_below hparent place rest
  · intro above place later rest way found other hlt hfound hother
    exact ordinal_append_lt hfound hother hlt
  · intro above pair margin frame feature others hpair _ hchildren
    refine ⟨fun rest below hbelow => ?_, leaves_split_pair hpair hchildren⟩
    have hframe : region.at? (above ++ 0 :: rest) = some below := by
      rw [at?_append, hpair, Option.bind_some, at?, hchildren]
      exact hbelow
    have hfeature : region.at? (above ++ [1]) = some feature := by
      rw [at?_append, hpair, Option.bind_some, at?, hchildren]
      rfl
    exact ordinal_append_lt hframe hfeature Nat.zero_lt_one

end Region

namespace Garden

/-- A pond in a lawn with two beds, beside a path. -/
def lawn : Region Kind Rat :=
  .node .root ⟨0, 0, 120, 50⟩ .expanded (some .tiled)
    [.node .parcel ⟨0, 0, 100, 50⟩ .expanded (some (.embedded 10))
      [.node .grass ⟨0, 0, 100, 50⟩ .expanded (some .tiled)
        [.node .flowerGarden ⟨0, 0, 50, 50⟩ .terminal none [],
          .node .forest ⟨50, 0, 50, 50⟩ .terminal none []],
        .node .pond ⟨10, 10, 80, 30⟩ .terminal none []],
      .node .path ⟨100, 0, 20, 50⟩ .terminal none []]

/-- The second bed of the frame is visited by the fifth call, then the pond, then the path. -/
theorem walk_in_order_lawn :
    ∃ parcel frame feature bed, lawn.at? [0] = some parcel ∧
      parcel.composition = some (.embedded 10) ∧ parcel.children = [frame, feature] ∧
      lawn.at? [0, 0, 1] = some bed ∧ bed.kind = .forest ∧
      lawn.ordinal [0, 0, 1] = 4 ∧ Walk.visit? 4 ⟨[lawn]⟩ = some bed ∧
      lawn.ordinal [0, 0, 1] < lawn.ordinal [0, 1] ∧
      lawn.ordinal [0, 1] < lawn.ordinal [1] ∧
      ∃ before behind, lawn.leaves = before ++ frame.leaves ++ feature.leaves ++ behind := by
  obtain ⟨_, _, _, hvisit, _, hlater, hembedded⟩ := Region.walk_in_order lawn
  obtain ⟨hframe, hleaves⟩ := hembedded [0] _ 10 _ _ _ rfl rfl rfl
  exact ⟨_, _, _, _, rfl, rfl, rfl, rfl, rfl, by decide, hvisit [0, 0, 1] _ rfl,
    hframe [1] _ rfl, hlater [] 0 1 [1] [] _ _ Nat.zero_lt_one rfl rfl, hleaves⟩

end Garden

end Parterre
