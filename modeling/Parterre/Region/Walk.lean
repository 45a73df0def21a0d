/-
Walking a tree with a stack.  The stack holds the trees that are still to be
visited; visiting one puts its children on top.  Every step uses up one region
of the stacked trees, so a walk ends.
-/
import Parterre.Region

namespace Parterre

variable {κ α : Type}

namespace Region

mutual

/-- The number of regions of a tree. -/
def weight : Region κ α → Nat
  | .node _ _ _ _ children => weightAll children + 1

/-- The number of regions of some trees. -/
def weightAll : List (Region κ α) → Nat
  | [] => 0
  | region :: rest => region.weight + weightAll rest

end

theorem weightAll_append (first second : List (Region κ α)) :
    weightAll (first ++ second) = weightAll first + weightAll second := by
  induction first with
  | nil => simp [weightAll]
  | cons region rest ih => simp [weightAll, ih, Nat.add_assoc]

theorem weightAll_children_lt (region : Region κ α) :
    weightAll region.children < region.weight := by
  cases region
  simp [children, weight]

end Region

/-- The trees that are still to be visited, the next one first. -/
structure Walk (κ α : Type) where
  stack : List (Region κ α)

namespace Walk

/-- The next region and the walk after it. -/
def next? : Walk κ α → Option (Region κ α × Walk κ α)
  | ⟨[]⟩ => none
  | ⟨region :: rest⟩ => some (region, ⟨region.children ++ rest⟩)

theorem weightAll_next?_lt {walk after : Walk κ α} {region : Region κ α}
    (h : walk.next? = some (region, after)) :
    Region.weightAll after.stack < Region.weightAll walk.stack := by
  obtain ⟨stack⟩ := walk
  cases stack with
  | nil => simp [next?] at h
  | cons first rest =>
      simp only [next?, Option.some.injEq, Prod.mk.injEq] at h
      obtain ⟨rfl, rfl⟩ := h
      simp only [Region.weightAll_append, Region.weightAll]
      exact Nat.add_lt_add_right (Region.weightAll_children_lt first) _

/-- Take all regions of a walk and put them behind those already visited. -/
def collect (visited : Array (Region κ α)) (walk : Walk κ α) :
    Array (Region κ α) :=
  match _next : walk.next? with
  | none => visited
  | some (region, after) => after.collect (visited.push region)
termination_by Region.weightAll walk.stack
decreasing_by exact weightAll_next?_lt _next

end Walk

namespace Region

/-- The regions of a tree as a walk from its root visits them. -/
def walk (region : Region κ α) : List (Region κ α) :=
  (Walk.collect #[] ⟨[region]⟩).toList

/-- The leaves in the order in which they are drawn. -/
def leaves (region : Region κ α) : List (Region κ α) :=
  region.walk.filter isLeaf

/-- The number of regions of a tree. -/
def count (region : Region κ α) : Nat :=
  region.walk.length

end Region

end Parterre
