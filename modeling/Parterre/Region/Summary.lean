/-
Leaves by kind: how many there are and how much area they cover.  Features lie
on top of their frames, so the areas may add up to more than the root's.
-/
import Parterre.Entries
import Parterre.Region.Walk

namespace Parterre

/-- The leaves of one kind. -/
structure LeafTotal (α : Type) where
  count : Nat
  area : α
  deriving DecidableEq

variable {κ α : Type} [Scalar α]

/-- A total with one more leaf, which is the first one if there is no total yet. -/
def LeafTotal.next (total : Option (LeafTotal α)) (area : α) : LeafTotal α :=
  ⟨(total.getD ⟨0, 0⟩).count + 1, (total.getD ⟨0, 0⟩).area + area⟩

/-- Count one more leaf of the given name.  Names stay in ascending order. -/
def addLeaf (leafName : String) (area : α) :
    List (String × LeafTotal α) → List (String × LeafTotal α) :=
  updateEntry leafName fun total => .next total area

variable [RegionKind κ]

/-- The names of the kinds that occur among the leaves, in ascending order,
with their leaves taken together in drawing order. -/
def Region.leafTotals (region : Region κ α) : List (String × LeafTotal α) :=
  region.leaves.foldl
    (fun totals leaf =>
      addLeaf (RegionKind.name leaf.kind) leaf.bounds.area totals)
    []

end Parterre
