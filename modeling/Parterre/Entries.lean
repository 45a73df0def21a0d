/-
Lists of keys with values, in ascending order of the keys.
-/

namespace Parterre

/-- Change what stands under a key, which may be nothing, and leave all other entries as
they are.  A new key is put in its place. -/
def updateEntry {β : Type} (key : String) (change : Option β → β) :
    List (String × β) → List (String × β)
  | [] => [(key, change none)]
  | (other, kept) :: rest =>
      if key = other then (key, change (some kept)) :: rest
      else if key < other then (key, change none) :: (other, kept) :: rest
      else (other, kept) :: updateEntry key change rest

end Parterre
