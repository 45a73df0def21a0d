/-
Kinds of regions.
-/

namespace Parterre

/-- A type of region kinds: the kinds that every rule table must cover, and
the name of each kind. -/
class RegionKind (κ : Type) where
  all : List κ
  name : κ → String

end Parterre
