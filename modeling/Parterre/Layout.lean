/-
The layouts that can be generated, and the names they are asked for by.
-/

namespace Parterre

inductive Layout where
  /-- Parcels along the paths of a garden. -/
  | garden
  /-- Beds mixed from palettes. -/
  | planting
  deriving DecidableEq

namespace Layout

def ofName? : String → Option Layout
  | "garden" => some .garden
  | "planting" => some .planting
  | _ => none

/-- The name in a heading. -/
def title : Layout → String
  | .garden => "Garden"
  | .planting => "Planting"

end Layout

end Parterre
