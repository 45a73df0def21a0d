/-
Kinds of regions in a garden.
-/
import Parterre.Kind

namespace Parterre.Garden

inductive Kind where
  /-- The whole garden. -/
  | root
  /-- An area that is still divided. -/
  | zone
  /-- An area that waits for its planting. -/
  | parcel
  | grass
  | flowerGarden
  | forest
  | pond
  | path
  | fountain
  | benchArea
  | treasure
  deriving DecidableEq

def Kind.all : List Kind :=
  [.root, .zone, .parcel, .grass, .flowerGarden, .forest, .pond, .path,
    .fountain, .benchArea, .treasure]

def Kind.name : Kind → String
  | .root => "Root"
  | .zone => "Zone"
  | .parcel => "Parcel"
  | .grass => "Grass"
  | .flowerGarden => "FlowerGarden"
  | .forest => "Forest"
  | .pond => "Pond"
  | .path => "Path"
  | .fountain => "Fountain"
  | .benchArea => "BenchArea"
  | .treasure => "Treasure"

instance : RegionKind Kind where
  all := Kind.all
  name := Kind.name

theorem Kind.mem_all (kind : Kind) : kind ∈ Kind.all := by
  cases kind <;> decide

end Parterre.Garden
