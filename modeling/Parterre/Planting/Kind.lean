/-
Kinds of beds in a planting.
-/
import Parterre.Kind

namespace Parterre.Planting

inductive Kind where
  /-- The whole planting. -/
  | root
  | flowerGarden
  | flowerRed
  | flowerPink
  | flowerOrange
  | flowerBlue
  | flowerPurple
  | forest
  | forestT1
  | forestT2
  | forestT3
  | forestT4
  | pond
  | fountain
  | grass
  deriving DecidableEq

def Kind.all : List Kind :=
  [.root, .flowerGarden, .flowerRed, .flowerPink, .flowerOrange, .flowerBlue,
    .flowerPurple, .forest, .forestT1, .forestT2, .forestT3, .forestT4, .pond,
    .fountain, .grass]

def Kind.name : Kind → String
  | .root => "Root"
  | .flowerGarden => "FlowerGarden"
  | .flowerRed => "FlowerRed"
  | .flowerPink => "FlowerPink"
  | .flowerOrange => "FlowerOrange"
  | .flowerBlue => "FlowerBlue"
  | .flowerPurple => "FlowerPurple"
  | .forest => "Forest"
  | .forestT1 => "ForestT1"
  | .forestT2 => "ForestT2"
  | .forestT3 => "ForestT3"
  | .forestT4 => "ForestT4"
  | .pond => "Pond"
  | .fountain => "Fountain"
  | .grass => "Grass"

instance : RegionKind Kind where
  all := Kind.all
  name := Kind.name

theorem Kind.mem_all (kind : Kind) : kind ∈ Kind.all := by
  cases kind <;> decide

end Parterre.Planting
