/-
The configuration of the garden layout: its numbers, the conditions on them,
its defaults and how it is read.
-/
import Parterre.Garden.Kind
import Parterre.Layout.Config

namespace Parterre.Garden

/-- A feature for parcels whose sides both exceed a minimum. -/
structure Feature (α : Type) where
  minParcelSize : α
  /-- The gap between the edge of the parcel and the feature. -/
  margin : α
  deriving DecidableEq

/-- A treasure in some of the large grass parcels. -/
structure Treasure (α : Type) where
  chance : α
  minParcelSize : α
  margin : α
  deriving DecidableEq

/-- The weights of what a parcel becomes. -/
structure ParcelWeights (α : Type) where
  /-- A pond, or forest if the parcel is too small for one. -/
  pond : α
  forest : α
  flowerGarden : α
  /-- A fountain, or grass if the parcel is too small for one. -/
  fountain : α
  benchArea : α
  /-- Grass, which may hide a treasure. -/
  grass : α
  deriving DecidableEq

structure Config (α : Type) where
  /-- Regions with a smaller side are stopped. -/
  minDim : α
  /-- Regions this far below the root are stopped. -/
  maxDepth : Option Nat
  /-- The width of the path through the garden. -/
  pathWidth : α
  /-- Where the path is cut. -/
  corridorRatio : ShareRange α
  /-- Where a zone is cut. -/
  splitRatio : ShareRange α
  /-- Zones with a larger side are cut. -/
  minZoneSize : α
  pond : Feature α
  fountain : Feature α
  treasure : Treasure α
  parcelWeights : ParcelWeights α
  /-- The kinds of stopped regions. -/
  safeguard : List (WeightedKind Kind α)
  deriving DecidableEq

section

open Parterre.Config (checkPositive checkNonNegative checkSafeguard)

variable {α : Type} [Scalar α]

/-- A parcel that is large enough for the feature has room for its margins. -/
def Feature.check (name : String) (feature : Feature α) :
    Except (LayoutError α) Unit :=
  if feature.minParcelSize < Scalar.twice feature.margin then
    throw (.config (.parcelTooSmall name feature.minParcelSize))
  else return ()

/-- The chance is a probability. -/
def Treasure.checkChance (treasure : Treasure α) : Except (LayoutError α) Unit :=
  if 0 ≤ treasure.chance ∧ treasure.chance ≤ 1 then return ()
  else throw (.config (.chanceOutside treasure.chance))

/-- A parcel that is large enough for a treasure has room for its margins. -/
def Treasure.check (treasure : Treasure α) : Except (LayoutError α) Unit :=
  if treasure.minParcelSize < Scalar.twice treasure.margin then
    throw (.config .treasureParcelTooSmall)
  else return ()

/-- The path is narrower than the smallest region that is still divided. -/
def Config.checkPath (config : Config α) : Except (LayoutError α) Unit :=
  if config.minDim ≤ config.pathWidth then
    throw (.config (.pathTooWide config.pathWidth config.minDim))
  else return ()

/-- The conditions on a configuration, in the order in which they are
reported. -/
def Config.check (config : Config α) : Except (LayoutError α) Unit := do
  checkPositive "min_dim" config.minDim
  checkPositive "path_width" config.pathWidth
  checkPositive "min_zone_size" config.minZoneSize
  config.checkPath
  checkNonNegative "pond.margin" config.pond.margin
  checkNonNegative "fountain.margin" config.fountain.margin
  checkNonNegative "treasure.margin" config.treasure.margin
  config.treasure.checkChance
  config.pond.check "pond"
  config.fountain.check "fountain"
  config.treasure.check
  checkSafeguard config.safeguard

end

def Feature.ofJson (value : Json) : Read (Feature Float) := do
  let record ← Record.ofJson "InsetFeature"
    [.required "min_parcel_size" Json.number,
      .required "margin" Json.number] value
  return {
    minParcelSize := ← record.get "min_parcel_size" Json.number
    margin := ← record.get "margin" Json.number }

def Treasure.ofJson (value : Json) : Read (Treasure Float) := do
  let record ← Record.ofJson "TreasureConfig"
    [.required "chance" Json.number,
      .required "min_parcel_size" Json.number,
      .required "margin" Json.number] value
  return {
    chance := ← record.get "chance" Json.number
    minParcelSize := ← record.get "min_parcel_size" Json.number
    margin := ← record.get "margin" Json.number }

def ParcelWeights.ofJson (value : Json) : Read (ParcelWeights Float) := do
  let record ← Record.ofJson "ParcelWeights"
    [.required "pond" Json.number,
      .required "forest" Json.number,
      .required "flower_garden" Json.number,
      .required "fountain" Json.number,
      .required "bench_area" Json.number,
      .required "grass" Json.number] value
  return {
    pond := ← record.get "pond" Json.number
    forest := ← record.get "forest" Json.number
    flowerGarden := ← record.get "flower_garden" Json.number
    fountain := ← record.get "fountain" Json.number
    benchArea := ← record.get "bench_area" Json.number
    grass := ← record.get "grass" Json.number }

namespace Config

/-- The replacement kinds. -/
def safeguardOfJson : Json → Read (List (WeightedKind Kind Float)) :=
  Json.listOf WeightedKind.ofJson

/-- The fields of a configuration; without `max_depth` there is no limit. -/
def fields : List Field :=
  [.required "min_dim" Json.number,
    .optional "max_depth" .null Json.natural?,
    .required "path_width" Json.number,
    .required "corridor_ratio" ShareRange.ofJson,
    .required "split_ratio" ShareRange.ofJson,
    .required "min_zone_size" Json.number,
    .required "pond" Feature.ofJson,
    .required "fountain" Feature.ofJson,
    .required "treasure" Treasure.ofJson,
    .required "parcel_weights" ParcelWeights.ofJson,
    .required "safeguard" safeguardOfJson]

def ofJson (value : Json) : Read (Config Float) := do
  let record ← Record.ofJson "GardenConfig" fields value
  return {
    minDim := ← record.get "min_dim" Json.number
    maxDepth := ← record.get "max_depth" Json.natural?
    pathWidth := ← record.get "path_width" Json.number
    corridorRatio := ← record.get "corridor_ratio" ShareRange.ofJson
    splitRatio := ← record.get "split_ratio" ShareRange.ofJson
    minZoneSize := ← record.get "min_zone_size" Json.number
    pond := ← record.get "pond" Feature.ofJson
    fountain := ← record.get "fountain" Feature.ofJson
    treasure := ← record.get "treasure" Treasure.ofJson
    parcelWeights := ← record.get "parcel_weights" ParcelWeights.ofJson
    safeguard := ← record.get "safeguard" safeguardOfJson }

/-- The default document. -/
def defaultDocument : Json :=
  .object
    [("corridor_ratio", .object [("max", .float 0.8), ("min", .float 0.2)]),
      ("fountain",
        .object [("margin", .float 40), ("min_parcel_size", .float 150)]),
      ("max_depth", .null),
      ("min_dim", .float 60),
      ("min_zone_size", .float 250),
      ("parcel_weights",
        .object
          [("bench_area", .float 0.05), ("flower_garden", .float 0.2),
            ("forest", .float 0.25), ("fountain", .float 0.05),
            ("grass", .float 0.25), ("pond", .float 0.2)]),
      ("path_width", .float 50),
      ("pond", .object [("margin", .float 20), ("min_parcel_size", .float 150)]),
      ("safeguard",
        .array [.object [("kind", .string "Grass"), ("weight", .float 1)]]),
      ("split_ratio", .object [("max", .float 0.7), ("min", .float 0.3)]),
      ("treasure",
        .object
          [("chance", .float 0.1), ("margin", .float 10),
            ("min_parcel_size", .float 100)])]

/-- The default configuration with overrides laid over it. -/
def load (overrides : Overrides) : Except (LayoutError Float) (Config Float) :=
  overrides.load defaultDocument ofJson

end Config

end Parterre.Garden
