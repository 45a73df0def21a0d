/-
The configuration of the planting layout.
-/
import Parterre.Layout.Config
import Parterre.Planting.Kind

namespace Parterre.Planting

structure Config (α : Type) where
  /-- Beds with a smaller side are stopped. -/
  minDim : α
  /-- Beds this far below the root are stopped. -/
  maxDepth : Option Nat
  /-- Where a bed is cut. -/
  splitRatio : ShareRange α
  /-- Beds that only `maxDepth` stops keep their kind. -/
  keepKindsAtMaxDepth : Bool
  /-- The kinds of stopped beds. -/
  safeguard : List (WeightedKind Kind α)
  deriving DecidableEq

namespace Config

section

variable {α : Type} [Scalar α]

/-- The conditions on a configuration, in the order in which they are
reported. -/
def check (config : Config α) : Except (LayoutError α) Unit := do
  Parterre.Config.checkPositive "min_dim" config.minDim
  Parterre.Config.checkSafeguard config.safeguard

end

/-- The replacement kinds. -/
def safeguardOfJson : Json → Read (List (WeightedKind Kind Float)) :=
  Json.listOf WeightedKind.ofJson

/-- The fields of a configuration; without `max_depth` there is no limit. -/
def fields : List Field :=
  [.required "min_dim" Json.number,
    .optional "max_depth" .null Json.natural?,
    .required "split_ratio" ShareRange.ofJson,
    .optional "keep_kinds_at_max_depth" (.boolean false) Json.flag,
    .required "safeguard" safeguardOfJson]

def ofJson (value : Json) : Read (Config Float) := do
  let record ← Record.ofJson "PlantingConfig" fields value
  return {
    minDim := ← record.get "min_dim" Json.number
    maxDepth := ← record.get "max_depth" Json.natural?
    splitRatio := ← record.get "split_ratio" ShareRange.ofJson
    keepKindsAtMaxDepth := ← record.get "keep_kinds_at_max_depth" Json.flag
    safeguard := ← record.get "safeguard" safeguardOfJson }

/-- The default document. -/
def defaultDocument : Json :=
  .object
    [("keep_kinds_at_max_depth", .boolean true),
      ("max_depth", .integer 6),
      ("min_dim", .float 30),
      ("safeguard",
        .array [.object [("kind", .string "Grass"), ("weight", .float 1)]]),
      ("split_ratio", .object [("max", .float 0.7), ("min", .float 0.3)])]

/-- The default configuration with overrides laid over it. -/
def load (overrides : Overrides) : Except (LayoutError Float) (Config Float) :=
  overrides.load defaultDocument ofJson

end Config

end Parterre.Planting
