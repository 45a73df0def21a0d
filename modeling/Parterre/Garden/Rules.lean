/-
The garden layout.  A path cuts the garden in two zones.  Zones are cut across
their longer side until they are small enough and become parcels, and a parcel
is planted by chance: forest, flowers, benches or grass, or a pond or fountain
set into grass.  Large grass parcels may hide a treasure.
-/
import Parterre.Engine
import Parterre.Garden.Config

namespace Parterre.Garden

variable {α : Type} [Scalar α]

/-- Grass, with a treasure in some large parcels. -/
def grassRule (config : Config α) : Rule Kind α :=
  let treasure := config.treasure
  .ifBothExceed treasure.minParcelSize treasure.minParcelSize
    (.weighted
      [(treasure.chance, .always (.embed .treasure treasure.margin)),
        (1 - treasure.chance, .always (.fill .grass))])
    (.always (.fill .grass))

/-- A feature in a parcel that is large enough, or else another rule. -/
def featureRule (kind : Kind) (feature : Feature α) (small : Rule Kind α) :
    Rule Kind α :=
  .ifBothExceed feature.minParcelSize feature.minParcelSize
    (.always (.embed kind feature.margin)) small

/-- What a parcel becomes. -/
def parcelRule (config : Config α) : Rule Kind α :=
  let weights := config.parcelWeights
  .weighted
    [(weights.pond, featureRule .pond config.pond (.always (.fill .forest))),
      (weights.forest, .always (.fill .forest)),
      (weights.flowerGarden, .always (.fill .flowerGarden)),
      (weights.fountain,
        featureRule .fountain config.fountain (grassRule config)),
      (weights.benchArea, .always (.fill .benchArea)),
      (weights.grass, grassRule config)]

/-- The rule of every kind. -/
def rule (config : Config α) : Kind → Rule Kind α
  | .root =>
      .always
        (.corridor .random config.pathWidth config.corridorRatio
          .zone .path .zone)
  | .zone =>
      .ifEitherExceeds config.minZoneSize
        (.always (.bisect .longer config.splitRatio .zone .zone))
        (.always (.fill .parcel))
  | .parcel => parcelRule config
  | .grass | .flowerGarden | .forest | .pond | .path | .fountain | .benchArea
  | .treasure => .always .terminal

def ruleTable (config : Config α) : Except (LayoutError α) (RuleTable Kind α) :=
  RuleTable.ofFunction (rule config)

/-- The engine of a configuration. -/
def engine (config : Config α) : Except (LayoutError α) (Engine Kind α) := do
  config.check
  let safeguard ← WeightedKind.safeguard config.safeguard
  let table ← ruleTable config
  Engine.ofSettings table
    { root := .root
      minDim := config.minDim
      safeguard := safeguard
      frame := .grass
      maxDepth := config.maxDepth
      keepAtMaxDepth := false }

end Parterre.Garden
