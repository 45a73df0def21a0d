/-
The planting layout.  The area is quartered into four different beds.  Every
bed is cut in two again and again, each half with a kind drawn from the palette
of its bed, until it is too small or too deep.
-/
import Parterre.Engine
import Parterre.Planting.Config

namespace Parterre.Planting

/-- The beds of the four quarters. -/
def rootBeds : List Kind :=
  [.flowerGarden, .forest, .fountain, .pond]

def flowers : List Kind :=
  [.flowerBlue, .flowerOrange, .flowerPink, .flowerPurple, .flowerRed]

def woodland : List Kind :=
  [.forestT1, .forestT2, .forestT3, .forestT4, .pond, .flowerBlue]

def waterside : List Kind :=
  [.pond, .forestT1]

variable {α : Type} [Scalar α]

/-- Cut a bed in two different kinds of a palette. -/
def halves (config : Config α) (palette : List Kind) : Rule Kind α :=
  .always (.mix palette (.two .random config.splitRatio))

/-- The rule of every kind. -/
def rule (config : Config α) : Kind → Rule Kind α
  | .root => .always (.mix rootBeds .four)
  | .flowerGarden | .flowerRed | .flowerPink | .flowerOrange | .flowerBlue
  | .flowerPurple => halves config flowers
  | .forest | .forestT1 | .forestT2 | .forestT3 | .forestT4 =>
      halves config woodland
  | .pond => halves config waterside
  | .fountain | .grass => .always .terminal

def ruleTable (config : Config α) : Except (LayoutError α) (RuleTable Kind α) :=
  RuleTable.ofFunction (rule config)

/-- The engine of a configuration. -/
def engine (config : Config α) : Except (LayoutError α) (Engine Kind α) := do
  config.check
  let safeguard ← WeightedKind.safeguard config.safeguard
  let table ← ruleTable config
  Engine.ofSettings table
    { root := .root
      minDim := config.minDim
      safeguard := safeguard
      frame := .grass
      maxDepth := config.maxDepth
      keepAtMaxDepth := config.keepKindsAtMaxDepth }

end Parterre.Planting
