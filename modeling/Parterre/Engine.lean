/-
Engines: a rule table with the settings of a run.
-/
import Parterre.Engine.Safeguard
import Parterre.RuleTable.Shrinking

namespace Parterre

/-- What a run needs beside the rules. -/
structure Settings (κ α : Type) where
  /-- The kind of the root. -/
  root : κ
  /-- Regions with a smaller side are stopped. -/
  minDim : α
  /-- The kinds of stopped regions. -/
  safeguard : Safeguard κ α
  /-- The kind of the frame under an embedded feature. -/
  frame : κ
  /-- Regions this far below the root are stopped. -/
  maxDepth : Option Nat
  /-- Regions that only `maxDepth` stops keep their kind. -/
  keepAtMaxDepth : Bool

variable {κ α : Type} [DecidableEq κ] [RegionKind κ] [Scalar α]

/-- The settings make sense without any table. -/
def Settings.check (settings : Settings κ α) : Except (LayoutError α) Unit := do
  if ¬ 0 < settings.minDim ∨ ¬ Scalar.isFinite settings.minDim then
    throw (.config (.notPositive "min_dim" settings.minDim))
  settings.safeguard.check

namespace Engine

/-- The settings make sense, the replacement kinds are final, and no rule can
go on for ever at the same size. -/
def check (table : RuleTable κ α) (settings : Settings κ α) :
    Except (LayoutError α) Unit := do
  settings.check
  match settings.safeguard.kinds.find? fun kind => ¬ table.isTerminal kind with
  | some kind => throw (.config (.safeguardExpands (RegionKind.name kind)))
  | none => table.checkShrinks settings.frame

end Engine

/-- A table and settings that passed `Engine.check`. -/
structure Engine (κ α : Type) [DecidableEq κ] [RegionKind κ] [Scalar α] where
  table : RuleTable κ α
  settings : Settings κ α
  accepted : Engine.check table settings = .ok ()

/-- The engine for a table and settings. -/
def Engine.ofSettings (table : RuleTable κ α) (settings : Settings κ α) :
    Except (LayoutError α) (Engine κ α) :=
  match h : Engine.check table settings with
  | .ok () => .ok ⟨table, settings, h⟩
  | .error failure => .error failure

end Parterre
