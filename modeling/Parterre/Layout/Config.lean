/-
What the configurations of all layouts have in common: lists of weighted
kinds, checks of single numbers, and the way overrides are laid over the
defaults of a layout.
-/
import Parterre.Engine
import Parterre.Json.Parse
import Parterre.Json.Record

namespace Parterre

/-- An entry of a weighted list of kinds. -/
structure WeightedKind (κ α : Type) where
  kind : κ
  weight : α
  deriving DecidableEq

namespace WeightedKind

def ofJson {κ : Type} [RegionKind κ] (value : Json) :
    Read (WeightedKind κ Float) := do
  let record ← Record.ofJson "WeightedKind"
    [.required "kind" (Json.kind : Json → Read κ),
      .required "weight" Json.number] value
  return {
    kind := ← record.get "kind" Json.kind
    weight := ← record.get "weight" Json.number }

variable {κ α : Type} [RegionKind κ] [Scalar α]

/-- The safeguard of a list of weighted kinds. -/
def safeguard (entries : List (WeightedKind κ α)) :
    Except (LayoutError α) (Safeguard κ α) :=
  Safeguard.ofList (entries.map fun entry => (entry.weight, entry.kind))

end WeightedKind

def ShareRange.ofJson (value : Json) : Read (ShareRange Float) := do
  let record ← Record.ofJson "RatioRange"
    [.required "min" Json.number, .required "max" Json.number] value
  return {
    min := ← record.get "min" Json.number
    max := ← record.get "max" Json.number }

namespace Config

variable {α : Type} [Scalar α]

/-- The field is finite and above zero. -/
def checkPositive (field : String) (value : α) : Except (LayoutError α) Unit :=
  if 0 < value ∧ Scalar.isFinite value then return ()
  else throw (.config (.notPositive field value))

/-- The field is finite and not below zero. -/
def checkNonNegative (field : String) (value : α) :
    Except (LayoutError α) Unit :=
  if 0 ≤ value ∧ Scalar.isFinite value then return ()
  else throw (.config (.negative field value))

/-- There is at least one replacement kind. -/
def checkSafeguard {κ : Type} (entries : List (WeightedKind κ α)) :
    Except (LayoutError α) Unit :=
  if entries.isEmpty then throw (.config .noSafeguard) else return ()

/-- The default document with overrides laid over it. -/
def layered (defaults overrides : Json) : Except (LayoutError Float) Json :=
  if overrides.isObject then return defaults.merge overrides
  else throw (.config .notAnObject)

/-- A JSON text as a value. -/
def parse (text : String) : Except (LayoutError Float) Json :=
  match Json.parse? text with
  | some value => return value
  | none => throw (.json .malformed)

/-- The text of a file. -/
def decode (contents : Except FileFault ByteArray) :
    Except (LayoutError Float) String :=
  match contents with
  | .error fault => throw (.io fault)
  | .ok bytes =>
      match String.fromUTF8? bytes with
      | some text => return text
      | none => throw (.io .notText)

end Config

/-- What is laid over the defaults of a layout. -/
inductive Overrides where
  | nothing
  /-- A JSON text. -/
  | text (source : String)
  /-- What a file holds, or why it could not be read. -/
  | file (contents : Except FileFault ByteArray)

/-- The default document with the overrides laid over it. -/
def Overrides.document (defaults : Json) :
    Overrides → Except (LayoutError Float) Json
  | .nothing => return defaults
  | .text source => do
      let top ← Config.parse source
      Config.layered defaults top
  | .file contents => do
      let source ← Config.decode contents
      let top ← Config.parse source
      Config.layered defaults top

/-- Read a configuration from the default document with overrides. -/
def Overrides.load {β : Type} (overrides : Overrides) (defaults : Json)
    (read : Json → Read β) : Except (LayoutError Float) β := do
  let document ← overrides.document defaults
  (read document).mapError .json

end Parterre
