/-
Everything that can go wrong, by cause.  The causes carry the values they are
about; how they are worded is decided in `Parterre.Error.Message`.
-/
import Parterre.Rect

namespace Parterre

/-- What is wrong with a rectangle that was asked for. -/
inductive RectFault (α : Type) where
  | notFinite
  | notPositive
  | negativeInset (margin : α)
  | insetLeavesNothing (margin : α)
  | embedLeavesNothing (margin : α)
  | corridorLeavesNothing (width : α)
  | stated (reason : String)
  deriving DecidableEq

/-- Why a rule is refused, or cannot be applied. -/
inductive RuleFault (α : Type) where
  | noBranches
  | negativeWeight (weight : α)
  | weightSum (total : α)
  | repeatedCandidates
  | tooFewCandidates (count arity : Nat)
  | ratioOutside (min max : α)
  | corridorNotPositive (width : α)
  | negativeMargin (margin : α)
  | registeredTwice
  | neverShrinks
  | stated (reason : String)
  deriving DecidableEq

/-- Why settings, weights or a script of draws are refused. -/
inductive SettingFault (α : Type) where
  | noBranches
  | noSafeguard
  | safeguardWeight (weight : α) (kind : String)
  | safeguardExpands (kind : String)
  | notPositive (field : String) (value : α)
  | negative (field : String) (value : α)
  | pathTooWide (path minDim : α)
  | chanceOutside (chance : α)
  | parcelTooSmall (feature : String) (size : α)
  | treasureParcelTooSmall
  | drawOutside (value : α) (position : Nat)
  | notAnObject
  | stated (reason : String)
  deriving DecidableEq

/-- Why a file could not be read as text. -/
inductive FileFault where
  | missing
  | denied
  /-- A name is followed in something that is no directory. -/
  | notDirectory
  /-- The path leads to a directory. -/
  | directory
  | nameTooLong
  | notText
  | stated (reason : String)
  deriving DecidableEq

/-- A value met in a configuration, as far as a complaint shows it. -/
inductive Found where
  | null
  | boolean (value : Bool)
  | integer (value : Int)
  | float (value : Float)
  | string (value : String)
  | sequence
  | map
  deriving DecidableEq

/-- What a field of a configuration must hold. -/
inductive Expected where
  | number
  | count
  | boolean
  | sequence
  /-- A group of named fields. -/
  | fields (name : String)
  /-- A kind, written as its name. -/
  | kind
  /-- Nothing, behind the name of a kind. -/
  | unit
  deriving DecidableEq

/-- Why a configuration text is refused. -/
inductive ReadFault where
  | malformed
  | unknownField (name : String) (known : List String)
  | missingField (name : String)
  | unknownVariant (name : String) (known : List String)
  | wrongType (found : Found) (expected : Expected)
  | wrongValue (found : Found) (expected : Expected)
  | notOneKey
  | tooFewElements (count : Nat) (name : String) (fields : Nat)
  | tooManyElements (count : Nat)
  deriving DecidableEq

/-- The failures of building rules, engines and layouts. -/
inductive LayoutError (α : Type) where
  /-- A rectangle was refused, or has no room for what was asked of it. -/
  | invalidGeometry (bounds : Rect α) (fault : RectFault α)
  /-- A kind has no rule. -/
  | unknownType (kind : String)
  /-- A script of draws is used up. -/
  | randomSourceExhausted (consumed : Nat)
  | invalidRule (kind : String) (fault : RuleFault α)
  | config (fault : SettingFault α)
  | io (fault : FileFault)
  | json (fault : ReadFault)
  deriving DecidableEq

end Parterre
