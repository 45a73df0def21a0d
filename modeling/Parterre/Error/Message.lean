/-
The wording of failures.  Names of kinds and fields stand between backticks,
and numbers are written as `Decimal.plain` writes coordinates.
-/
import Parterre.Decimal.Layout
import Parterre.Error
import Parterre.Text.Quoted

namespace Parterre

open Decimal (plain)

def RectFault.message : RectFault Float → String
  | .notFinite => "coordinates must be finite"
  | .notPositive => "width and height must be positive"
  | .negativeInset margin =>
      "inset margin " ++ plain margin ++ " must be non-negative"
  | .insetLeavesNothing margin =>
      "margin " ++ plain margin ++ " leaves no room inside"
  | .embedLeavesNothing margin =>
      "embed margin " ++ plain margin ++ " exceeds half a dimension"
  | .corridorLeavesNothing width =>
      "corridor width " ++ plain width ++ " leaves no room on either side"
  | .stated reason => reason

def RuleFault.message : RuleFault Float → String
  | .noBranches => "weighted choice has no branches"
  | .negativeWeight weight =>
      "branch weight " ++ plain weight ++ " must be non-negative"
  | .weightSum total =>
      "branch weights sum to " ++ plain total ++ ", expected 1"
  | .repeatedCandidates => "subset candidates contain duplicates"
  | .tooFewCandidates count arity =>
      toString count ++ " candidates cannot fill a " ++ toString arity
        ++ "-way split"
  | .ratioOutside min max =>
      "ratio range " ++ plain min ++ ".." ++ plain max
        ++ " must lie inside (0, 1)"
  | .corridorNotPositive width =>
      "corridor width " ++ plain width ++ " must be positive"
  | .negativeMargin margin =>
      "embed margin " ++ plain margin ++ " must be non-negative"
  | .registeredTwice => "registered more than once"
  | .neverShrinks => "can rewrite itself without shrinking"
  | .stated reason => reason

def SettingFault.message : SettingFault Float → String
  | .noBranches => "weighted choice has no branches"
  | .noSafeguard => "safeguard needs at least one kind"
  | .safeguardWeight weight kind =>
      "safeguard weight " ++ plain weight ++ " for `" ++ kind
        ++ "` must be positive"
  | .safeguardExpands kind =>
      "safeguard kind `" ++ kind ++ "` must have a terminal rule"
  | .notPositive field value => field ++ " " ++ plain value ++ " must be positive"
  | .negative field value => field ++ " " ++ plain value ++ " must be non-negative"
  | .pathTooWide path minDim =>
      "path_width " ++ plain path ++ " must be smaller than min_dim " ++ plain minDim
  | .chanceOutside chance =>
      "treasure.chance " ++ plain chance ++ " must lie in [0, 1]"
  | .parcelTooSmall feature size =>
      feature ++ ".min_parcel_size " ++ plain size
        ++ " is smaller than twice its margin"
  | .treasureParcelTooSmall =>
      "treasure.min_parcel_size is smaller than twice its margin"
  | .drawOutside value position =>
      "scripted random value " ++ plain value ++ " at position "
        ++ toString position ++ " is outside [0, 1)"
  | .notAnObject => "config file must contain a JSON object"
  | .stated reason => reason

def FileFault.message : FileFault → String
  | .missing => "No such file or directory (os error 2)"
  | .denied => "Permission denied (os error 13)"
  | .notDirectory => "Not a directory (os error 20)"
  | .directory => "Is a directory (os error 21)"
  | .nameTooLong => "File name too long (os error 36)"
  | .notText => "stream did not contain valid UTF-8"
  | .stated reason => reason

def Found.describe : Found → String
  | .null => "null"
  | .boolean value => "boolean `" ++ toString value ++ "`"
  | .integer value => "integer `" ++ toString value ++ "`"
  | .float value => "floating point `" ++ Decimal.quoted value ++ "`"
  | .string value => "string " ++ Text.quote value
  | .sequence => "sequence"
  | .map => "map"

def Expected.describe : Expected → String
  | .number => "f64"
  | .count => "usize"
  | .boolean => "a boolean"
  | .sequence => "a sequence"
  | .fields name => "struct " ++ name
  | .kind => "string or map"
  | .unit => "unit"

/-- The names that could have stood in place of an unknown one. -/
def expectedNames : List String → String
  | [only] => "expected `" ++ only ++ "`"
  | [first, second] => "expected `" ++ first ++ "` or `" ++ second ++ "`"
  | names =>
      "expected one of "
        ++ String.intercalate ", " (names.map fun name => "`" ++ name ++ "`")

def ReadFault.message : ReadFault → String
  | .malformed => "malformed text"
  | .unknownField name known =>
      "unknown field `" ++ name ++ "`, " ++ expectedNames known
  | .missingField name => "missing field `" ++ name ++ "`"
  | .unknownVariant name known =>
      "unknown variant `" ++ name ++ "`, " ++ expectedNames known
  | .wrongType found expected =>
      "invalid type: " ++ found.describe ++ ", expected " ++ expected.describe
  | .wrongValue found expected =>
      "invalid value: " ++ found.describe ++ ", expected " ++ expected.describe
  | .notOneKey => "invalid value: map, expected map with a single key"
  | .tooFewElements count name fields =>
      "invalid length " ++ toString count ++ ", expected struct " ++ name
        ++ " with " ++ toString fields ++ " elements"
  | .tooManyElements count =>
      "invalid length " ++ toString count
        ++ ", expected fewer elements in array"

/-- The text that is shown for a failure. -/
def LayoutError.message : LayoutError Float → String
  | .invalidGeometry bounds fault =>
      "invalid geometry: " ++ fault.message
        ++ " (x=" ++ plain bounds.x ++ ", y=" ++ plain bounds.y
        ++ ", width=" ++ plain bounds.width
        ++ ", height=" ++ plain bounds.height ++ ")"
  | .unknownType kind => "no rule registered for region kind `" ++ kind ++ "`"
  | .randomSourceExhausted consumed =>
      "random source exhausted after " ++ toString consumed ++ " values"
  | .invalidRule kind fault =>
      "invalid rule for `" ++ kind ++ "`: " ++ fault.message
  | .config fault => "configuration error: " ++ fault.message
  | .io fault => "I/O error: " ++ fault.message
  | .json fault => "JSON error: " ++ fault.message

end Parterre
