/-
JSON values.  The fields of an object are kept in ascending order of their
keys, so an object is the same value in whatever order its fields were
written.
-/
import Parterre.Entries
import Parterre.Error

namespace Parterre

/-- A JSON value.  Numbers written as integers that fit into 64 bits are told
apart from all others. -/
inductive Json where
  | null
  | boolean (value : Bool)
  | integer (value : Int)
  | float (value : Float)
  | string (value : String)
  | array (elements : List Json)
  | object (fields : List (String × Json))

namespace Json

/-- What a complaint shows of a value. -/
def found : Json → Found
  | .null => .null
  | .boolean value => .boolean value
  | .integer value => .integer value
  | .float value => .float value
  | .string value => .string value
  | .array _ => .sequence
  | .object _ => .map

def isObject : Json → Bool
  | .object _ => true
  | _ => false

/-- Put a value under a key.  A value that is already there is replaced. -/
def insertField (key : String) (value : Json) :
    List (String × Json) → List (String × Json) :=
  updateEntry key fun _ => value

mutual

/-- Lay a value over another one: objects are merged field by field, and
anything else replaces what it is laid over. -/
def merge : Json → Json → Json
  | .object base, .object top => .object (mergeFields base top)
  | _, top => top

/-- Merge fields one by one into those of an object. -/
def mergeFields (base : List (String × Json)) :
    List (String × Json) → List (String × Json)
  | [] => base
  | (key, value) :: rest =>
      let merged :=
        match base.lookup key with
        | some under => merge under value
        | none => value
      mergeFields (insertField key merged base) rest

end

end Json

end Parterre
