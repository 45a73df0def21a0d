/-
Reading records from JSON values.  A record is an object with known fields, or
an array of its fields in the order in which they are declared.  Complaints
come in reading order: the fields as they stand in the value, then the missing
ones as they are declared.
-/
import Parterre.Json
import Parterre.Kind

namespace Parterre

/-- The outcome of reading a value. -/
abbrev Read (β : Type) : Type := Except ReadFault β

namespace Json

/-- A number; integers are converted. -/
def number : Json → Read Float
  | .integer value => .ok (Float.ofInt value)
  | .float value => .ok value
  | other => .error (.wrongType other.found .number)

/-- A natural number. -/
def natural : Json → Read Nat
  | .integer value =>
      if value < 0 then .error (.wrongValue (.integer value) .count)
      else .ok value.toNat
  | other => .error (.wrongType other.found .count)

/-- A natural number, or null for none. -/
def natural? : Json → Read (Option Nat)
  | .null => .ok none
  | other => other.natural.map some

def flag : Json → Read Bool
  | .boolean value => .ok value
  | other => .error (.wrongType other.found .boolean)

/-- An array with every element read. -/
def listOf {β : Type} (read : Json → Read β) : Json → Read (List β)
  | .array elements => elements.mapM read
  | other => .error (.wrongType other.found .sequence)

/-- The kind of the given name. -/
def kindOfName {κ : Type} [RegionKind κ] (text : String) : Read κ :=
  match (RegionKind.all : List κ).find? fun kind => RegionKind.name kind == text with
  | some kind => .ok kind
  | none =>
      .error (.unknownVariant text ((RegionKind.all : List κ).map RegionKind.name))

/-- A kind: its name, or an object with its name and nothing behind it. -/
def kind {κ : Type} [RegionKind κ] : Json → Read κ
  | .string text => kindOfName text
  | .object [(text, inner)] =>
      match kindOfName text, inner with
      | .ok kind, .null => .ok kind
      | .ok _, other => .error (.wrongType other.found .unit)
      | .error fault, _ => .error fault
  | .object _ => .error .notOneKey
  | other => .error (.wrongType other.found .kind)

end Json

/-- A field of a record: its name, the value it has if it is left out, and the
faults of a value for it. -/
structure Field where
  name : String
  default? : Option Json
  check : Json → Read Unit

namespace Field

/-- A field that must be given. -/
def required {β : Type} (name : String) (read : Json → Read β) : Field :=
  ⟨name, none, fun value => (read value).map fun _ => ()⟩

/-- A field with a value for when it is left out. -/
def optional {β : Type} (name : String) (default : Json) (read : Json → Read β) :
    Field :=
  ⟨name, some default, fun value => (read value).map fun _ => ()⟩

end Field

/-- The values of the fields of a record. -/
structure Record where
  values : List (String × Json)

namespace Record

/-- Read the field of the given name. -/
def get {β : Type} (record : Record) (name : String) (read : Json → Read β) :
    Read β :=
  match record.values.lookup name with
  | some value => read value
  | none => .error (.missingField name)

/-- Check the fields of an object in the order of their keys. -/
def checkFields (fields : List Field) : List (String × Json) → Read Unit
  | [] => .ok ()
  | (key, value) :: rest =>
      match fields.find? fun field => field.name == key with
      | none => .error (.unknownField key (fields.map Field.name))
      | some field => do
          field.check value
          checkFields fields rest

/-- The fields of a record with the values of an object. -/
def complete (values : List (String × Json)) : List Field → Read (List (String × Json))
  | [] => .ok []
  | field :: rest =>
      match (values.lookup field.name).or field.default? with
      | none => .error (.missingField field.name)
      | some value => do
          let others ← complete values rest
          return (field.name, value) :: others

/-- The fields of a record with the elements of an array from the given
position on. -/
def align (name : String) (count position : Nat) :
    List Field → List Json → Read (List (String × Json))
  | [], _ => .ok []
  | field :: rest, value :: others => do
      field.check value
      let aligned ← align name count (position + 1) rest others
      return (field.name, value) :: aligned
  | field :: rest, [] =>
      match field.default? with
      | none => .error (.tooFewElements position name count)
      | some value => do
          let aligned ← align name count (position + 1) rest []
          return (field.name, value) :: aligned

/-- Read a record. -/
def ofJson (name : String) (fields : List Field) : Json → Read Record
  | .object values => do
      checkFields fields values
      let values ← complete values fields
      return ⟨values⟩
  | .array elements => do
      let values ← align name fields.length 0 fields elements
      if fields.length < elements.length then
        .error (.tooManyElements elements.length)
      else return ⟨values⟩
  | other => .error (.wrongType other.found (.fields name))

end Record

end Parterre
