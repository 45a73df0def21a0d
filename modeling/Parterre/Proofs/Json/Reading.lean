/-
What records are read from.  A record is only read if it has known fields and all of
them can be read, and a field that is given is read from what it is given.
-/
import Mathlib.Data.List.Forall2
import Parterre.Proofs.Expansion
import Parterre.Proofs.Json.Shape

namespace Parterre

variable {β γ : Type}

theorem exists_of_mapM {read : Json → Read β} {values : List Json} {results : List β}
    (h : values.mapM read = .ok results) {value : Json} (hvalue : value ∈ values) :
    ∃ result, read value = .ok result := by
  induction values generalizing results with
  | nil => cases hvalue
  | cons first rest ih =>
      rw [List.mapM_cons] at h
      obtain ⟨result, hresult, h⟩ := bind_eq_ok_iff.mp h
      obtain ⟨others, hothers, _⟩ := bind_eq_ok_iff.mp h
      rcases List.mem_cons.mp hvalue with rfl | hrest
      · exact ⟨result, hresult⟩
      · exact ih hothers hrest

/-- Only values with known fields are read. -/
def Shape.Strict (shape : Shape) (read : Json → Read β) : Prop :=
  ∀ value result, read value = .ok result → shape.Knows value

namespace Shape

theorem strict_single (read : Json → Read β) : single.Strict read := by
  intro value result _ known fields hmeets
  cases hmeets

theorem Strict.listOf {entry : Shape} {read : Json → Read β} (h : entry.Strict read) :
    (list entry).Strict (Json.listOf read) := by
  intro value result hresult known fields hmeets
  cases hmeets with
  | element helement hmeets =>
      obtain ⟨element, hread⟩ := exists_of_mapM hresult helement
      exact h _ element hread known fields hmeets

end Shape

/-- A single value of a configuration: where it stands in documents, how it is read
there and where it is put. -/
structure Leaf (β : Type) where
  Value : Type
  path : List String
  read : Json → Read Value
  get : β → Value

namespace Leaf

/-- The configuration is a single value itself. -/
def whole (read : Json → Read β) : Leaf β :=
  ⟨β, [], read, id⟩

/-- A value of a part of the configuration. -/
def under (key : String) (part : β → γ) (leaf : Leaf γ) : Leaf β :=
  ⟨leaf.Value, key :: leaf.path, leaf.read, fun config => leaf.get (part config)⟩

/-- If the document has something at the end of the path, the value is read from it. -/
def HoldsIn (leaf : Leaf β) (document : Json) (config : β) : Prop :=
  ∀ found, document.at? leaf.path = some found → leaf.read found = .ok (leaf.get config)

end Leaf

/-- The reader is strict about the shape and reads the leaves where they stand, and
the leaves are all that it reads. -/
structure Reads (read : Json → Read β) (shape : Shape) (leaves : List (Leaf β)) : Prop where
  strict : shape.Strict read
  holds : ∀ document config, read document = .ok config →
    ∀ leaf ∈ leaves, leaf.HoldsIn document config
  complete : ∀ config other : β, (∀ leaf ∈ leaves, leaf.get config = leaf.get other) →
    config = other

theorem Reads.of_strict {read : Json → Read β} {shape : Shape} (h : shape.Strict read) :
    Reads read shape [.whole read] where
  strict := h
  holds := by
    intro document config hread leaf hleaf found hfound
    obtain rfl := List.mem_singleton.mp hleaf
    cases hfound
    exact hread
  complete := fun _ _ h => h _ List.mem_cons_self

/-- A field of a configuration with the values below it. -/
structure Part (β : Type) where
  Value : Type
  key : String
  read : Json → Read Value
  get : β → Value
  shape : Shape
  leaves : List (Leaf Value)
  reads : Reads read shape leaves

namespace Part

/-- A field that is a record or a list. -/
def of {read : Json → Read γ} {shape : Shape} {leaves : List (Leaf γ)}
    (reads : Reads read shape leaves) (key : String) (get : β → γ) : Part β :=
  ⟨γ, key, read, get, shape, leaves, reads⟩

def single (read : Json → Read γ) (key : String) (get : β → γ) : Part β :=
  of (.of_strict (Shape.strict_single read)) key get

/-- The faults of a value for the part. -/
def check (part : Part β) (value : Json) : Read Unit :=
  (part.read value).map fun _ => ()

/-- The shape of a record with the parts. -/
def record (parts : List (Part β)) : Shape :=
  .record (parts.map fun part => (part.key, part.shape))

/-- The values below all parts. -/
def values (parts : List (Part β)) : List (Leaf β) :=
  parts.flatMap fun part => part.leaves.map (.under part.key part.get)

end Part

/-- The field has the name and is strict about the shape. -/
structure Field.Fits (field : Field) (known : String × Shape) : Prop where
  name : field.name = known.1
  strict : known.2.Strict field.check

namespace Field

/-- A field that is checked as a part is read fits the shape of the part. -/
theorem fits_of_check {field : Field} {part : Part β} (hname : field.name = part.key)
    (hcheck : field.check = part.check) : field.Fits (part.key, part.shape) where
  name := hname
  strict := by
    intro value result hresult
    rw [hcheck, Part.check] at hresult
    cases hread : part.read value with
    | error fault =>
        rw [hread] at hresult
        cases hresult
    | ok found => exact part.reads.strict value found hread

/-- A field that is found by its name has the shape that is known by the name. -/
theorem exists_shape_of_find? {fields : List Field} {known : List (String × Shape)}
    (hfits : List.Forall₂ Fits fields known) {key : String} {field : Field}
    (h : fields.find? (fun field => field.name == key) = some field) :
    ∃ shape, known.lookup key = some shape ∧ shape.Strict field.check := by
  induction hfits with
  | nil => cases h
  | @cons first entry fields known hfirst _ ih =>
      obtain ⟨name, shape⟩ := entry
      have hname : first.name = name := hfirst.name
      rw [List.find?_cons] at h
      split at h
      · rename_i hsame
        cases h
        obtain rfl := hname.symm.trans (beq_iff_eq.mp hsame)
        exact ⟨shape, List.lookup_cons_self, hfirst.strict⟩
      · rename_i hother
        rw [hname] at hother
        rw [lookup_cons_of_ne (Ne.symm (ne_of_beq_false hother))]
        exact ih h

end Field

namespace Record

variable {name : String} {fields : List Field}

/-- A checked object has known fields that can be read. -/
theorem exists_field_of_check {values : List (String × Json)}
    (h : checkFields fields values = .ok ()) {key : String} {value : Json}
    (hvalue : (key, value) ∈ values) : ∃ field,
      fields.find? (fun field => field.name == key) = some field ∧ field.check value = .ok () := by
  induction values with
  | nil => cases hvalue
  | cons entry rest ih =>
      obtain ⟨other, given⟩ := entry
      rw [checkFields] at h
      split at h
      · cases h
      · rename_i field hfield
        obtain ⟨_, hcheck, hrest⟩ := bind_eq_ok_iff.mp h
        rcases List.mem_cons.mp hvalue with hsame | hmem
        · cases hsame
          exact ⟨field, hfield, hcheck⟩
        · exact ih hrest hmem

theorem of_ofJson_object {values : List (String × Json)} {record : Record}
    (h : ofJson name fields (.object values) = .ok record) :
    checkFields fields values = .ok () ∧ complete values fields = .ok record.values := by
  obtain ⟨_, hcheck, h⟩ := bind_eq_ok_iff.mp h
  obtain ⟨completed, hcomplete, h⟩ := bind_eq_ok_iff.mp h
  cases h
  exact ⟨hcheck, hcomplete⟩

/-- Records are strict about their fields. -/
theorem strict {known : List (String × Shape)} {read : Json → Read β}
    (hfits : List.Forall₂ Field.Fits fields known)
    (hread : ∀ value result, read value = .ok result →
      ∃ record, ofJson name fields value = .ok record) : (Shape.record known).Strict read := by
  intro value result hresult names found hmeets
  obtain ⟨record, hrecord⟩ := hread value result hresult
  cases hmeets with
  | here =>
      intro key hkey
      obtain ⟨child, hchild⟩ := mem_keys_iff.mp hkey
      obtain ⟨field, hfield, _⟩ :=
        exists_field_of_check (of_ofJson_object hrecord).1 (mem_of_lookup hchild)
      obtain ⟨shape, hshape, _⟩ := Field.exists_shape_of_find? hfits hfield
      exact mem_keys_iff.mpr ⟨shape, hshape⟩
  | @field _ _ _ _ key shape child hshape hchild hmeets =>
      obtain ⟨field, hfield, hcheck⟩ :=
        exists_field_of_check (of_ofJson_object hrecord).1 (mem_of_lookup hchild)
      obtain ⟨other, hother, hstrict⟩ := Field.exists_shape_of_find? hfits hfield
      rw [hshape] at hother
      cases hother
      exact hstrict child () hcheck names found hmeets

/-- A completed record has what was given. -/
theorem eq_of_complete {values completed : List (String × Json)}
    (h : complete values fields = .ok completed) {key : String} {given kept : Json}
    (hgiven : values.lookup key = some given) (hkept : completed.lookup key = some kept) :
    kept = given := by
  induction fields generalizing completed with
  | nil =>
      cases h
      cases hkept
  | cons field rest ih =>
      rw [complete] at h
      split at h
      · cases h
      · rename_i value hvalue
        obtain ⟨others, hothers, h⟩ := bind_eq_ok_iff.mp h
        cases h
        by_cases hsame : key = field.name
        · subst hsame
          rw [hgiven, Option.some_or, Option.some.injEq] at hvalue
          rw [List.lookup_cons_self, Option.some.injEq] at hkept
          rw [← hkept, hvalue]
        · rw [lookup_cons_of_ne hsame] at hkept
          exact ih hothers hkept

/-- A field is read from what it is given. -/
theorem read_of_get {values : List (String × Json)} {record : Record}
    (h : ofJson name fields (.object values) = .ok record) {key : String} {read : Json → Read γ}
    {result : γ} (hget : record.get key read = .ok result) {value : Json}
    (hvalue : values.lookup key = some value) : read value = .ok result := by
  rw [get] at hget
  split at hget
  · rename_i kept hkept
    obtain rfl := eq_of_complete (of_ofJson_object h).2 hvalue hkept
    exact hget
  · cases hget

end Record

/-- A record is read as its parts say, if its fields are read so. -/
theorem Reads.of_parts {name : String} {fields : List Field} {parts : List (Part β)}
    {read : Json → Read β}
    (hread : ∀ document config, read document = .ok config →
      ∃ record, Record.ofJson name fields document = .ok record ∧
        ∀ part ∈ parts, record.get part.key part.read = .ok (part.get config))
    (hfields : (fields.map fun field => (field.name, field.check)) =
      parts.map fun part => (part.key, part.check))
    (hcomplete : ∀ config other : β, (∀ part ∈ parts, part.get config = part.get other) →
      config = other) :
    Reads read (Part.record parts) (Part.values parts) where
  strict := by
    rw [← List.forall₂_eq_eq_eq, List.forall₂_map_left_iff, List.forall₂_map_right_iff] at hfields
    have hfits : List.Forall₂ Field.Fits fields (parts.map fun part => (part.key, part.shape)) := by
      apply List.forall₂_map_right_iff.mpr
      apply hfields.imp
      intro field part hsame
      obtain ⟨hname, hcheck⟩ := Prod.mk.inj hsame
      exact Field.fits_of_check hname hcheck
    apply Record.strict hfits
    intro document config h
    obtain ⟨record, hrecord, _⟩ := hread document config h
    exact ⟨record, hrecord⟩
  holds := by
    intro document config h leaf hleaf found hfound
    obtain ⟨record, hrecord, hparts⟩ := hread document config h
    obtain ⟨part, hpart, hleaf⟩ := List.mem_flatMap.mp hleaf
    obtain ⟨inner, hinner, rfl⟩ := List.mem_map.mp hleaf
    obtain ⟨values, child, rfl, hchild, hrest⟩ := Json.exists_lookup_of_at? hfound
    have hvalue := Record.read_of_get hrecord (hparts part hpart) hchild
    exact part.reads.holds child _ hvalue inner hinner found hrest
  complete := by
    intro config other h
    apply hcomplete
    intro part hpart
    apply part.reads.complete
    intro inner hinner
    exact h _ (List.mem_flatMap.mpr ⟨part, hpart, List.mem_map_of_mem hinner⟩)

end Parterre
