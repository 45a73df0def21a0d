/-
How configurations are laid out.  A shape says where records stand and which fields
they have, and a reader is strict about a shape if it accepts no other fields, in
records at any depth.
-/
import Parterre.Proofs.Json.Merge
import Parterre.Json.Record

namespace Parterre

/-- Single values, records with named fields, and lists. -/
inductive Shape where
  | single
  | record (known : List (String × Shape))
  | list (entry : Shape)

namespace Shape

/-- An object with the given fields stands in the value where the shape has a record
with the known ones. -/
inductive Meets : Shape → Json → List (String × Shape) → List (String × Json) → Prop
  | here {known : List (String × Shape)} {fields : List (String × Json)} :
      Meets (.record known) (.object fields) known fields
  | field {known names : List (String × Shape)} {fields found : List (String × Json)}
      {key : String} {shape : Shape} {value : Json} (hshape : known.lookup key = some shape)
      (hvalue : fields.lookup key = some value) (hmeets : Meets shape value names found) :
      Meets (.record known) (.object fields) names found
  | element {entry : Shape} {elements : List Json} {names : List (String × Shape)}
      {found : List (String × Json)} {value : Json} (hvalue : value ∈ elements)
      (hmeets : Meets entry value names found) :
      Meets (.list entry) (.array elements) names found

/-- The objects of the value that stand where the shape has records have known fields
only. -/
def Knows (shape : Shape) (value : Json) : Prop :=
  ∀ known fields, shape.Meets value known fields →
    ∀ key ∈ fields.map Prod.fst, key ∈ known.map Prod.fst

/-- What is laid on top is met in the merged value, among other fields. -/
theorem Meets.merge {shape : Shape} {top : Json} {known : List (String × Shape)}
    {fields : List (String × Json)} (h : shape.Meets top known fields) (htop : top.Tidy)
    (base : Json) : ∃ merged, shape.Meets (base.merge top) known merged ∧
      ∀ key ∈ fields.map Prod.fst, key ∈ merged.map Prod.fst := by
  induction h generalizing base with
  | @here known fields =>
      cases base with
      | object others =>
          refine ⟨Json.mergeFields others fields, .here, fun key hkey => ?_⟩
          obtain ⟨value, hvalue⟩ := mem_keys_iff.mp hkey
          exact mem_keys_iff.mpr
            ⟨_, Json.lookup_mergeFields_of_some htop.ascending hvalue⟩
      | _ => exact ⟨fields, .here, fun _ hkey => hkey⟩
  | @field known names fields found key shape value hshape hvalue hmeets ih =>
      cases base with
      | object others =>
          obtain ⟨merged, hmerged, hkeys⟩ :=
            ih (htop.of_lookup hvalue) ((others.lookup key).getD .null)
          refine ⟨merged, .field hshape ?_ hmerged, hkeys⟩
          exact Json.lookup_mergeFields_of_some htop.ascending hvalue
      | _ => exact ⟨found, .field hshape hvalue hmeets, fun _ hkey => hkey⟩
  | @element entry elements names found value hvalue hmeets ih =>
      refine ⟨found, ?_, fun _ hkey => hkey⟩
      cases base <;> exact .element hvalue hmeets

/-- Merging hides no unknown field. -/
theorem Knows.of_merge {shape : Shape} {base top : Json} (h : shape.Knows (base.merge top))
    (htop : top.Tidy) : shape.Knows top := by
  intro known fields hmeets key hkey
  obtain ⟨merged, hmerged, hkeys⟩ := hmeets.merge htop base
  exact h known merged hmerged key (hkeys key hkey)

end Shape

end Parterre
