/-
Values that are read from texts.  The fields of an object are put in their places as
they are read, so the keys of all objects are in order.
-/
import Parterre.Json.Parse
import Parterre.Proofs.Json.Merge

namespace Parterre.Json

theorem isObject_of_value? {number : NumberText} {value : Json}
    (h : number.value? = some value) : value.isObject = false := by
  simp only [NumberText.value?] at h
  split at h
  · cases h
    rfl
  · obtain ⟨float, _, hvalue⟩ := Option.bind_eq_some_iff.mp h
    cases hvalue
    rfl

theorem isObject_of_readNumber {negative : Bool} {input rest : List Char} {value : Json}
    (h : readNumber negative input = some (value, rest)) : value.isObject = false := by
  simp only [readNumber, Option.bind_eq_bind, Option.bind_eq_some_iff] at h
  obtain ⟨_, _, _, _, _, _, number, hnumber, hvalue⟩ := h
  cases hvalue
  exact isObject_of_value? hnumber

theorem isObject_of_readElements {calls levels : Nat} {read : List Json}
    {input rest : List Char} {value : Json}
    (h : readElements calls levels read input = some (value, rest)) : value.isObject = false := by
  induction calls generalizing read input with
  | zero => cases h
  | succ calls ih =>
      rw [readElements] at h
      obtain ⟨⟨element, left⟩, _, h⟩ := Option.bind_eq_some_iff.mp h
      dsimp only at h
      split at h
      · exact ih h
      · cases h
        rfl
      · cases h

/-- Values are tidy, and so is an object whose fields so far are. -/
theorem tidy_of_read (calls : Nat) :
    (∀ {levels : Nat} {input rest : List Char} {value : Json},
      readValue calls levels input = some (value, rest) → value.Tidy) ∧
    ∀ {levels : Nat} {read : List (String × Json)} {input rest : List Char} {value : Json},
      Ascending read → (∀ field ∈ read, field.2.Tidy) →
      readFields calls levels read input = some (value, rest) → value.Tidy := by
  induction calls with
  | zero =>
      refine ⟨fun h => ?_, fun _ _ h => ?_⟩ <;> cases h
  | succ calls ih =>
      obtain ⟨hvalues, hfields⟩ := ih
      constructor
      · intro levels input rest value h
        rw [readValue] at h
        split at h
        case h_1 | h_2 | h_3 =>
          -- the words for null and for truth values
          cases h
          exact .of_not_object rfl
        case h_4 =>
          -- a string
          obtain ⟨⟨text, left⟩, _, h⟩ := Option.bind_eq_some_iff.mp h
          cases h
          exact .of_not_object rfl
        case h_5 =>
          -- an array, whose elements no path of keys leads to
          apply Tidy.of_not_object
          split at h
          · cases h
          · split at h
            · cases h
              rfl
            · exact isObject_of_readElements h
        case h_6 =>
          -- an object
          split at h
          · cases h
          · split at h
            · cases h
              exact .of_fields List.Pairwise.nil fun _ hfield => by cases hfield
            · exact hfields List.Pairwise.nil (fun _ hfield => by cases hfield) h
        case h_7 | h_8 => exact .of_not_object (isObject_of_readNumber h)
      · intro levels read input rest value hkeys hread h
        rw [readFields] at h
        split at h
        · obtain ⟨⟨key, left⟩, _, h⟩ := Option.bind_eq_some_iff.mp h
          dsimp only at h
          split at h
          · obtain ⟨⟨child, later⟩, hchild, h⟩ := Option.bind_eq_some_iff.mp h
            have hkept : Ascending (insertField key child read) := ascending_insertField hkeys
            have htidy : ∀ field ∈ insertField key child read, field.2.Tidy := by
              intro field hfield
              rcases mem_updateEntry hfield with ⟨_, rfl⟩ | hmem
              · exact hvalues hchild
              · exact hread field hmem
            dsimp only at h
            split at h
            · exact hfields hkept htidy h
            · cases h
              exact .of_fields hkept htidy
            · cases h
          · cases h
        · cases h

/-- The value of a text is tidy. -/
theorem tidy_of_parse? {text : String} {value : Json} (h : parse? text = some value) :
    value.Tidy := by
  simp only [parse?, Option.bind_eq_bind, Option.bind_eq_some_iff] at h
  obtain ⟨⟨read, rest⟩, hread, h⟩ := h
  dsimp only at h
  split at h
  · cases h
    exact (tidy_of_read _).1 hread
  · cases h

end Parterre.Json
