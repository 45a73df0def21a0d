/-
Laying one value over another.  A value on top is found at the end of its path
afterwards, and where the top says nothing the value below is found.  The keys on
top must differ for that, as those of a text do: the fields of objects are merged
one after the other.
-/
import Parterre.Json
import Parterre.Proofs.Lookup

namespace Parterre

namespace Json

/-- The value at the end of a path of keys. -/
def at? : List String → Json → Option Json
  | [], value => some value
  | key :: path, .object fields => (fields.lookup key).bind (at? path)
  | _ :: _, _ => none

theorem exists_lookup_of_at? {key : String} {path : List String} {value found : Json}
    (h : value.at? (key :: path) = some found) :
    ∃ fields child, value = .object fields ∧ fields.lookup key = some child ∧
      child.at? path = some found := by
  cases value with
  | object fields =>
      obtain ⟨child, hchild, hfound⟩ := Option.bind_eq_some_iff.mp h
      exact ⟨fields, child, rfl, hchild, hfound⟩
  | _ => cases h

theorem at?_of_lookup {fields : List (String × Json)} {key : String} {child : Json}
    (h : fields.lookup key = some child) (path : List String) :
    (Json.object fields).at? (key :: path) = child.at? path := by
  rw [at?, h, Option.bind_some]

/-- The keys are in ascending order, and no key is there twice. -/
def Ascending (fields : List (String × Json)) : Prop :=
  fields.Pairwise fun first second => first.1 < second.1

/-- The objects that paths of keys lead to have their keys in order. -/
def Tidy (value : Json) : Prop :=
  ∀ path fields, value.at? path = some (.object fields) → Ascending fields

namespace Tidy

theorem of_not_object {value : Json} (h : value.isObject = false) : value.Tidy := by
  intro path fields hfields
  cases path with
  | nil =>
      cases hfields
      cases h
  | cons key path =>
      obtain ⟨_, _, rfl, _⟩ := exists_lookup_of_at? hfields
      cases h

theorem of_fields {fields : List (String × Json)} (hkeys : Ascending fields)
    (hvalues : ∀ field ∈ fields, field.2.Tidy) : (Json.object fields).Tidy := by
  intro path found hfound
  cases path with
  | nil =>
      cases hfound
      exact hkeys
  | cons key path =>
      obtain ⟨_, child, hsame, hchild, hrest⟩ := exists_lookup_of_at? hfound
      cases hsame
      exact hvalues _ (mem_of_lookup hchild) path found hrest

variable {fields : List (String × Json)}

theorem ascending (h : (Json.object fields).Tidy) : Ascending fields :=
  h [] fields rfl

theorem of_lookup (h : (Json.object fields).Tidy) {key : String} {value : Json}
    (hvalue : fields.lookup key = some value) : value.Tidy := by
  intro path found hfound
  apply h (key :: path) found
  rwa [at?_of_lookup hvalue]

end Tidy

theorem lookup_insertField_self (key : String) (value : Json) (fields : List (String × Json)) :
    (insertField key value fields).lookup key = some value := by
  obtain ⟨_, hvalue, _⟩ := exists_lookup_updateEntry key (fun _ => value) fields
  exact hvalue

theorem lookup_insertField_of_ne {key name : String} (h : name ≠ key) (value : Json)
    (fields : List (String × Json)) :
    (insertField key value fields).lookup name = fields.lookup name :=
  lookup_updateEntry_of_ne h _ fields

theorem ascending_insertField {key : String} {value : Json} {fields : List (String × Json)}
    (h : Ascending fields) : Ascending (insertField key value fields) :=
  ascending_updateEntry h

@[simp]
theorem null_merge (top : Json) : Json.null.merge top = top := by
  cases top <;> rfl

/-- A field is laid over what is there, which may be nothing. -/
theorem mergeFields_cons (base rest : List (String × Json)) (key : String) (value : Json) :
    mergeFields base ((key, value) :: rest) =
      mergeFields (insertField key (((base.lookup key).getD .null).merge value) base) rest := by
  rw [mergeFields]
  cases base.lookup key with
  | none => rw [Option.getD_none, null_merge]
  | some under => rfl

/-- A field that the top does not have stays. -/
theorem lookup_mergeFields_of_none {base top : List (String × Json)} (htop : Ascending top)
    {key : String} (h : top.lookup key = none) :
    (mergeFields base top).lookup key = base.lookup key := by
  induction top generalizing base with
  | nil => rfl
  | cons field rest ih =>
      obtain ⟨name, given⟩ := field
      by_cases hsame : key = name
      · subst hsame
        rw [List.lookup_cons_self] at h
        cases h
      · rw [lookup_cons_of_ne hsame] at h
        rw [mergeFields_cons, ih (List.pairwise_cons.mp htop).2 h, lookup_insertField_of_ne hsame]

theorem merge_of_not_object {base top : Json} (h : base.isObject = false) :
    base.merge top = top := by
  cases base with
  | object fields => cases h
  | _ => cases top <;> rfl

theorem isObject_of_null_at? {path : List String} {value : Json}
    (h : Json.null.at? path = some value) : value.isObject = false := by
  cases path with
  | nil =>
      cases h
      rfl
  | cons key path => cases h

/-- A field of the top is laid over the one below. -/
theorem lookup_mergeFields_of_some {base top : List (String × Json)} (htop : Ascending top)
    {key : String} {value : Json} (h : top.lookup key = some value) :
    (mergeFields base top).lookup key = some (((base.lookup key).getD .null).merge value) := by
  induction top generalizing base with
  | nil => cases h
  | cons field rest ih =>
      obtain ⟨name, given⟩ := field
      obtain ⟨hfirst, hrest⟩ := List.pairwise_cons.mp htop
      rw [mergeFields_cons]
      by_cases hsame : key = name
      · subst hsame
        rw [List.lookup_cons_self, Option.some.injEq] at h
        subst h
        rw [lookup_mergeFields_of_none hrest (lookup_eq_none_of_lt hfirst),
          lookup_insertField_self]
      · rw [lookup_cons_of_ne hsame] at h
        rw [ih hrest h, lookup_insertField_of_ne hsame]

/-- What the top has at the end of a path is there afterwards, if there was no object
to merge it with. -/
theorem at?_merge_of_some {base top value : Json} {path : List String} (htop : top.Tidy)
    (hbase : ∀ under, base.at? path = some under → under.isObject = false)
    (h : top.at? path = some value) : (base.merge top).at? path = some value := by
  induction path generalizing base top with
  | nil =>
      cases h
      rw [merge_of_not_object (hbase base rfl)]
      rfl
  | cons key path ih =>
      obtain ⟨fields, child, rfl, hchild, hrest⟩ := exists_lookup_of_at? h
      cases base with
      | object others =>
          rw [merge, at?_of_lookup (lookup_mergeFields_of_some htop.ascending hchild)]
          apply ih (htop.of_lookup hchild) _ hrest
          intro under hunder
          cases hother : others.lookup key with
          | none =>
              rw [hother] at hunder
              exact isObject_of_null_at? hunder
          | some other =>
              rw [hother] at hunder
              apply hbase under
              rwa [at?_of_lookup hother]
      | _ =>
          rw [merge_of_not_object rfl]
          exact h

/-- The value says nothing about the end of the path: there is nothing, and nothing
but objects on the way. -/
def Silent (value : Json) (path : List String) : Prop :=
  value.at? path = none ∧
    ∀ front found, front <+: path → value.at? front = some found → found.isObject = true

theorem Silent.of_lookup {fields : List (String × Json)} {key : String} {path : List String}
    (h : (Json.object fields).Silent (key :: path)) {child : Json}
    (hchild : fields.lookup key = some child) : child.Silent path := by
  obtain ⟨hnone, hobjects⟩ := h
  rw [at?_of_lookup hchild] at hnone
  refine ⟨hnone, fun front found hfront hfound => ?_⟩
  apply hobjects (key :: front) found (List.cons_prefix_cons.mpr ⟨rfl, hfront⟩)
  rwa [at?_of_lookup hchild]

/-- Where the top says nothing, what was there is still there. -/
theorem at?_merge_of_silent {base top value : Json} {path : List String} (htop : top.Tidy)
    (hsilent : top.Silent path) (h : base.at? path = some value) :
    (base.merge top).at? path = some value := by
  induction path generalizing base top with
  | nil => cases hsilent.1
  | cons key path ih =>
      obtain ⟨others, other, rfl, hother, hrest⟩ := exists_lookup_of_at? h
      have hobject := hsilent.2 [] top List.nil_prefix rfl
      cases top with
      | object fields =>
          cases hchild : fields.lookup key with
          | none =>
              rw [merge, at?_of_lookup
                ((lookup_mergeFields_of_none htop.ascending hchild).trans hother)]
              exact hrest
          | some child =>
              have hmerged : (mergeFields others fields).lookup key = some (other.merge child) := by
                rw [lookup_mergeFields_of_some htop.ascending hchild, hother, Option.getD_some]
              rw [merge, at?_of_lookup hmerged]
              exact ih (htop.of_lookup hchild) (hsilent.of_lookup hchild) hrest
      | _ => cases hobject

end Json

end Parterre
