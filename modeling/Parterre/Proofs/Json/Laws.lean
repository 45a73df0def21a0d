/-
Laws of merging.  An object that is laid over another one adds its keys, and a key of
both has the one value laid over the other.  So laying a value on top once more changes
nothing, and two values that only have objects in common can be laid on top in either
order.
-/
import Mathlib
import Parterre.Proofs.Json.Parsed

namespace Parterre.Json

/-- Induction from the values of the fields to an object. -/
@[elab_as_elim]
theorem induct {motive : Json → Prop}
    (single : ∀ value : Json, value.isObject = false → motive value)
    (object : ∀ fields : List (String × Json),
      (∀ field ∈ fields, motive field.2) → motive (.object fields))
    (value : Json) : motive value := by
  apply @Json.rec motive (fun _ => True) (fun fields => ∀ field ∈ fields, motive field.2)
    (fun field => motive field.2)
  · exact single _ rfl
  · exact fun _ => single _ rfl
  · exact fun _ => single _ rfl
  · exact fun _ => single _ rfl
  · exact fun _ => single _ rfl
  · exact fun _ _ => single _ rfl
  · exact object
  · trivial
  · exact fun _ _ _ _ => trivial
  · intro field hfield
    cases hfield
  · intro first rest hfirst hrest
    exact List.forall_mem_cons.mpr ⟨hfirst, hrest⟩
  · exact fun _ _ hvalue => hvalue

theorem exists_fields {value : Json} (h : value.isObject = true) :
    ∃ fields, value = .object fields := by
  cases value with
  | object fields => exact ⟨fields, rfl⟩
  | _ => cases h

/-- Unless there are two objects, the value on top is all that is left. -/
theorem merge_of_single {base top : Json} (h : base.isObject = false ∨ top.isObject = false) :
    base.merge top = top := by
  rcases h with hbase | htop
  · exact merge_of_not_object hbase
  · cases top with
    | object fields => cases htop
    | _ => cases base <;> rfl

/-- What stands under a key after merging: a value on top is laid over what is below it,
which may be nothing. -/
def laid (below : Option Json) : Option Json → Option Json
  | none => below
  | some value => some ((below.getD .null).merge value)

theorem lookup_mergeFields {top : List (String × Json)} (htop : Ascending top)
    (base : List (String × Json)) (key : String) :
    (mergeFields base top).lookup key = laid (base.lookup key) (top.lookup key) := by
  cases hvalue : top.lookup key with
  | none => exact lookup_mergeFields_of_none htop hvalue
  | some value => exact lookup_mergeFields_of_some htop hvalue

theorem ascending_mergeFields {base : List (String × Json)} (h : Ascending base)
    (top : List (String × Json)) : Ascending (mergeFields base top) := by
  induction top generalizing base with
  | nil => exact h
  | cons field rest ih =>
      obtain ⟨key, value⟩ := field
      rw [mergeFields_cons]
      exact ih (ascending_insertField h)

namespace Tidy

theorem null : Json.null.Tidy :=
  .of_not_object rfl

theorem empty : (object []).Tidy :=
  .of_fields .nil fun _ hfield => by cases hfield

theorem getD {fields : List (String × Json)} (h : (object fields).Tidy) (key : String) :
    ((fields.lookup key).getD .null).Tidy := by
  cases hvalue : fields.lookup key with
  | none => exact null
  | some value => exact h.of_lookup hvalue

/-- What is merged of tidy values is tidy. -/
theorem merge {base top : Json} (hbase : base.Tidy) (htop : top.Tidy) :
    (base.merge top).Tidy := by
  induction top using Json.induct generalizing base with
  | single top hsingle => rwa [merge_of_single (Or.inr hsingle)]
  | object fields ih =>
      cases hobject : base.isObject with
      | false => rwa [merge_of_single (Or.inl hobject)]
      | true =>
          obtain ⟨others, rfl⟩ := exists_fields hobject
          have hkeys := ascending_mergeFields hbase.ascending fields
          refine .of_fields hkeys ?_
          rintro ⟨key, value⟩ hfield
          have hvalue := (lookup_eq_some_iff_of_nodup (nodup_keys_of_ascending hkeys)).mpr hfield
          rw [lookup_mergeFields htop.ascending] at hvalue
          cases hgiven : fields.lookup key with
          | none =>
              rw [hgiven] at hvalue
              exact hbase.of_lookup hvalue
          | some given =>
              rw [hgiven] at hvalue
              cases hvalue
              exact ih _ (mem_of_lookup hgiven) (hbase.getD key) (htop.of_lookup hgiven)

end Tidy

/-- Merged objects are the same if the same values are laid under all keys. -/
theorem merge_eq_object {base top fields : List (String × Json)} (hbase : Ascending base)
    (htop : Ascending top) (hfields : Ascending fields)
    (h : ∀ key, laid (base.lookup key) (top.lookup key) = fields.lookup key) :
    (object base).merge (object top) = object fields := by
  rw [merge]
  congr 1
  apply eq_of_lookup_of_ascending (ascending_mergeFields hbase top) hfields
  intro key
  rw [lookup_mergeFields htop, h]

theorem empty_merge {top : Json} (htop : top.Tidy) : (object []).merge top = top := by
  cases hobject : top.isObject with
  | false => exact merge_of_single (Or.inr hobject)
  | true =>
      obtain ⟨fields, rfl⟩ := exists_fields hobject
      apply merge_eq_object .nil htop.ascending htop.ascending
      intro key
      rw [List.lookup_nil]
      cases fields.lookup key with
      | none => rfl
      | some value => rw [laid, Option.getD_none, null_merge]

/-- A value under which anything is laid acts as an object: one that is no object acts as
the empty one. -/
theorem exists_object_below {base : Json} (hbase : base.Tidy) :
    ∃ fields, (object fields).Tidy ∧
      ∀ top, top.Tidy → base.merge top = (object fields).merge top := by
  cases hobject : base.isObject with
  | false =>
      refine ⟨[], .empty, fun top htop => ?_⟩
      rw [merge_of_single (Or.inl hobject), empty_merge htop]
  | true =>
      obtain ⟨fields, rfl⟩ := exists_fields hobject
      exact ⟨fields, hbase, fun _ _ => rfl⟩

/-- Laying a value on top once more changes nothing. -/
theorem merge_merge_self {base top : Json} (hbase : base.Tidy) (htop : top.Tidy) :
    (base.merge top).merge top = base.merge top := by
  induction top using Json.induct generalizing base with
  | single top hsingle => rw [merge_of_single (Or.inr hsingle), merge_of_single (Or.inr hsingle)]
  | object fields ih =>
      obtain ⟨others, hothers, hacts⟩ := exists_object_below hbase
      rw [hacts _ htop, merge]
      have hmerged := ascending_mergeFields hothers.ascending fields
      apply merge_eq_object hmerged htop.ascending hmerged
      intro key
      rw [lookup_mergeFields htop.ascending]
      cases hvalue : fields.lookup key with
      | none => rfl
      | some value =>
          rw [laid, laid, Option.getD_some]
          exact congrArg some
            (ih _ (mem_of_lookup hvalue) (hothers.getD key) (htop.of_lookup hvalue))

/-- A value laid over itself stays as it is. -/
theorem merge_self {value : Json} (h : value.Tidy) : value.merge value = value := by
  have hnull := merge_merge_self .null h
  rwa [null_merge] at hnull

/-- Where both values have something at the end of a path, both have an object there. -/
def Compatible (first second : Json) : Prop :=
  ∀ path one other, first.at? path = some one → second.at? path = some other →
    one.isObject = true ∧ other.isObject = true

theorem Compatible.of_lookup {fields others : List (String × Json)}
    (h : (object fields).Compatible (object others)) {key : String} {one other : Json}
    (hone : fields.lookup key = some one) (hother : others.lookup key = some other) :
    one.Compatible other := by
  intro path first second hfirst hsecond
  rw [← at?_of_lookup hone] at hfirst
  rw [← at?_of_lookup hother] at hsecond
  exact h (key :: path) first second hfirst hsecond

/-- Objects are compatible if what they have under the same keys is. -/
theorem compatible_of_lookup {fields others : List (String × Json)}
    (h : ∀ key one other, fields.lookup key = some one → others.lookup key = some other →
      one.Compatible other) : (object fields).Compatible (object others) := by
  intro path first second hfirst hsecond
  cases path with
  | nil =>
      cases hfirst
      cases hsecond
      exact ⟨rfl, rfl⟩
  | cons key path =>
      obtain ⟨_, one, hsame, hone, hfound⟩ := exists_lookup_of_at? hfirst
      obtain ⟨_, other, hsame', hother, hfound'⟩ := exists_lookup_of_at? hsecond
      cases hsame
      cases hsame'
      exact h key one other hone hother path first second hfound hfound'

/-- Compatible values are laid on top in either order. -/
theorem merge_right_comm {base first second : Json} (hbase : base.Tidy) (hfirst : first.Tidy)
    (hsecond : second.Tidy) (h : first.Compatible second) :
    (base.merge first).merge second = (base.merge second).merge first := by
  induction first using Json.induct generalizing base second with
  | single first hsingle =>
      have hobject := (h [] first second rfl rfl).1
      rw [hsingle] at hobject
      cases hobject
  | object fields ih =>
      obtain ⟨others, rfl⟩ := exists_fields (h [] _ second rfl rfl).2
      obtain ⟨under, hunder, hacts⟩ := exists_object_below hbase
      rw [hacts _ hfirst, hacts _ hsecond, merge, merge, merge]
      have hmerged := ascending_mergeFields hunder.ascending
      apply merge_eq_object (hmerged fields) hsecond.ascending
        (ascending_mergeFields (hmerged others) fields)
      intro key
      rw [lookup_mergeFields hfirst.ascending, lookup_mergeFields hfirst.ascending,
        lookup_mergeFields hsecond.ascending]
      cases hone : fields.lookup key with
      | none => cases others.lookup key <;> rfl
      | some one =>
          cases hother : others.lookup key with
          | none => rfl
          | some other =>
              rw [laid, laid, laid, laid, Option.getD_some, Option.getD_some]
              exact congrArg some (ih _ (mem_of_lookup hone) (hunder.getD key)
                (hfirst.of_lookup hone) (hsecond.of_lookup hother) (h.of_lookup hone hother))

/-- Values that are read from texts are tidy, and so is what is merged of tidy values.  An
object laid over another one has the keys of either, with the one value laid over the
other under a key of both, and in all other cases the value on top is left.  Laying it on
top twice is laying it on top once, a value over itself stays as it is, and compatible
values are laid on top in either order. -/
theorem merge_laws :
    (∀ text value, parse? text = some value → value.Tidy) ∧
    (∀ base top : Json, base.Tidy → top.Tidy → (base.merge top).Tidy) ∧
    (∀ base top : List (String × Json), (object base).Tidy → (object top).Tidy →
      ∃ fields, (object base).merge (object top) = object fields ∧
        (∀ key, key ∈ fields.map Prod.fst ↔
          key ∈ base.map Prod.fst ∨ key ∈ top.map Prod.fst) ∧
        ∀ key,
          (∀ below above, base.lookup key = some below → top.lookup key = some above →
            fields.lookup key = some (below.merge above)) ∧
          (base.lookup key = none → fields.lookup key = top.lookup key) ∧
          (top.lookup key = none → fields.lookup key = base.lookup key)) ∧
    (∀ base top : Json, base.isObject = false ∨ top.isObject = false → base.merge top = top) ∧
    (∀ base top : Json, base.Tidy → top.Tidy → (base.merge top).merge top = base.merge top) ∧
    (∀ value : Json, value.Tidy → value.merge value = value) ∧
    ∀ base first second : Json, base.Tidy → first.Tidy → second.Tidy →
      first.Compatible second →
      (base.merge first).merge second = (base.merge second).merge first := by
  refine ⟨fun _ _ => tidy_of_parse?, fun _ _ => .merge, ?_, fun _ _ => merge_of_single,
    fun _ _ => merge_merge_self, fun _ => merge_self, fun _ _ _ => merge_right_comm⟩
  intro base top _ htop
  have hlookup := lookup_mergeFields htop.ascending base
  refine ⟨mergeFields base top, rfl, fun key => ?_, fun key => ⟨?_, ?_, ?_⟩⟩
  · rw [mem_keys_iff, mem_keys_iff, mem_keys_iff, hlookup]
    cases top.lookup key <;> simp [laid]
  · intro below above hbelow habove
    rw [hlookup, hbelow, habove, laid, Option.getD_some]
  · intro hnone
    rw [hlookup, hnone]
    cases top.lookup key with
    | none => rfl
    | some value => rw [laid, Option.getD_none, null_merge]
  · intro hnone
    rw [hlookup, hnone, laid]

/-- A margin for ponds and a size for their parcels, laid in either order over a document
that has both. -/
theorem merge_laws_pond :
    ∃ base margin size merged : Json,
      parse? "\x7b\"max_depth\":4,\"pond\":\x7b\"margin\":20,\"min_parcel_size\":150\x7d\x7d" =
        some base ∧
      parse? "\x7b\"pond\":\x7b\"margin\":15\x7d\x7d" = some margin ∧
      parse? "\x7b\"pond\":\x7b\"min_parcel_size\":90\x7d\x7d" = some size ∧
      parse? "\x7b\"max_depth\":4,\"pond\":\x7b\"margin\":15,\"min_parcel_size\":90\x7d\x7d" =
        some merged ∧
      (base.merge margin).merge size = merged ∧ (base.merge size).merge margin = merged ∧
      (base.merge margin).merge margin = base.merge margin := by
  have hbase : parse?
      "\x7b\"max_depth\":4,\"pond\":\x7b\"margin\":20,\"min_parcel_size\":150\x7d\x7d" =
      some (object [("max_depth", .integer 4),
        ("pond", object [("margin", .integer 20), ("min_parcel_size", .integer 150)])]) := by
    cbv
  have hmargin : parse? "\x7b\"pond\":\x7b\"margin\":15\x7d\x7d" =
      some (object [("pond", object [("margin", .integer 15)])]) := by
    cbv
  have hsize : parse? "\x7b\"pond\":\x7b\"min_parcel_size\":90\x7d\x7d" =
      some (object [("pond", object [("min_parcel_size", .integer 90)])]) := by
    cbv
  obtain ⟨htidy, _, _, _, htwice, _, hcomm⟩ := merge_laws
  have hcompatible : (object [("pond", object [("margin", .integer 15)])]).Compatible
      (object [("pond", object [("min_parcel_size", .integer 90)])]) := by
    apply compatible_of_lookup
    intro key one other hone hother
    obtain ⟨rfl, rfl⟩ := Prod.mk.inj (List.mem_singleton.mp (mem_of_lookup hone))
    obtain ⟨_, rfl⟩ := Prod.mk.inj (List.mem_singleton.mp (mem_of_lookup hother))
    -- below the ponds there is no key of both
    apply compatible_of_lookup
    intro key one other hone hother
    obtain ⟨rfl, _⟩ := Prod.mk.inj (List.mem_singleton.mp (mem_of_lookup hone))
    exact absurd (Prod.mk.inj (List.mem_singleton.mp (mem_of_lookup hother))).1 (by decide)
  refine ⟨_, _, _, _, hbase, hmargin, hsize, ?_, rfl, ?_, ?_⟩
  · cbv
  · exact (hcomm _ _ _ (htidy _ _ hbase) (htidy _ _ hmargin) (htidy _ _ hsize) hcompatible).symm
  · exact htwice _ _ (htidy _ _ hbase) (htidy _ _ hmargin)

end Parterre.Json
