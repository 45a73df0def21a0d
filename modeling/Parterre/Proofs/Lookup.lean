/-
Lists of keys with values.  If no key is there twice, the entry of a key is the one
that is looked up, in whatever order the entries are; and entries in ascending order of
their keys are determined by what is looked up.
-/
import Mathlib.Data.List.Sort
import Parterre.Entries

namespace Parterre

variable {κ β : Type}

theorem mem_of_lookup [BEq κ] [LawfulBEq κ] {entries : List (κ × β)} {key : κ} {value : β}
    (h : entries.lookup key = some value) : (key, value) ∈ entries := by
  obtain ⟨first, rest, rfl, _⟩ := List.lookup_eq_some_iff.mp h
  exact List.mem_append_right first List.mem_cons_self

theorem mem_keys_iff [BEq κ] [LawfulBEq κ] {entries : List (κ × β)} {key : κ} :
    key ∈ entries.map Prod.fst ↔ ∃ value, entries.lookup key = some value := by
  constructor
  · intro h
    apply Option.ne_none_iff_exists'.mp
    intro hnone
    obtain ⟨entry, hentry, rfl⟩ := List.mem_map.mp h
    simpa using List.lookup_eq_none_iff.mp hnone entry hentry
  · rintro ⟨value, hvalue⟩
    exact List.mem_map_of_mem (mem_of_lookup hvalue)

theorem lookup_cons_of_ne [BEq κ] [LawfulBEq κ] {key name : κ} {value : β}
    {rest : List (κ × β)} (h : key ≠ name) :
    List.lookup key ((name, value) :: rest) = rest.lookup key := by
  rw [List.lookup_cons, beq_false_of_ne h]

variable [DecidableEq κ] {entries other : List (κ × β)} {kind : κ} {value : β}

/-- If no kind has two entries, each entry is the one that is looked up. -/
theorem lookup_eq_some_iff_of_nodup (hnodup : (entries.map Prod.fst).Nodup) :
    entries.lookup kind = some value ↔ (kind, value) ∈ entries := by
  induction entries with
  | nil => simp
  | cons entry rest ih =>
      obtain ⟨hnew, hrest⟩ := List.nodup_cons.mp hnodup
      obtain ⟨first, given⟩ := entry
      rw [List.lookup_cons, List.mem_cons, Prod.mk.injEq]
      by_cases hkind : kind = first
      · subst hkind
        have hnone : (kind, value) ∉ rest := fun hmem =>
          hnew (List.mem_map.mpr ⟨(kind, value), hmem, rfl⟩)
        simp [hnone, eq_comm]
      · rw [beq_false_of_ne hkind]
        simp [hkind, ih hrest]

/-- The order of the entries does not matter. -/
theorem lookup_perm (h : entries.Perm other) (hnodup : (other.map Prod.fst).Nodup) :
    entries.lookup kind = other.lookup kind := by
  have hnodup' : (entries.map Prod.fst).Nodup := (h.map Prod.fst).nodup_iff.mpr hnodup
  ext value
  rw [lookup_eq_some_iff_of_nodup hnodup', lookup_eq_some_iff_of_nodup hnodup, h.mem_iff]

theorem nodup_keys_of_ascending {entries : List (String × β)}
    (h : entries.Pairwise fun first second => first.1 < second.1) :
    (entries.map Prod.fst).Nodup :=
  List.pairwise_map.mpr (h.imp String.ne_of_lt)

/-- Entries in ascending order of their keys are determined by what is looked up. -/
theorem eq_of_lookup_of_ascending {entries other : List (String × β)}
    (h : entries.Pairwise fun first second => first.1 < second.1)
    (h' : other.Pairwise fun first second => first.1 < second.1)
    (hsame : ∀ key, entries.lookup key = other.lookup key) : entries = other := by
  have hirrefl : Std.Irrefl fun first second : String × β => first.1 < second.1 :=
    ⟨fun entry => String.lt_irrefl entry.1⟩
  have hantisymm : Std.Antisymm fun first second : String × β => first.1 < second.1 :=
    ⟨fun _ _ hless hgreater => absurd (String.lt_trans hless hgreater) (String.lt_irrefl _)⟩
  apply h.eq_of_mem_iff h'
  rintro ⟨key, value⟩
  rw [← lookup_eq_some_iff_of_nodup (nodup_keys_of_ascending h),
    ← lookup_eq_some_iff_of_nodup (nodup_keys_of_ascending h'), hsame]

theorem lookup_eq_none_of_lt {key : String} {entries : List (String × β)}
    (h : ∀ entry ∈ entries, key < entry.1) : entries.lookup key = none := by
  cases hfound : entries.lookup key with
  | none => rfl
  | some value => exact absurd (h _ (mem_of_lookup hfound)) (String.lt_irrefl key)

section

variable {key name : String} {change : Option β → β} {entries : List (String × β)}

/-- What stands under the key afterwards is a changed value, and in ascending entries
the change of what stood there before. -/
theorem exists_lookup_updateEntry (key : String) (change : Option β → β)
    (entries : List (String × β)) :
    ∃ kept, (updateEntry key change entries).lookup key = some (change kept) ∧
      ((entries.Pairwise fun first second => first.1 < second.1) →
        kept = entries.lookup key) := by
  induction entries with
  | nil => exact ⟨none, List.lookup_cons_self, fun _ => rfl⟩
  | cons entry rest ih =>
      obtain ⟨other, value⟩ := entry
      rw [updateEntry]
      by_cases hsame : key = other
      · subst hsame
        rw [if_pos rfl]
        exact ⟨some value, List.lookup_cons_self, fun _ => List.lookup_cons_self.symm⟩
      · rw [if_neg hsame]
        by_cases hless : key < other
        · rw [if_pos hless]
          refine ⟨none, List.lookup_cons_self, fun h => ?_⟩
          rw [lookup_cons_of_ne hsame, lookup_eq_none_of_lt fun entry hentry =>
            String.lt_trans hless ((List.pairwise_cons.mp h).1 entry hentry)]
        · rw [if_neg hless, lookup_cons_of_ne hsame, lookup_cons_of_ne hsame]
          obtain ⟨kept, hkept, hbefore⟩ := ih
          exact ⟨kept, hkept, fun h => hbefore (List.pairwise_cons.mp h).2⟩

theorem lookup_updateEntry_of_ne (h : name ≠ key) (change : Option β → β)
    (entries : List (String × β)) :
    (updateEntry key change entries).lookup name = entries.lookup name := by
  induction entries with
  | nil => exact lookup_cons_of_ne h
  | cons entry rest ih =>
      obtain ⟨other, kept⟩ := entry
      rw [updateEntry]
      by_cases hsame : key = other
      · subst hsame
        rw [if_pos rfl, lookup_cons_of_ne h, lookup_cons_of_ne h]
      · rw [if_neg hsame]
        by_cases hless : key < other
        · rw [if_pos hless, lookup_cons_of_ne h]
        · rw [if_neg hless, List.lookup_cons, List.lookup_cons, ih]

theorem mem_updateEntry {entry : String × β} (h : entry ∈ updateEntry key change entries) :
    (∃ kept, entry = (key, change kept)) ∨ entry ∈ entries := by
  induction entries with
  | nil => exact Or.inl ⟨none, List.mem_singleton.mp h⟩
  | cons first rest ih =>
      obtain ⟨other, value⟩ := first
      rw [updateEntry] at h
      split at h
      · exact (List.mem_cons.mp h).imp (fun hentry => ⟨some value, hentry⟩)
          (List.mem_cons_of_mem _)
      · split at h
        · exact (List.mem_cons.mp h).imp_left fun hentry => ⟨none, hentry⟩
        · rcases List.mem_cons.mp h with rfl | hrest
          · exact Or.inr List.mem_cons_self
          · exact (ih hrest).imp_right (List.mem_cons_of_mem _)

/-- An entry is put in its place. -/
theorem ascending_updateEntry (h : entries.Pairwise fun first second => first.1 < second.1) :
    (updateEntry key change entries).Pairwise fun first second => first.1 < second.1 := by
  induction entries with
  | nil => exact List.pairwise_singleton _ _
  | cons first rest ih =>
      obtain ⟨other, value⟩ := first
      obtain ⟨hfirst, hrest⟩ := List.pairwise_cons.mp h
      rw [updateEntry]
      by_cases hsame : key = other
      · subst hsame
        rw [if_pos rfl]
        exact List.pairwise_cons.mpr ⟨hfirst, hrest⟩
      · rw [if_neg hsame]
        by_cases hless : key < other
        · rw [if_pos hless]
          refine List.pairwise_cons.mpr ⟨fun entry hentry => ?_, h⟩
          rcases List.mem_cons.mp hentry with rfl | hmem
          · exact hless
          · exact String.lt_trans hless (hfirst entry hmem)
        · rw [if_neg hless]
          have hgreater : other < key := Decidable.byContradiction fun hnot =>
            hsame (String.le_antisymm (String.not_lt.mp hnot) (String.not_lt.mp hless))
          refine List.pairwise_cons.mpr ⟨fun entry hentry => ?_, ih hrest⟩
          rcases mem_updateEntry hentry with ⟨kept, rfl⟩ | hmem
          · exact hgreater
          · exact hfirst entry hmem

end

end Parterre
