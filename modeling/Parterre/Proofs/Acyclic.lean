/-
Kinds that lead back to themselves.  The check of a table follows the ways at full
size, in whatever order they are stored.  It reports the first of all kinds that
leads back to itself over one way or more, and accepts the table if there is none.
So if all kinds that have a rule are listed, the ways of an accepted table make no
circle at all.
-/
import Parterre.Planting.Kind
import Parterre.Proofs.Checked
import Parterre.Proofs.Lookup

namespace Parterre

variable {κ α : Type}

/-- The first of all kinds with a property. -/
def RegionKind.IsFirst [RegionKind κ] (holds : κ → Prop) (kind : κ) : Prop :=
  holds kind ∧ ∃ before after, (RegionKind.all : List κ) = before ++ kind :: after ∧
    ∀ other ∈ before, ¬ holds other

/-- A search through all kinds that fails with what it finds fails with the first one. -/
theorem RegionKind.search_eq_error_iff [RegionKind κ] {ε : Type} {test : κ → Bool}
    {blame : κ → ε} {failure : ε} :
    (match (all : List κ).find? test with
      | some kind => throw (blame kind)
      | none => return () : Except ε Unit) = .error failure ↔
      ∃ kind, IsFirst (fun kind => test kind = true) kind ∧ failure = blame kind := by
  have hfirst : ∀ kind, IsFirst (fun kind => test kind = true) kind ↔
      (all : List κ).find? test = some kind := by
    intro kind
    rw [List.find?_eq_some_iff_append, IsFirst]
    simp only [Bool.not_eq_true', Bool.not_eq_true]
  simp only [hfirst]
  cases (all : List κ).find? test with
  | some first =>
      constructor
      · intro h
        cases h
        exact ⟨first, rfl, rfl⟩
      · rintro ⟨kind, hkind, rfl⟩
        cases hkind
        rfl
  | none =>
      constructor
      · intro h
        cases h
      · rintro ⟨kind, hkind, _⟩
        cases hkind

variable [DecidableEq κ]

namespace Ways

variable {ways other : Ways κ} {kind : κ}

/-- The order of the ways does not matter to the search. -/
theorem leadsToItself_perm (h : ways.Perm other) (hnodup : (other.map Prod.fst).Nodup) :
    ways.leadsToItself = other.leadsToItself := by
  funext kind
  have hleads : ways.Leads = other.Leads := by
    funext first second
    rw [Leads, Leads, behind, behind, lookup_perm h hnodup]
  rw [Bool.eq_iff_iff, leadsToItself_iff, leadsToItself_iff, hleads]

variable [RegionKind κ]

/-- The first kind that leads back to itself is reported. -/
theorem check_eq_error_iff {failure : LayoutError α} :
    ways.check = .error failure ↔
      ∃ kind, RegionKind.IsFirst (fun kind => Relation.TransGen ways.Leads kind kind) kind ∧
        failure = .rule kind .neverShrinks := by
  simp only [← leadsToItself_iff]
  exact RegionKind.search_eq_error_iff

end Ways

namespace RuleTable

variable [RegionKind κ] [Scalar α]

theorem nodup_of_checkEntries {seen : List κ} {entries : List (κ × Rule κ α)}
    (h : checkEntries seen entries = .ok ()) :
    (entries.map Prod.fst).Nodup ∧ ∀ kind ∈ entries.map Prod.fst, kind ∉ seen := by
  induction entries generalizing seen with
  | nil => simp
  | cons entry rest ih =>
      obtain ⟨_, _, hrest⟩ := bind_eq_ok_iff.mp h
      split_ifs at hrest with hseen
      · cases hrest
      · obtain ⟨hnodup, hfresh⟩ := ih hrest
        rw [List.map_cons, List.nodup_cons, List.forall_mem_cons]
        refine ⟨⟨fun hmem => hfresh _ hmem List.mem_cons_self, hnodup⟩, hseen, ?_⟩
        exact fun kind hkind hold => hfresh kind hkind (List.mem_cons_of_mem _ hold)

/-- No kind has two rules. -/
theorem nodup_kinds (table : RuleTable κ α) : (table.entries.map Prod.fst).Nodup := by
  obtain ⟨_, hentries, _⟩ := bind_eq_ok_iff.mp table.accepted
  exact (nodup_of_checkEntries hentries).1

theorem nodup_ways (table : RuleTable κ α) (frame : κ) :
    ((table.ways frame).map Prod.fst).Nodup := by
  rw [ways, List.map_map]
  exact table.nodup_kinds

/-- A kind that leads somewhere has a rule. -/
theorem exists_rule?_of_returns {table : RuleTable κ α} {frame kind : κ}
    (h : Relation.TransGen (table.Leads frame) kind kind) :
    ∃ rule, table.rule? kind = some rule := by
  obtain ⟨next, hleads, _⟩ := Relation.TransGen.head'_iff.mp h
  rw [Leads, sameSizeKinds] at hleads
  cases hrule : table.rule? kind with
  | some rule => exact ⟨rule, rfl⟩
  | none => simp [hrule] at hleads

/-- In whatever order the ways are stored, the check is over and finds out whether
one of all kinds leads back to itself; it reports the first one that does.  If
all kinds that have a rule are listed, it accepts exactly the tables without
circles. -/
theorem checkShrinks_decides (table : RuleTable κ α) (frame : κ) :
    (∀ ways : Ways κ, ways.Perm (table.ways frame) →
      ways.check = table.checkShrinks frame) ∧
    ((∃ failure, table.checkShrinks frame = .error failure) ↔
      ∃ kind ∈ (RegionKind.all : List κ), Relation.TransGen (table.Leads frame) kind kind) ∧
    (∀ failure, table.checkShrinks frame = .error failure ↔
      ∃ kind, RegionKind.IsFirst
          (fun kind => Relation.TransGen (table.Leads frame) kind kind) kind ∧
        failure = .rule kind .neverShrinks) ∧
    ((∀ kind rule, table.rule? kind = some rule → kind ∈ (RegionKind.all : List κ)) →
      (table.checkShrinks frame = .ok () ↔
        ∀ kind, ¬ Relation.TransGen (table.Leads frame) kind kind)) := by
  refine ⟨fun ways horder => ?_, ?_, fun failure => ?_, fun hlisted => ?_⟩
  · rw [checkShrinks, Ways.check, Ways.check,
      Ways.leadsToItself_perm horder (table.nodup_ways frame)]
  · have herror : (∃ failure, table.checkShrinks frame = .error failure) ↔
        ¬ table.checkShrinks frame = .ok () := by
      cases table.checkShrinks frame <;> simp
    rw [herror, checkShrinks_eq_ok_iff]
    simp only [not_forall, not_not, exists_prop]
  · rw [checkShrinks, Ways.check_eq_error_iff, leads_ways]
  · rw [checkShrinks_eq_ok_iff]
    refine ⟨fun h kind hreturns => ?_, fun h kind _ => h kind⟩
    obtain ⟨rule, hrule⟩ := exists_rule?_of_returns hreturns
    exact h kind (hlisted kind rule hrule) hreturns

end RuleTable

namespace Planting

/-- The forest leads to the pond as its frame and the pond to the forest, and the
root leads into this circle. -/
def circling : RuleTable Kind Rat where
  entries := Kind.all.map fun kind => (kind,
    match kind with
    | .root => .always (.fill .pond)
    | .forest => .weighted [(1 / 2, .always (.embed .fountain 1)), (1 / 2, .always .terminal)]
    | .pond => .ifEitherExceeds 10 (.always (.fill .grass)) (.always (.fill .forest))
    | _ => .always .terminal)
  accepted := by decide +kernel

theorem checkShrinks_decides_circling :
    (circling.ways .pond).reverse.Perm (circling.ways .pond) ∧
      Ways.check (circling.ways .pond).reverse = circling.checkShrinks .pond ∧
      circling.checkShrinks .pond = .error (.rule Kind.forest .neverShrinks) ∧
      RegionKind.IsFirst
        (fun kind => Relation.TransGen (circling.Leads .pond) kind kind) Kind.forest ∧
      (∀ kind rule, circling.rule? kind = some rule → kind ∈ (RegionKind.all : List Kind)) ∧
      ¬ ∀ kind, ¬ Relation.TransGen (circling.Leads .pond) kind kind := by
  obtain ⟨horder, _, hfirst, hacyclic⟩ := circling.checkShrinks_decides Kind.pond
  have hreverse := (circling.ways .pond).reverse_perm
  have herror : circling.checkShrinks .pond = .error (.rule Kind.forest .neverShrinks) := by
    decide +kernel
  have hlisted : ∀ kind rule, circling.rule? kind = some rule →
      kind ∈ (RegionKind.all : List Kind) := fun kind _ _ => kind.mem_all
  have hforest : RegionKind.IsFirst
      (fun kind => Relation.TransGen (circling.Leads .pond) kind kind) Kind.forest := by
    obtain ⟨first, hreturns, hsame⟩ := (hfirst _).mp herror
    cases first <;> first | exact hreturns | exact absurd hsame (by decide)
  refine ⟨hreverse, horder _ hreverse, herror, hforest, hlisted, fun hnone => ?_⟩
  rw [(hacyclic hlisted).mpr hnone] at herror
  cases herror

end Planting

end Parterre
