/-
Building a table from entries.  The entries are gone through in order, and each rule is
checked before its kind is compared with those in front of it.  The first entry at
fault decides the failure, and only if there is none a kind without an entry does.
-/
import Parterre.Proofs.Acyclic
import Parterre.Proofs.Layouts

namespace Parterre

variable {κ α : Type} [RegionKind κ]

section Owners

/-- A check that finds the same fault whoever owns the rule, and blames the owner. -/
def BlamesOwner {β : Type} (check : κ → Except (LayoutError α) β) : Prop :=
  ∃ result : Except (RuleFault α) β, ∀ owner, check owner = result.mapError (.rule owner)

namespace BlamesOwner

variable {β γ : Type}

protected theorem pure (value : β) :
    BlamesOwner fun _ : κ => (pure value : Except (LayoutError α) β) :=
  ⟨.ok value, fun _ => rfl⟩

protected theorem throw (fault : RuleFault α) :
    BlamesOwner fun owner : κ => (throw (.rule owner fault) : Except (LayoutError α) β) :=
  ⟨.error fault, fun _ => rfl⟩

protected theorem ite {condition : Prop} [Decidable condition]
    {first second : κ → Except (LayoutError α) β}
    (hfirst : BlamesOwner first) (hsecond : BlamesOwner second) :
    BlamesOwner fun owner => if condition then first owner else second owner := by
  by_cases h : condition
  · simpa only [h, if_true] using hfirst
  · simpa only [h, if_false] using hsecond

protected theorem bind {first : κ → Except (LayoutError α) β}
    {next : κ → β → Except (LayoutError α) γ}
    (hfirst : BlamesOwner first) (hnext : ∀ value, BlamesOwner fun owner => next owner value) :
    BlamesOwner fun owner => first owner >>= next owner := by
  obtain ⟨result, hresult⟩ := hfirst
  cases result with
  | error fault =>
      refine ⟨.error fault, fun owner => ?_⟩
      simp only [hresult owner]
      rfl
  | ok value =>
      obtain ⟨later, hlater⟩ := hnext value
      refine ⟨later, fun owner => ?_⟩
      simp only [hresult owner]
      exact hlater owner

/-- The failure is one of the owner, and any other owner gets the same one. -/
theorem of_error {check : κ → Except (LayoutError α) β} (h : BlamesOwner check) {owner : κ}
    {failure : LayoutError α} (hfailure : check owner = .error failure) :
    ∃ fault, failure = .rule owner fault ∧ ∀ other, check other = .error (.rule other fault) := by
  obtain ⟨result, hresult⟩ := h
  rw [hresult owner] at hfailure
  cases result with
  | ok value => cases hfailure
  | error fault =>
      cases hfailure
      exact ⟨fault, rfl, hresult⟩

end BlamesOwner

variable [Scalar α]

theorem ShareRange.blamesOwner_check (range : ShareRange α) :
    BlamesOwner fun owner : κ => range.check owner := by
  unfold ShareRange.check
  exact .ite (.pure ()) (.throw _)

theorem PaletteCut.blamesOwner_check (cut : PaletteCut α) :
    BlamesOwner fun owner : κ => cut.check owner := by
  cases cut with
  | two axis ratio => exact ratio.blamesOwner_check
  | four => exact .pure ()

theorem Step.blamesOwner_check [DecidableEq κ] (step : Step κ α) :
    BlamesOwner fun owner => step.check owner := by
  cases step with
  | terminal | fill | quarter => exact .pure ()
  | bisect axis ratio first second => exact ratio.blamesOwner_check
  | corridor axis width ratio first strip second =>
      exact .ite (.throw _) ratio.blamesOwner_check
  | mix candidates cut =>
      exact .ite (.throw _) (.ite (.throw _) cut.blamesOwner_check)
  | embed feature margin => exact .ite (.throw _) (.pure ())

theorem Rule.blamesOwner_checkTotal (total : α) :
    BlamesOwner fun owner : κ => Rule.checkTotal owner total := by
  unfold Rule.checkTotal
  exact .ite (.throw _) (.pure ())

variable [DecidableEq κ]

mutual

/-- However deep a fault lies in a rule, the kind that owns the rule is blamed. -/
theorem Rule.blamesOwner_check (rule : Rule κ α) : BlamesOwner fun owner => rule.check owner := by
  cases rule with
  | always step => exact step.blamesOwner_check
  | weighted branches =>
      simp only [Rule.check]
      exact .ite (.throw _)
        (.bind (Rule.blamesOwner_checkBranches branches 0) Rule.blamesOwner_checkTotal)
  | ifBothExceed minWidth minHeight large small =>
      simp only [Rule.check]
      exact .bind (Rule.blamesOwner_check large) fun _ => Rule.blamesOwner_check small
  | ifEitherExceeds threshold large small =>
      simp only [Rule.check]
      exact .bind (Rule.blamesOwner_check large) fun _ => Rule.blamesOwner_check small

theorem Rule.blamesOwner_checkBranches (branches : List (α × Rule κ α)) (total : α) :
    BlamesOwner fun owner => Rule.checkBranches owner branches total := by
  cases branches with
  | nil => exact .pure total
  | cons branch rest =>
      obtain ⟨weight, rule⟩ := branch
      simp only [Rule.checkBranches]
      exact .ite (.throw _) (.bind (Rule.blamesOwner_check rule) fun _ =>
        Rule.blamesOwner_checkBranches rest (total + weight))

end

end Owners

namespace RuleTable

variable [DecidableEq κ]

section Coverage

variable {kinds : List κ} {failure : LayoutError α}

theorem checkCoverage_eq_ok_iff :
    (checkCoverage kinds : Except (LayoutError α) Unit) = .ok () ↔
      ∀ kind ∈ (RegionKind.all : List κ), kind ∈ kinds := by
  have hnone : (RegionKind.all : List κ).find? (fun kind => kind ∉ kinds) = none ↔
      ∀ kind ∈ (RegionKind.all : List κ), kind ∈ kinds := by
    simp only [List.find?_eq_none, decide_eq_true_eq, not_not]
  rw [← hnone, checkCoverage]
  cases (RegionKind.all : List κ).find? fun kind => kind ∉ kinds with
  | some first => simp [throw, throwThe, MonadExceptOf.throw]
  | none => simp [pure, Except.pure]

/-- The first kind without an entry is missed. -/
theorem checkCoverage_eq_error_iff :
    checkCoverage kinds = .error failure ↔
      ∃ kind, RegionKind.IsFirst (fun kind => kind ∉ kinds) kind ∧
        failure = .unknownType (RegionKind.name kind) := by
  have hsearch : checkCoverage kinds = .error failure ↔
      ∃ kind, RegionKind.IsFirst (fun kind => decide (kind ∉ kinds) = true) kind ∧
        failure = .unknownType (RegionKind.name kind) :=
    RegionKind.search_eq_error_iff
  simpa only [decide_eq_true_eq] using hsearch

end Coverage

variable [Scalar α]

/-- No entry is at fault: the rules are sound and no kind is repeated. -/
structure Faultless (entries : List (κ × Rule κ α)) : Prop where
  checked : ∀ entry ∈ entries, entry.2.check entry.1 = .ok ()
  nodup : (entries.map Prod.fst).Nodup

/-- Why an entry is refused behind entries of the given kinds.  Its rule is checked
first. -/
def Refuses (taken : List κ) (kind : κ) (rule : Rule κ α) (failure : LayoutError α) : Prop :=
  rule.check kind = .error failure ∨
    rule.check kind = .ok () ∧ kind ∈ taken ∧ failure = .rule kind .registeredTwice

/-- The first entry at fault is refused with the failure. -/
def FailsAtEntry (entries : List (κ × Rule κ α)) (failure : LayoutError α) : Prop :=
  ∃ before kind rule after, entries = before ++ (kind, rule) :: after ∧ Faultless before ∧
    Refuses (before.map Prod.fst) kind rule failure

section Entries

variable {seen : List κ} {entries rest other : List (κ × Rule κ α)} {kind : κ} {rule : Rule κ α}
  {failure : LayoutError α}

theorem refuses_congr {taken : List κ} (h : kind ∈ taken ↔ kind ∈ seen) :
    Refuses taken kind rule failure ↔ Refuses seen kind rule failure := by
  rw [Refuses, Refuses, h]

theorem checkEntries_cons_ok_iff :
    checkEntries seen ((kind, rule) :: rest) = .ok () ↔
      rule.check kind = .ok () ∧ kind ∉ seen ∧ checkEntries (kind :: seen) rest = .ok () := by
  rw [checkEntries]
  cases rule.check kind with
  | error failure => simp [bind, Except.bind]
  | ok _ =>
      by_cases hseen : kind ∈ seen
      · simp [hseen, throw, throwThe, MonadExceptOf.throw, bind, Except.bind]
      · simp [hseen, bind, Except.bind]

theorem checkEntries_cons_error_iff :
    checkEntries seen ((kind, rule) :: rest) = .error failure ↔
      Refuses seen kind rule failure ∨
        rule.check kind = .ok () ∧ kind ∉ seen ∧
          checkEntries (kind :: seen) rest = .error failure := by
  rw [checkEntries, Refuses]
  cases rule.check kind with
  | error failure => simp [bind, Except.bind]
  | ok _ =>
      by_cases hseen : kind ∈ seen
      · simp [hseen, throw, throwThe, MonadExceptOf.throw, bind, Except.bind, eq_comm]
      · simp [hseen, bind, Except.bind]

/-- The entries pass exactly if none is at fault and none has a kind seen before. -/
theorem checkEntries_eq_ok_iff :
    checkEntries seen entries = .ok () ↔
      Faultless entries ∧ ∀ kind ∈ entries.map Prod.fst, kind ∉ seen := by
  constructor
  · intro h
    obtain ⟨hnodup, hfresh⟩ := nodup_of_checkEntries h
    exact ⟨⟨check_of_mem h, hnodup⟩, hfresh⟩
  · rintro ⟨⟨hchecked, hnodup⟩, hfresh⟩
    induction entries generalizing seen with
    | nil => rfl
    | cons entry rest ih =>
        obtain ⟨hentry, hothers⟩ := List.forall_mem_cons.mp hchecked
        obtain ⟨hnew, hrest⟩ := List.nodup_cons.mp hnodup
        obtain ⟨hown, hlater⟩ := List.forall_mem_cons.mp hfresh
        refine checkEntries_cons_ok_iff.mpr ⟨hentry, hown, ih ?_ hothers hrest⟩
        intro kind hkind hmem
        rcases List.mem_cons.mp hmem with rfl | hseen
        · exact hnew hkind
        · exact hlater kind hkind hseen

/-- The first entry that does not pass decides the failure. -/
theorem checkEntries_eq_error_iff :
    checkEntries seen entries = .error failure ↔
      ∃ before kind rule after, entries = before ++ (kind, rule) :: after ∧
        checkEntries seen before = .ok () ∧
        Refuses (before.map Prod.fst ++ seen) kind rule failure := by
  constructor
  · intro h
    induction entries generalizing seen with
    | nil => cases h
    | cons entry rest ih =>
        rcases checkEntries_cons_error_iff.mp h with hrefuses | ⟨hcheck, hseen, hrest⟩
        · exact ⟨[], entry.1, entry.2, rest, rfl, rfl, hrefuses⟩
        · obtain ⟨before, kind, rule, after, rfl, hbefore, hrefuses⟩ := ih hrest
          refine ⟨entry :: before, kind, rule, after, rfl, ?_, ?_⟩
          · exact checkEntries_cons_ok_iff.mpr ⟨hcheck, hseen, hbefore⟩
          · exact (refuses_congr List.perm_middle.mem_iff).mp hrefuses
  · rintro ⟨before, kind, rule, after, rfl, hbefore, hrefuses⟩
    induction before generalizing seen with
    | nil => exact checkEntries_cons_error_iff.mpr (Or.inl hrefuses)
    | cons entry rest ih =>
        obtain ⟨hcheck, hseen, hrest⟩ := checkEntries_cons_ok_iff.mp hbefore
        refine checkEntries_cons_error_iff.mpr (Or.inr ⟨hcheck, hseen, ih hrest ?_⟩)
        exact (refuses_congr List.perm_middle.mem_iff).mpr hrefuses

end Entries

variable {entries other : List (κ × Rule κ α)} {table : RuleTable κ α} {failure : LayoutError α}

theorem check_eq_ok_iff :
    check entries = .ok () ↔
      Faultless entries ∧ ∀ kind ∈ (RegionKind.all : List κ), kind ∈ entries.map Prod.fst := by
  rw [check, bind_eq_ok_iff]
  simp only [Unique.exists_iff, PUnit.default_eq_unit, checkEntries_eq_ok_iff,
    checkCoverage_eq_ok_iff, List.not_mem_nil, not_false_eq_true, implies_true, and_true]

theorem check_eq_error_iff :
    check entries = .error failure ↔
      FailsAtEntry entries failure ∨
        Faultless entries ∧ ∃ kind,
          RegionKind.IsFirst (fun kind => kind ∉ entries.map Prod.fst) kind ∧
          failure = .unknownType (RegionKind.name kind) := by
  rw [check, bind_eq_error_iff]
  simp only [Unique.exists_iff, PUnit.default_eq_unit, checkEntries_eq_ok_iff,
    checkEntries_eq_error_iff, checkCoverage_eq_error_iff, List.not_mem_nil, not_false_eq_true,
    implies_true, and_true, List.append_nil, FailsAtEntry]

theorem ofList_entries (table : RuleTable κ α) : ofList table.entries = .ok table := by
  obtain ⟨entries, accepted⟩ := table
  unfold ofList
  split
  · rfl
  · rename_i hfailure
    rw [accepted] at hfailure
    cases hfailure

/-- A table is built exactly if the check accepts the entries. -/
theorem exists_ofList_iff : (∃ table, ofList entries = .ok table) ↔ check entries = .ok () := by
  constructor
  · rintro ⟨table, htable⟩
    rw [← entries_of_ofList htable]
    exact table.accepted
  · exact fun h => ⟨⟨entries, h⟩, ofList_entries ⟨entries, h⟩⟩

theorem ofList_eq_error_iff :
    ofList entries = .error failure ↔ check entries = .error failure := by
  unfold ofList
  split
  · rename_i haccepted
    simp [haccepted]
  · rename_i hfailure
    simp [hfailure]

theorem rule?_eq_some_iff {kind : κ} {rule : Rule κ α} :
    table.rule? kind = some rule ↔ (kind, rule) ∈ table.entries :=
  lookup_eq_some_iff_of_nodup table.nodup_kinds

theorem rule_of_not_mem {kind : κ} (h : kind ∉ table.entries.map Prod.fst) :
    table.rule kind = .error (.unknownType (RegionKind.name kind)) := by
  have hnone : table.rule? kind = none := by
    rw [Option.eq_none_iff_forall_ne_some]
    exact fun rule hrule => h (List.mem_map.mpr ⟨_, mem_of_rule? hrule, rfl⟩)
  rw [rule, hnone]
  rfl

theorem Faultless.perm (h : Faultless entries) (horder : other.Perm entries) : Faultless other where
  checked := fun entry hentry => h.checked entry (horder.mem_iff.mp hentry)
  nodup := (horder.map Prod.fst).nodup_iff.mpr h.nodup

/-- A table is built exactly from entries that are sound, of different kinds and of all
kinds that need a rule.  It gives each kind its own rule, in whatever order the entries
are listed.  Otherwise the first entry at fault decides the failure, and if there is
none the first kind without an entry does. -/
theorem ofList_exact (entries : List (κ × Rule κ α)) :
    ((∃ table, ofList entries = .ok table) ↔
      (∀ entry ∈ entries, entry.2.check entry.1 = .ok ()) ∧ (entries.map Prod.fst).Nodup ∧
        ∀ kind ∈ (RegionKind.all : List κ), kind ∈ entries.map Prod.fst) ∧
    (∀ table, ofList entries = .ok table →
      (∀ entry ∈ entries, table.rule entry.1 = .ok entry.2) ∧
      (∀ kind ∉ entries.map Prod.fst,
        table.rule kind = .error (.unknownType (RegionKind.name kind))) ∧
      ∀ other : List (κ × Rule κ α), other.Perm entries →
        ∃ same, ofList other = .ok same ∧ ∀ kind, same.rule kind = table.rule kind) ∧
    (∀ failure, ofList entries = .error failure ↔
      FailsAtEntry entries failure ∨
        Faultless entries ∧ ∃ kind,
          RegionKind.IsFirst (fun kind => kind ∉ entries.map Prod.fst) kind ∧
          failure = .unknownType (RegionKind.name kind)) ∧
    (∀ entry ∈ entries, ∀ failure, entry.2.check entry.1 = .error failure →
      ∃ fault, failure = .rule entry.1 fault ∧
        ∀ owner, entry.2.check owner = .error (.rule owner fault)) := by
  refine ⟨?_, fun table htable => ⟨?_, ?_, ?_⟩, fun failure => ?_, ?_⟩
  · rw [exists_ofList_iff, check_eq_ok_iff]
    exact ⟨fun ⟨⟨hchecked, hnodup⟩, hall⟩ => ⟨hchecked, hnodup, hall⟩,
      fun ⟨hchecked, hnodup, hall⟩ => ⟨⟨hchecked, hnodup⟩, hall⟩⟩
  · intro entry hentry
    rw [← entries_of_ofList htable] at hentry
    exact rule_eq_ok_iff.mpr (rule?_eq_some_iff.mpr hentry)
  · intro kind hkind
    rw [← entries_of_ofList htable] at hkind
    exact rule_of_not_mem hkind
  · intro other horder
    obtain ⟨hfaultless, hall⟩ := check_eq_ok_iff.mp (exists_ofList_iff.mp ⟨table, htable⟩)
    have hother : check other = .ok () :=
      check_eq_ok_iff.mpr ⟨hfaultless.perm horder, fun kind hkind =>
        (horder.map Prod.fst).mem_iff.mpr (hall kind hkind)⟩
    obtain ⟨same, hsame⟩ := exists_ofList_iff.mpr hother
    refine ⟨same, hsame, fun kind => ?_⟩
    have hlookup : same.rule? kind = table.rule? kind := by
      rw [rule?, rule?, entries_of_ofList hsame, entries_of_ofList htable]
      exact lookup_perm horder hfaultless.nodup
    rw [rule, rule, hlookup]
  · rw [ofList_eq_error_iff, check_eq_error_iff]
  · intro entry _ failure hfailure
    exact entry.2.blamesOwner_check.of_error hfailure

end RuleTable

namespace Planting

/-- The second entry repeats the kind of the first one, and the margin in a part of its
rule is negative.  Other kinds have no entry. -/
def faulty : List (Kind × Rule Kind Rat) :=
  [(.grass, .always .terminal),
    (.grass, .ifEitherExceeds 10 (.always .terminal) (.always (.embed .pond (-1))))]

/-- The negative margin is reported for the kind that owns the rule, although the kind is
repeated.  The entries of an accepted table give the same rules the other way round. -/
theorem ofList_exact_faulty :
    RuleTable.ofList faulty = .error (.rule Kind.grass (.negativeMargin (-1))) ∧
      (¬ ∃ table, RuleTable.ofList faulty = .ok table) ∧
      ∃ same, RuleTable.ofList circling.entries.reverse = .ok same ∧
        ∀ kind, same.rule kind = circling.rule kind := by
  obtain ⟨haccepted, _, hfailure, _⟩ := RuleTable.ofList_exact faulty
  obtain ⟨_, hbuilt, _⟩ := RuleTable.ofList_exact circling.entries
  refine ⟨(hfailure _).mpr (Or.inl ?_), fun hsome => ?_, ?_⟩
  · refine ⟨[(.grass, .always .terminal)], .grass, _, [], rfl, ⟨?_, by decide⟩, Or.inl ?_⟩
    · decide +kernel
    · decide +kernel
  · have hnodup := (haccepted.mp hsome).2.1
    exact absurd hnodup (by decide)
  · exact (hbuilt circling circling.ofList_entries).2.2 _ circling.entries.reverse_perm

end Planting

end Parterre
