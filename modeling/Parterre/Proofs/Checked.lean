/-
What the checks of a table are worth when its rules are applied.  A checked rule
arrives at a step whatever it draws, that step was checked with the rule, and a
table leaves no kind without a rule.  So a region is only refused by the cut or
the embedding of the step that its rule arrives at.
-/
import Parterre.Proofs.Shrinking
import Parterre.Proofs.Verdict

namespace Parterre

variable {κ α : Type}

theorem bind_eq_error_iff {β γ ε : Type} {first : Except ε β} {next : β → Except ε γ}
    {failure : ε} :
    first >>= next = .error failure ↔
      first = .error failure ∨ ∃ middle, first = .ok middle ∧ next middle = .error failure := by
  cases first with
  | error other => simp [bind, Except.bind]
  | ok middle => simp [bind, Except.bind]

mutual

/-- The steps of a rule.  Those of branches without weight are among them. -/
def Rule.steps : Rule κ α → List (Step κ α)
  | .always step => [step]
  | .weighted branches => Rule.branchSteps branches
  | .ifBothExceed _ _ large small | .ifEitherExceeds _ large small =>
      large.steps ++ small.steps

def Rule.branchSteps : List (α × Rule κ α) → List (Step κ α)
  | [] => []
  | (_, branch) :: rest => branch.steps ++ Rule.branchSteps rest

end

theorem Rule.mem_branchSteps {branches : List (α × Rule κ α)} {branch : α × Rule κ α}
    {step : Step κ α} (hbranch : branch ∈ branches) (hstep : step ∈ branch.2.steps) :
    step ∈ Rule.branchSteps branches := by
  induction branches with
  | nil => cases hbranch
  | cons first rest ih =>
      rw [Rule.branchSteps, List.mem_append]
      rcases List.mem_cons.mp hbranch with rfl | hrest
      · exact Or.inl hstep
      · exact Or.inr (ih hrest)

variable [Scalar α]

mutual

/-- Ends are steps. -/
theorem Rule.mem_steps_of_mem_ends {step : Step κ α} (rule : Rule κ α)
    (h : step ∈ rule.ends) : step ∈ rule.steps := by
  cases rule with
  | always given => exact h
  | weighted branches => exact Rule.mem_branchSteps_of_mem_branchEnds branches h
  | ifBothExceed minWidth minHeight large small =>
      rw [Rule.steps, List.mem_append]
      exact (List.mem_append.mp h).imp (Rule.mem_steps_of_mem_ends large)
        (Rule.mem_steps_of_mem_ends small)
  | ifEitherExceeds threshold large small =>
      rw [Rule.steps, List.mem_append]
      exact (List.mem_append.mp h).imp (Rule.mem_steps_of_mem_ends large)
        (Rule.mem_steps_of_mem_ends small)

theorem Rule.mem_branchSteps_of_mem_branchEnds {step : Step κ α}
    (branches : List (α × Rule κ α)) (h : step ∈ Rule.branchEnds branches) :
    step ∈ Rule.branchSteps branches := by
  cases branches with
  | nil => cases h
  | cons branch rest =>
      obtain ⟨weight, rule⟩ := branch
      rw [Rule.branchSteps, List.mem_append]
      rcases List.mem_append.mp h with hown | hrest
      · split_ifs at hown
        · exact Or.inl (Rule.mem_steps_of_mem_ends rule hown)
        · cases hown
      · exact Or.inr (Rule.mem_branchSteps_of_mem_branchEnds rest hrest)

end

namespace Weighted

theorem indexFrom?_lt {roll sum : α} {weights : List α} {position : Nat}
    (h : indexFrom? roll sum weights = some position) : position < weights.length := by
  induction weights generalizing sum position with
  | nil => cases h
  | cons weight rest ih =>
      rw [indexFrom?] at h
      rw [List.length_cons]
      split_ifs at h with hbelow
      · cases h
        exact Nat.succ_pos _
      · obtain ⟨later, hlater, rfl⟩ := Option.map_eq_some_iff.mp h
        exact Nat.succ_lt_succ (ih hlater)

/-- A roll always selects one of the branches, if there are any. -/
theorem exists_select? (roll : α) {weights : List α} (h : weights ≠ []) :
    ∃ position, select? roll weights = some position ∧ position < weights.length := by
  rw [select?]
  cases hindex : index? roll weights with
  | some position => exact ⟨position, rfl, indexFrom?_lt hindex⟩
  | none =>
      cases hlast : lastPositive? weights with
      | some position =>
          obtain ⟨_, hweight, _⟩ := lastPositive?_eq_some hlast
          exact ⟨position, rfl, (List.getElem?_eq_some_iff.mp hweight).1⟩
      | none =>
          have hpositive := List.length_pos_iff.mpr h
          refine ⟨weights.length - 1, ?_, Nat.sub_one_lt_of_lt hpositive⟩
          simp only [List.isEmpty_iff, h, if_false]

end Weighted

variable {admits : α → Prop} {bounds : Rect α} {step : Step κ α} {failure : LayoutError α}

@[simp]
theorem Safeguard.not_outcome_draw_error {safeguard : Safeguard κ α} :
    ¬ Sampler.Outcome admits safeguard.draw (.error failure) := by
  rw [draw]
  split <;> simp

/-- A rule arrives at one of its steps. -/
theorem Rule.mem_steps_of_settle (rule : Rule κ α)
    (h : Sampler.Outcome admits (rule.settle bounds) (.ok step)) : step ∈ rule.steps := by
  have harrives := rule.arrives_of_settle h
  clear h
  induction harrives with
  | always => exact List.mem_singleton_self _
  | branch _ _ hbranch _ ih => exact Rule.mem_branchSteps (List.mem_of_getElem? hbranch) ih
  | bothExceed _ _ ih | eitherExceeds _ _ ih => exact List.mem_append_left _ ih
  | notBothExceed _ _ ih | noneExceeds _ _ ih => exact List.mem_append_right _ ih

variable [DecidableEq κ] [RegionKind κ] {owner : κ}

theorem Rule.branches_of_check {branches : List (α × Rule κ α)}
    (h : (Rule.weighted branches).check owner = .ok ()) :
    branches ≠ [] ∧ ∀ branch ∈ branches, branch.2.check owner = .ok () := by
  obtain ⟨hsome, total, hbranches, _⟩ := Rule.checkBranches_of_check h
  exact ⟨hsome, Rule.check_of_checkBranches hbranches⟩

mutual

/-- The steps of a checked rule are checked. -/
theorem Rule.check_of_mem_steps (rule : Rule κ α) (hcheck : rule.check owner = .ok ())
    (h : step ∈ rule.steps) : step.check owner = .ok () := by
  cases rule with
  | always given =>
      obtain rfl := List.mem_singleton.mp h
      exact hcheck
  | weighted branches =>
      exact Rule.check_of_mem_branchSteps branches (Rule.branches_of_check hcheck).2 h
  | ifBothExceed minWidth minHeight large small =>
      obtain ⟨_, hlarge, hsmall⟩ := bind_eq_ok_iff.mp hcheck
      rcases List.mem_append.mp h with h | h
      · exact Rule.check_of_mem_steps large hlarge h
      · exact Rule.check_of_mem_steps small hsmall h
  | ifEitherExceeds threshold large small =>
      obtain ⟨_, hlarge, hsmall⟩ := bind_eq_ok_iff.mp hcheck
      rcases List.mem_append.mp h with h | h
      · exact Rule.check_of_mem_steps large hlarge h
      · exact Rule.check_of_mem_steps small hsmall h

theorem Rule.check_of_mem_branchSteps (branches : List (α × Rule κ α))
    (hcheck : ∀ branch ∈ branches, branch.2.check owner = .ok ())
    (h : step ∈ Rule.branchSteps branches) : step.check owner = .ok () := by
  cases branches with
  | nil => cases h
  | cons branch rest =>
      obtain ⟨weight, rule⟩ := branch
      obtain ⟨hrule, hrest⟩ := List.forall_mem_cons.mp hcheck
      rcases List.mem_append.mp h with h | h
      · exact Rule.check_of_mem_steps rule hrule h
      · exact Rule.check_of_mem_branchSteps rest hrest h

end

mutual

/-- A checked rule arrives at a step whatever it draws. -/
theorem Rule.not_outcome_settle_error (rule : Rule κ α) (hcheck : rule.check owner = .ok ()) :
    ¬ Sampler.Outcome admits (rule.settle bounds) (.error failure) := by
  intro h
  cases rule with
  | always given => simp [Rule.settle] at h
  | weighted branches =>
      obtain ⟨hsome, hbranches⟩ := Rule.branches_of_check hcheck
      rw [Rule.settle] at h
      obtain ⟨roll, _, h⟩ := h.bind_of_sure fun _ => Sampler.not_outcome_unit_error
      obtain ⟨position, hselect, hlt⟩ :=
        Weighted.exists_select? roll (mt List.map_eq_nil_iff.mp hsome)
      rw [hselect] at h
      rw [List.length_map] at hlt
      exact Rule.not_outcome_settleBranch_error branches hbranches hlt h
  | ifBothExceed minWidth minHeight large small =>
      obtain ⟨_, hlarge, hsmall⟩ := bind_eq_ok_iff.mp hcheck
      rw [Rule.settle] at h
      split_ifs at h
      · exact Rule.not_outcome_settle_error large hlarge h
      · exact Rule.not_outcome_settle_error small hsmall h
  | ifEitherExceeds threshold large small =>
      obtain ⟨_, hlarge, hsmall⟩ := bind_eq_ok_iff.mp hcheck
      rw [Rule.settle] at h
      split_ifs at h
      · exact Rule.not_outcome_settle_error large hlarge h
      · exact Rule.not_outcome_settle_error small hsmall h

theorem Rule.not_outcome_settleBranch_error (branches : List (α × Rule κ α)) {position : Nat}
    (hcheck : ∀ branch ∈ branches, branch.2.check owner = .ok ())
    (hlt : position < branches.length) :
    ¬ Sampler.Outcome admits (Rule.settleBranch bounds branches position)
      (.error failure) := by
  intro h
  cases branches with
  | nil => exact absurd hlt (Nat.not_lt_zero _)
  | cons branch rest =>
      obtain ⟨weight, rule⟩ := branch
      obtain ⟨hrule, hrest⟩ := List.forall_mem_cons.mp hcheck
      cases position with
      | zero => exact Rule.not_outcome_settle_error rule hrule h
      | succ position =>
          exact Rule.not_outcome_settleBranch_error rest hrest (Nat.lt_of_succ_lt_succ hlt) h

end

/-- A checked subset has as many distinct candidates as its cut has parts. -/
theorem Step.enough_of_check {candidates : List κ} {cut : PaletteCut α}
    (h : (Step.mix candidates cut).check owner = .ok ()) : cut.arity ≤ candidates.length := by
  rw [Step.check] at h
  split_ifs at h with hdistinct hfew
  exact Nat.le_of_not_lt hfew

/-- The failures of a checked step: its cut or its embedding is refused. -/
inductive Step.Fails (admits : α → Prop) (bounds : Rect α) (frame : κ) :
    Step κ α → LayoutError α → Prop
  | laid {step : Step κ α} {kinds : List κ} {cut : Cut α} {failure : LayoutError α}
      (hlays : step.Lays admits bounds kinds cut) (hparts : cut.parts bounds = .error failure) :
      Fails admits bounds frame step failure
  | embed {feature : κ} {margin : α} {failure : LayoutError α}
      (hembed : Expansion.ofEmbed bounds frame feature margin = .error failure) :
      Fails admits bounds frame (.embed feature margin) failure

theorem Step.fails_of_outcome {frame : κ} (hcheck : step.check owner = .ok ())
    (h : Sampler.Outcome admits (step.expand bounds frame) (.error failure)) :
    step.Fails admits bounds frame failure := by
  cases comes_of_outcome h with
  | laid hlays hresult =>
      rcases bind_eq_error_iff.mp hresult.symm with hparts | ⟨_, _, hpure⟩
      · exact .laid hlays hparts
      · cases hpure
  | short hshort => exact absurd (enough_of_check hcheck) (Nat.not_le_of_lt hshort)
  | embed hresult => exact .embed hresult.symm

namespace RuleTable

/-- The steps of all rules of a table. -/
def steps (table : RuleTable κ α) : List (Step κ α) :=
  table.entries.flatMap fun entry => entry.2.steps

theorem check_of_mem_steps {table : RuleTable κ α} (h : step ∈ table.steps) :
    ∃ owner, step.check owner = .ok () := by
  obtain ⟨entry, hentry, hstep⟩ := List.mem_flatMap.mp h
  obtain ⟨_, hentries, _⟩ := bind_eq_ok_iff.mp table.accepted
  exact ⟨entry.1, entry.2.check_of_mem_steps (check_of_mem hentries entry hentry) hstep⟩

theorem mem_steps_of_ends {table : RuleTable κ α} {kind : κ} {rule : Rule κ α}
    (hrule : table.rule? kind = some rule) (h : step ∈ rule.ends) : step ∈ table.steps :=
  List.mem_flatMap.mpr ⟨_, mem_of_rule? hrule, rule.mem_steps_of_mem_ends h⟩

theorem mem_steps_of_settle {table : RuleTable κ α} {kind : κ} {rule : Rule κ α}
    (hrule : table.rule? kind = some rule)
    (h : Sampler.Outcome admits (rule.settle bounds) (.ok step)) : step ∈ table.steps :=
  List.mem_flatMap.mpr ⟨_, mem_of_rule? hrule, rule.mem_steps_of_settle h⟩

/-- No kind is without a rule. -/
theorem exists_rule? (table : RuleTable κ α) (hcomplete : RegionKind.Complete κ) (kind : κ) :
    ∃ rule, table.rule? kind = some rule := by
  by_contra hnone
  have hlookup := Option.eq_none_iff_forall_not_mem.mpr fun rule hrule => hnone ⟨rule, hrule⟩
  obtain ⟨entry, hentry, rfl⟩ := List.mem_map.mp (table.mem_kinds hcomplete kind)
  have hother := List.lookup_eq_none_iff.mp hlookup entry hentry
  simp at hother

end RuleTable

namespace Engine

/-- Only the step that its rule arrives at can refuse a region, and only one
that is not stopped. -/
theorem exists_step_of_judge {engine : Engine κ α} (hcomplete : RegionKind.Complete κ)
    {kind : κ} {depth : Nat}
    (h : Sampler.Outcome admits (engine.judge kind bounds depth) (.error failure)) :
    engine.settings.isUndersized bounds = false ∧
      ∃ rule step, engine.table.rule? kind = some rule ∧
        Sampler.Outcome admits (rule.settle bounds) (.ok step) ∧
        step.Fails admits bounds engine.settings.frame failure := by
  obtain ⟨rule, hrule⟩ := engine.table.exists_rule? hcomplete kind
  have hcheck := RuleTable.check_of_rule? hrule
  rw [judge] at h
  split_ifs at h with hstopped hkeeps
  · simp at h
  · simp at h
  · rw [Bool.not_eq_true, Bool.or_eq_false_iff] at hstopped
    refine ⟨hstopped.1, rule, ?_⟩
    rw [RuleTable.rule_eq_ok_iff.mpr hrule] at h
    simp only [Rule.expand, Sampler.outcome_bind_error_iff, Sampler.outcome_lift_iff,
      Sampler.outcome_pure_iff, reduceCtorEq, Except.ok.injEq, false_or, exists_eq_left,
      and_false, exists_false, or_false] at h
    rcases h with hsettle | ⟨step, hsettle, hexpand⟩
    · exact absurd hsettle (rule.not_outcome_settle_error hcheck)
    · have hstep := rule.check_of_mem_steps hcheck (rule.mem_steps_of_settle hsettle)
      exact ⟨step, hrule, hsettle, Step.fails_of_outcome hstep hexpand⟩

end Engine

end Parterre
