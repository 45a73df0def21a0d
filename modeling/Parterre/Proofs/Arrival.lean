/-
Where a rule can arrive.  A weighted choice never takes a branch without weight,
because such a branch does not move the running sum past any roll and because
weights that sum up to one are not all zero.  So a checked rule arrives at one
of its ends that can be reached over branches of positive weight.
-/
import Mathlib.Algebra.Order.Ring.Rat
import Parterre.Proofs.Expansion
import Parterre.RuleTable.Shrinking

namespace Parterre

/-- Weights of zero do not change a sum as far as rolls can tell. -/
class Scalar.Weighs (α : Type) [Scalar α] : Prop where
  not_lt_zero : ∀ {roll : α}, 0 ≤ roll → ¬ roll < 0
  lt_add_iff : ∀ {roll sum weight : α}, 0 ≤ weight → ¬ 0 < weight →
    (roll < sum + weight ↔ roll < sum)
  zero_add_eq : ∀ {weight : α}, 0 ≤ weight → ¬ 0 < weight → 0 + weight = 0
  zero_not_total : (Rule.weightTolerance : α) < 1 - 0

variable {κ α : Type} [Scalar α]

namespace Weighted

theorem lastPositive?_eq_some {weights : List α} {position : Nat}
    (h : lastPositive? weights = some position) :
    ∃ weight, weights[position]? = some weight ∧ 0 < weight := by
  induction weights generalizing position with
  | nil => cases h
  | cons weight rest ih =>
      rw [lastPositive?] at h
      cases hrest : lastPositive? rest with
      | some later =>
          rw [hrest, Option.some.injEq] at h
          subst h
          exact ih hrest
      | none =>
          rw [hrest] at h
          split_ifs at h with hweight
          rw [Option.some.injEq] at h
          subst h
          exact ⟨weight, rfl, hweight⟩

theorem lastPositive?_eq_none {weights : List α} (h : lastPositive? weights = none) :
    ∀ weight ∈ weights, ¬ 0 < weight := by
  induction weights with
  | nil => simp
  | cons weight rest ih =>
      rw [lastPositive?] at h
      cases hrest : lastPositive? rest with
      | some later =>
          rw [hrest] at h
          cases h
      | none =>
          rw [hrest] at h
          split_ifs at h with hweight
          exact List.forall_mem_cons.mpr ⟨hweight, ih hrest⟩

variable [Scalar.Weighs α]

/-- A roll that is not below the sum falls into an interval of positive
length. -/
theorem indexFrom?_eq_some {roll sum : α} {weights : List α} {position : Nat}
    (hweights : ∀ weight ∈ weights, 0 ≤ weight) (hroll : ¬ roll < sum)
    (h : indexFrom? roll sum weights = some position) :
    ∃ weight, weights[position]? = some weight ∧ 0 < weight := by
  induction weights generalizing sum position with
  | nil => cases h
  | cons weight rest ih =>
      obtain ⟨hweight, hrest⟩ := List.forall_mem_cons.mp hweights
      rw [indexFrom?] at h
      split_ifs at h with hbelow
      · rw [Option.some.injEq] at h
        subst h
        refine ⟨weight, rfl, ?_⟩
        by_contra hzero
        exact hroll ((Scalar.Weighs.lt_add_iff hweight hzero).mp hbelow)
      · obtain ⟨later, hlater, rfl⟩ := Option.map_eq_some_iff.mp h
        exact ih hrest hbelow hlater

/-- A roll selects a branch of positive weight, if there is one. -/
theorem select?_eq_some {roll : α} {weights : List α} {position : Nat}
    (hweights : ∀ weight ∈ weights, 0 ≤ weight) (hsome : ∃ weight ∈ weights, 0 < weight)
    (hroll : 0 ≤ roll) (h : select? roll weights = some position) :
    ∃ weight, weights[position]? = some weight ∧ 0 < weight := by
  rw [select?] at h
  cases hindex : index? roll weights with
  | some found =>
      rw [hindex, Option.some.injEq] at h
      subst h
      exact indexFrom?_eq_some hweights (Scalar.Weighs.not_lt_zero hroll) hindex
  | none =>
      rw [hindex] at h
      cases hlast : lastPositive? weights with
      | some found =>
          rw [hlast, Option.some.injEq] at h
          subst h
          exact lastPositive?_eq_some hlast
      | none =>
          obtain ⟨weight, hmem, hpositive⟩ := hsome
          exact absurd hpositive (lastPositive?_eq_none hlast weight hmem)

end Weighted

/-- The ranges that a step draws shares from. -/
def Step.ranges {α : Type} : Step κ α → List (ShareRange α)
  | .bisect _ ratio _ _ => [ratio]
  | .corridor _ _ ratio _ _ _ => [ratio]
  | .mix _ (.two _ ratio) => [ratio]
  | _ => []

mutual

/-- The steps that a rule may arrive at over branches of positive weight. -/
def Rule.ends : Rule κ α → List (Step κ α)
  | .always step => [step]
  | .weighted branches => Rule.branchEnds branches
  | .ifBothExceed _ _ large small | .ifEitherExceeds _ large small =>
      large.ends ++ small.ends

def Rule.branchEnds : List (α × Rule κ α) → List (Step κ α)
  | [] => []
  | (weight, branch) :: rest =>
      (if 0 < weight then branch.ends else []) ++ Rule.branchEnds rest

end

mutual

/-- The kinds of the same size are those of the ends. -/
theorem Rule.sameSizeKinds_eq (frame : κ) (rule : Rule κ α) :
    rule.sameSizeKinds frame = rule.ends.flatMap (Step.sameSizeKinds frame) := by
  cases rule with
  | always step => simp [Rule.sameSizeKinds, Rule.ends]
  | weighted branches =>
      rw [Rule.sameSizeKinds, Rule.ends]
      exact Rule.branchSameSizeKinds_eq frame branches
  | ifBothExceed minWidth minHeight large small =>
      rw [Rule.sameSizeKinds, Rule.ends, List.flatMap_append,
        Rule.sameSizeKinds_eq frame large, Rule.sameSizeKinds_eq frame small]
  | ifEitherExceeds threshold large small =>
      rw [Rule.sameSizeKinds, Rule.ends, List.flatMap_append,
        Rule.sameSizeKinds_eq frame large, Rule.sameSizeKinds_eq frame small]

theorem Rule.branchSameSizeKinds_eq (frame : κ) (branches : List (α × Rule κ α)) :
    Rule.branchSameSizeKinds frame branches =
      (Rule.branchEnds branches).flatMap (Step.sameSizeKinds frame) := by
  cases branches with
  | nil => rfl
  | cons branch rest =>
      obtain ⟨weight, rule⟩ := branch
      rw [Rule.branchSameSizeKinds, Rule.branchEnds, List.flatMap_append,
        Rule.branchSameSizeKinds_eq frame rest]
      by_cases hweight : 0 < weight
      · rw [if_pos hweight, if_pos hweight, Rule.sameSizeKinds_eq frame rule]
      · rw [if_neg hweight, if_neg hweight, List.flatMap_nil]

end

theorem Rule.mem_branchEnds {branches : List (α × Rule κ α)} {branch : α × Rule κ α}
    {step : Step κ α} (hbranch : branch ∈ branches) (hweight : 0 < branch.1)
    (hstep : step ∈ branch.2.ends) : step ∈ Rule.branchEnds branches := by
  induction branches with
  | nil => cases hbranch
  | cons first rest ih =>
      rw [Rule.branchEnds, List.mem_append]
      rcases List.mem_cons.mp hbranch with rfl | hrest
      · exact Or.inl (by rwa [if_pos hweight])
      · exact Or.inr (ih hrest)

/-- The step that a rule arrives at: guards follow the rectangle, and a weighted
choice follows a roll. -/
inductive Rule.Arrives (admits : α → Prop) (bounds : Rect α) : Rule κ α → Step κ α → Prop
  | always {step : Step κ α} : Arrives admits bounds (.always step) step
  | branch {branches : List (α × Rule κ α)} {roll : α} {position : Nat} {branch : α × Rule κ α}
      {step : Step κ α} (hroll : admits roll)
      (hselect : Weighted.select? roll (branches.map Prod.fst) = some position)
      (hbranch : branches[position]? = some branch)
      (harrives : Arrives admits bounds branch.2 step) :
      Arrives admits bounds (.weighted branches) step
  | bothExceed {minWidth minHeight : α} {large small : Rule κ α} {step : Step κ α}
      (hexceed : minWidth < bounds.width ∧ minHeight < bounds.height)
      (harrives : Arrives admits bounds large step) :
      Arrives admits bounds (.ifBothExceed minWidth minHeight large small) step
  | notBothExceed {minWidth minHeight : α} {large small : Rule κ α} {step : Step κ α}
      (hexceed : ¬ (minWidth < bounds.width ∧ minHeight < bounds.height))
      (harrives : Arrives admits bounds small step) :
      Arrives admits bounds (.ifBothExceed minWidth minHeight large small) step
  | eitherExceeds {threshold : α} {large small : Rule κ α} {step : Step κ α}
      (hexceed : threshold < bounds.width ∨ threshold < bounds.height)
      (harrives : Arrives admits bounds large step) :
      Arrives admits bounds (.ifEitherExceeds threshold large small) step
  | noneExceeds {threshold : α} {large small : Rule κ α} {step : Step κ α}
      (hexceed : ¬ (threshold < bounds.width ∨ threshold < bounds.height))
      (harrives : Arrives admits bounds small step) :
      Arrives admits bounds (.ifEitherExceeds threshold large small) step

section Settle

variable {admits : α → Prop} {bounds : Rect α} {step : Step κ α}

mutual

/-- The step of a rule is one that it arrives at. -/
theorem Rule.arrives_of_settle (rule : Rule κ α)
    (h : Sampler.Outcome admits (rule.settle bounds) (.ok step)) :
    rule.Arrives admits bounds step := by
  cases rule with
  | always given =>
      cases Sampler.outcome_pure_iff.mp h
      exact .always
  | weighted branches =>
      simp only [Rule.settle, Sampler.outcome_bind_ok_iff, Sampler.outcome_unit_iff] at h
      obtain ⟨roll, hroll, h⟩ := h
      cases hselect : Weighted.select? roll (branches.map Prod.fst) with
      | none => simp [hselect] at h
      | some position =>
          rw [hselect] at h
          obtain ⟨branch, hbranch, harrives⟩ := Rule.arrives_of_settleBranch branches h
          exact .branch hroll hselect hbranch harrives
  | ifBothExceed minWidth minHeight large small =>
      rw [Rule.settle] at h
      split_ifs at h with hexceed
      · exact .bothExceed hexceed (Rule.arrives_of_settle large h)
      · exact .notBothExceed hexceed (Rule.arrives_of_settle small h)
  | ifEitherExceeds threshold large small =>
      rw [Rule.settle] at h
      split_ifs at h with hexceed
      · exact .eitherExceeds hexceed (Rule.arrives_of_settle large h)
      · exact .noneExceeds hexceed (Rule.arrives_of_settle small h)

theorem Rule.arrives_of_settleBranch (branches : List (α × Rule κ α)) {position : Nat}
    (h : Sampler.Outcome admits (Rule.settleBranch bounds branches position) (.ok step)) :
    ∃ branch, branches[position]? = some branch ∧ branch.2.Arrives admits bounds step := by
  cases branches with
  | nil => simp [Rule.settleBranch] at h
  | cons branch rest =>
      obtain ⟨weight, rule⟩ := branch
      cases position with
      | zero => exact ⟨(weight, rule), rfl, Rule.arrives_of_settle rule h⟩
      | succ position => exact Rule.arrives_of_settleBranch rest h

end

end Settle

variable [DecidableEq κ] [RegionKind κ]

section Checks

variable {owner : κ} {branches : List (α × Rule κ α)} {total final : α}

/-- A checked branch has a weight that is not negative and a checked rule. -/
theorem Rule.checkBranches_cons_iff {weight : α} {rule : Rule κ α} :
    Rule.checkBranches owner ((weight, rule) :: branches) total = .ok final ↔
      0 ≤ weight ∧ rule.check owner = .ok () ∧
        Rule.checkBranches owner branches (total + weight) = .ok final := by
  rw [Rule.checkBranches]
  split_ifs with hweight
  · simp only [bind_eq_ok_iff, hweight, true_and]
    constructor
    · rintro ⟨_, hrule, hrest⟩
      exact ⟨hrule, hrest⟩
    · rintro ⟨hrule, hrest⟩
      exact ⟨(), hrule, hrest⟩
  · constructor
    · intro h
      cases h
    · rintro ⟨hnonneg, _⟩
      exact absurd hnonneg hweight

theorem Rule.weights_of_checkBranches
    (h : Rule.checkBranches owner branches total = .ok final) :
    ∀ weight ∈ branches.map Prod.fst, 0 ≤ weight := by
  induction branches generalizing total with
  | nil => simp
  | cons branch rest ih =>
      obtain ⟨hweight, _, hrest⟩ := Rule.checkBranches_cons_iff.mp h
      exact List.forall_mem_cons.mpr ⟨hweight, ih hrest⟩

theorem Rule.check_of_checkBranches
    (h : Rule.checkBranches owner branches total = .ok final) :
    ∀ branch ∈ branches, branch.2.check owner = .ok () := by
  induction branches generalizing total with
  | nil => simp
  | cons branch rest ih =>
      obtain ⟨_, hrule, hrest⟩ := Rule.checkBranches_cons_iff.mp h
      exact List.forall_mem_cons.mpr ⟨hrule, ih hrest⟩

variable [Scalar.Weighs α]

/-- Branches without weight sum up to nothing. -/
theorem Rule.total_of_checkBranches (h : Rule.checkBranches owner branches 0 = .ok final)
    (hzero : ∀ weight ∈ branches.map Prod.fst, ¬ 0 < weight) : final = 0 := by
  induction branches with
  | nil =>
      simp only [Rule.checkBranches, pure, Except.pure, Except.ok.injEq] at h
      exact h.symm
  | cons branch rest ih =>
      obtain ⟨hweight, hrest⟩ := List.forall_mem_cons.mp hzero
      obtain ⟨hnonneg, _, hlater⟩ := Rule.checkBranches_cons_iff.mp h
      rw [Scalar.Weighs.zero_add_eq hnonneg hweight] at hlater
      exact ih hlater hrest

/-- Some branch of a checked choice has weight. -/
theorem Rule.exists_weight (h : Rule.checkBranches owner branches 0 = .ok final)
    (htotal : Rule.checkTotal owner final = .ok ()) :
    ∃ weight ∈ branches.map Prod.fst, 0 < weight := by
  by_contra hnone
  have hzero : ∀ weight ∈ branches.map Prod.fst, ¬ 0 < weight :=
    fun weight hmem hweight => hnone ⟨weight, hmem, hweight⟩
  obtain rfl := Rule.total_of_checkBranches h hzero
  rw [Rule.checkTotal, if_pos (Or.inr Scalar.Weighs.zero_not_total)] at htotal
  cases htotal

end Checks

/-- A checked choice has branches, and their sum was checked. -/
theorem Rule.checkBranches_of_check {owner : κ} {branches : List (α × Rule κ α)}
    (h : (Rule.weighted branches).check owner = .ok ()) :
    branches ≠ [] ∧ ∃ total, Rule.checkBranches owner branches 0 = .ok total ∧
      Rule.checkTotal owner total = .ok () := by
  rw [Rule.check] at h
  split_ifs at h with hempty
  exact ⟨mt List.isEmpty_iff.mpr hempty, bind_eq_ok_iff.mp h⟩

/-- A checked rule arrives at one of its ends. -/
theorem Rule.mem_ends_of_settle [Scalar.Weighs α] {owner : κ} {bounds : Rect α}
    {step : Step κ α} {admits : α → Prop} (hadmits : ∀ value, admits value → 0 ≤ value)
    (rule : Rule κ α) (hcheck : rule.check owner = .ok ())
    (h : Sampler.Outcome admits (rule.settle bounds) (.ok step)) : step ∈ rule.ends := by
  have harrives := rule.arrives_of_settle h
  clear h
  induction harrives with
  | always => exact List.mem_singleton_self _
  | @branch branches roll position branch step hroll hselect hbranch _ ih =>
      obtain ⟨_, total, hbranches, htotal⟩ := Rule.checkBranches_of_check hcheck
      obtain ⟨weight, hweight, hpositive⟩ := Weighted.select?_eq_some
        (Rule.weights_of_checkBranches hbranches) (Rule.exists_weight hbranches htotal)
        (hadmits roll hroll) hselect
      rw [List.getElem?_map, hbranch, Option.map_some, Option.some.injEq] at hweight
      subst hweight
      have hmem := List.mem_of_getElem? hbranch
      exact Rule.mem_branchEnds hmem hpositive
        (ih (Rule.check_of_checkBranches hbranches branch hmem))
  | bothExceed _ _ ih | eitherExceeds _ _ ih =>
      obtain ⟨_, hlarge, _⟩ := bind_eq_ok_iff.mp hcheck
      exact List.mem_append_left _ (ih hlarge)
  | notBothExceed _ _ ih | noneExceeds _ _ ih =>
      obtain ⟨_, _, hsmall⟩ := bind_eq_ok_iff.mp hcheck
      exact List.mem_append_right _ (ih hsmall)

namespace RuleTable

theorem check_of_mem {seen : List κ} {entries : List (κ × Rule κ α)}
    (h : checkEntries seen entries = .ok ()) :
    ∀ entry ∈ entries, entry.2.check entry.1 = .ok () := by
  induction entries generalizing seen with
  | nil => simp
  | cons entry rest ih =>
      obtain ⟨_, hrule, hrest⟩ := bind_eq_ok_iff.mp h
      split_ifs at hrest
      · cases hrest
      · exact List.forall_mem_cons.mpr ⟨hrule, ih hrest⟩

theorem mem_of_rule? {table : RuleTable κ α} {kind : κ} {rule : Rule κ α}
    (h : table.rule? kind = some rule) : (kind, rule) ∈ table.entries := by
  obtain ⟨before, after, hsplit, _⟩ := List.lookup_eq_some_iff.mp h
  rw [hsplit]
  exact List.mem_append_right _ List.mem_cons_self

/-- The rules of a table are checked. -/
theorem check_of_rule? {table : RuleTable κ α} {kind : κ} {rule : Rule κ α}
    (h : table.rule? kind = some rule) : rule.check kind = .ok () := by
  obtain ⟨_, hentries, _⟩ := bind_eq_ok_iff.mp table.accepted
  exact check_of_mem hentries (kind, rule) (mem_of_rule? h)

end RuleTable

instance : Scalar.Weighs Rat where
  not_lt_zero := fun {roll} (h : 0 ≤ roll) => not_lt.mpr h
  lt_add_iff := by
    intro roll sum weight hle hlt
    obtain rfl : weight = 0 := le_antisymm (not_lt.mp hlt) hle
    exact iff_of_eq (congrArg (roll < ·) (add_zero sum))
  zero_add_eq := by
    intro weight hle hlt
    obtain rfl : weight = 0 := le_antisymm (not_lt.mp hlt) hle
    exact add_zero 0
  zero_not_total := by decide +kernel

end Parterre
