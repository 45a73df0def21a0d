/-
Weighted choices over the exact rationals.  The weights cut a line into half-open
intervals, and a roll picks the position whose interval it lies in; the rules take
the last position of positive weight if the roll lies behind all of them.  The
safeguard picks in the same way among its weights divided by their sum, and its
intervals leave no roll out.
-/
import Parterre.Proofs.Refusal

namespace Parterre

variable {κ σ : Type}

namespace Weighted

/-- The part of the line that a position has: from the sum of the weights before it
to the sum of those with it. -/
def interval (weights : List Rat) (position : Nat) : Set Rat :=
  Set.Ico (weights.take position).sum (weights.take (position + 1)).sum

/-- The position has a positive weight, and none behind it has. -/
def IsLastPositive (weights : List Rat) (position : Nat) : Prop :=
  (∃ weight, weights[position]? = some weight ∧ 0 < weight) ∧
    ∀ later weight, position < later → weights[later]? = some weight → ¬ 0 < weight

/-- The law of weighted choice: the position whose interval holds the roll, and the
last one of positive weight if there is no such interval. -/
inductive Picks (weights : List Rat) (roll : Rat) : Nat → Prop
  | within {position : Nat} (hroll : roll ∈ interval weights position) :
      Picks weights roll position
  | behind {position : Nat} (hnone : ∀ other, roll ∉ interval weights other)
      (hlast : IsLastPositive weights position) : Picks weights roll position

variable {weights : List Rat} {roll sum : Rat} {position : Nat}

/-- The running sum exceeds the roll first at the position whose interval, shifted by
the start of the sum, holds the roll. -/
theorem indexFrom?_eq_some_iff (hweights : ∀ weight ∈ weights, 0 ≤ weight) (hsum : sum ≤ roll) :
    indexFrom? roll sum weights = some position ↔
      sum + (weights.take position).sum ≤ roll ∧
        roll < sum + (weights.take (position + 1)).sum := by
  induction weights generalizing sum position with
  | nil => simp [indexFrom?, hsum]
  | cons weight rest ih =>
      obtain ⟨_, hrest⟩ := List.forall_mem_cons.mp hweights
      rw [indexFrom?]
      cases position with
      | zero =>
          split_ifs with hbelow
          · simpa [hsum] using hbelow
          · simpa [hsum] using hbelow
      | succ position =>
          simp only [List.take_succ_cons, List.sum_cons, ← add_assoc]
          split_ifs with hbelow
          · have hnonneg : 0 ≤ (rest.take position).sum :=
              List.sum_nonneg fun other hother => hrest other (List.mem_of_mem_take hother)
            refine iff_of_false (by simp) fun h => ?_
            exact absurd hbelow (not_lt.mpr ((le_add_of_nonneg_right hnonneg).trans h.1))
          · simp only [Option.map_eq_some_iff, Nat.add_right_cancel_iff, exists_eq_right]
            exact ih hrest (not_lt.mp hbelow)

theorem index?_eq_some_iff (hweights : ∀ weight ∈ weights, 0 ≤ weight) (hroll : 0 ≤ roll) :
    index? roll weights = some position ↔ roll ∈ interval weights position := by
  rw [index?, indexFrom?_eq_some_iff hweights hroll, interval, Set.mem_Ico]
  exact iff_of_eq (by rw [zero_add, zero_add])

/-- A roll that no running sum exceeds lies behind their end. -/
theorem le_of_indexFrom?_eq_none (hsum : sum ≤ roll) (h : indexFrom? roll sum weights = none) :
    sum + weights.sum ≤ roll := by
  induction weights generalizing sum with
  | nil => simpa using hsum
  | cons weight rest ih =>
      rw [indexFrom?] at h
      split_ifs at h with hbelow
      rw [List.sum_cons, ← add_assoc]
      exact ih (not_lt.mp hbelow) (Option.map_eq_none_iff.mp h)

theorem sum_le_of_not_mem (hweights : ∀ weight ∈ weights, 0 ≤ weight) (hroll : 0 ≤ roll)
    (hnone : ∀ position, roll ∉ interval weights position) : weights.sum ≤ roll := by
  cases hindex : index? roll weights with
  | some position => exact absurd ((index?_eq_some_iff hweights hroll).mp hindex) (hnone position)
  | none => simpa using le_of_indexFrom?_eq_none hroll hindex

theorem isLastPositive_of_lastPositive? (h : lastPositive? weights = some position) :
    IsLastPositive weights position := by
  refine ⟨lastPositive?_eq_some h, ?_⟩
  induction weights generalizing position with
  | nil => cases h
  | cons weight rest ih =>
      intro later other hlater hother
      obtain ⟨later, rfl⟩ := Nat.exists_eq_add_one_of_ne_zero (Nat.ne_zero_of_lt hlater)
      rw [lastPositive?] at h
      cases hrest : lastPositive? rest with
      | some found =>
          rw [hrest, Option.some.injEq] at h
          subst h
          exact ih hrest later other (Nat.lt_of_succ_lt_succ hlater) hother
      | none => exact lastPositive?_eq_none hrest other (List.mem_of_getElem? hother)

/-- There is one last position of positive weight at most. -/
theorem IsLastPositive.unique {other : Nat} (h : IsLastPositive weights position)
    (hother : IsLastPositive weights other) : position = other := by
  obtain ⟨⟨weight, hweight, hpositive⟩, hlast⟩ := h
  obtain ⟨⟨weight', hweight', hpositive'⟩, hlast'⟩ := hother
  rcases Nat.lt_trichotomy position other with hlt | heq | hlt
  · exact absurd hpositive' (hlast other weight' hlt hweight')
  · exact heq
  · exact absurd hpositive (hlast' position weight hlt hweight)

theorem lastPositive?_eq_some_iff :
    lastPositive? weights = some position ↔ IsLastPositive weights position := by
  refine ⟨isLastPositive_of_lastPositive?, fun h => ?_⟩
  cases hlast : lastPositive? weights with
  | some other => rw [(isLastPositive_of_lastPositive? hlast).unique h]
  | none =>
      obtain ⟨⟨weight, hweight, hpositive⟩, _⟩ := h
      exact absurd hpositive (lastPositive?_eq_none hlast weight (List.mem_of_getElem? hweight))

theorem select?_of_mem (hweights : ∀ weight ∈ weights, 0 ≤ weight) (hroll : 0 ≤ roll)
    (h : roll ∈ interval weights position) : select? roll weights = some position := by
  rw [select?, (index?_eq_some_iff hweights hroll).mpr h]

/-- The selection follows the law. -/
theorem select?_eq_some_iff (hweights : ∀ weight ∈ weights, 0 ≤ weight)
    (hsome : ∃ weight ∈ weights, 0 < weight) (hroll : 0 ≤ roll) :
    select? roll weights = some position ↔ Picks weights roll position := by
  constructor
  · intro h
    rw [select?] at h
    cases hindex : index? roll weights with
    | some found =>
        rw [hindex] at h
        cases h
        exact .within ((index?_eq_some_iff hweights hroll).mp hindex)
    | none =>
        have hnone : ∀ other, roll ∉ interval weights other := by
          intro other hother
          rw [← index?_eq_some_iff hweights hroll, hindex] at hother
          cases hother
        rw [hindex] at h
        cases hlast : lastPositive? weights with
        | some last =>
            rw [hlast] at h
            cases h
            exact .behind hnone (isLastPositive_of_lastPositive? hlast)
        | none =>
            obtain ⟨weight, hmem, hpositive⟩ := hsome
            exact absurd hpositive (lastPositive?_eq_none hlast weight hmem)
  · intro h
    cases h with
    | within hmem => exact select?_of_mem hweights hroll hmem
    | behind hnone hlast =>
        have hindex : index? roll weights = none := by
          rw [Option.eq_none_iff_forall_ne_some]
          exact fun other hother =>
            hnone other ((index?_eq_some_iff hweights hroll).mp hother)
        rw [select?, hindex, lastPositive?_eq_some_iff.mpr hlast]

/-- Multiplying roll and weights by the same factor changes nothing. -/
theorem indexFrom?_mul {factor : Rat} (hfactor : 0 < factor) :
    indexFrom? (factor * roll) (factor * sum) (weights.map (factor * ·)) =
      indexFrom? roll sum weights := by
  induction weights generalizing sum with
  | nil => rfl
  | cons weight rest ih =>
      have hadd : factor * sum + factor * weight = factor * (sum + weight) := (mul_add ..).symm
      have hlt : factor * roll < factor * sum + factor * weight ↔ roll < sum + weight := by
        rw [hadd, mul_lt_mul_iff_right₀ hfactor]
      rw [List.map_cons, indexFrom?, indexFrom?, ← @ih (sum + weight), ← hadd]
      exact if_congr hlt rfl rfl

theorem index?_mul {factor : Rat} (hfactor : 0 < factor) :
    index? (factor * roll) (weights.map (factor * ·)) = index? roll weights := by
  rw [index?, index?, ← @indexFrom?_mul weights roll 0 factor hfactor, mul_zero]

/-- The weights divided by their sum. -/
def shares (weights : List Rat) : List Rat :=
  weights.map fun weight => weight / weights.sum

theorem shares_eq (weights : List Rat) :
    shares weights = weights.map (weights.sum⁻¹ * ·) := by
  simp only [shares, div_eq_inv_mul]

theorem sum_shares (hsum : 0 < weights.sum) : (shares weights).sum = 1 := by
  rw [shares_eq, List.sum_map_mul_left, List.map_id', inv_mul_cancel₀ hsum.ne']

/-- Multiplying the roll by the sum does the same as dividing the weights by it. -/
theorem index?_shares (hsum : 0 < weights.sum) (value : Rat) :
    index? value (shares weights) = index? (value * weights.sum) weights := by
  have hroll : weights.sum⁻¹ * (value * weights.sum) = value := by
    field_simp
  calc index? value (shares weights)
      = index? (weights.sum⁻¹ * (value * weights.sum)) (weights.map (weights.sum⁻¹ * ·)) := by
        rw [hroll, shares_eq]
    _ = index? (value * weights.sum) weights := index?_mul (inv_pos.mpr hsum)

end Weighted

theorem Scalar.sum_eq (values : List Rat) : Scalar.sum values = values.sum :=
  List.sum_eq_foldl.symm

section Rules

variable [DecidableEq κ] [RegionKind κ] {owner : κ} {branches : List (Rat × Rule κ Rat)}

/-- Checking branches adds their weights. -/
theorem Rule.eq_sum_of_checkBranches {total final : Rat}
    (h : Rule.checkBranches owner branches total = .ok final) :
    final = total + (branches.map Prod.fst).sum := by
  induction branches generalizing total with
  | nil =>
      cases h
      simp
  | cons branch rest ih =>
      obtain ⟨_, _, hrest⟩ := Rule.checkBranches_cons_iff.mp h
      rw [ih hrest, List.map_cons, List.sum_cons, ← add_assoc]

/-- The weights of a checked choice sum up to one within the tolerance. -/
theorem Rule.sum_of_check (h : (Rule.weighted branches).check owner = .ok ()) :
    (branches.map Prod.fst).sum - 1 ≤ Rule.weightTolerance ∧
      1 - (branches.map Prod.fst).sum ≤ Rule.weightTolerance := by
  obtain ⟨_, total, hbranches, htotal⟩ := Rule.checkBranches_of_check h
  obtain rfl := Rule.eq_sum_of_checkBranches hbranches
  rw [Rule.checkTotal, zero_add] at htotal
  split_ifs at htotal with houtside
  exact (not_or.mp houtside).imp not_lt.mp not_lt.mp

end Rules

namespace Safeguard

theorem getElem?_choices_of_single {safeguard : Safeguard κ Rat} {position : Nat}
    {choice : Rat × κ} (hsingle : safeguard.others = [])
    (h : safeguard.choices[position]? = some choice) : choice = safeguard.first := by
  rw [choices, hsingle] at h
  exact List.mem_singleton.mp (List.mem_of_getElem? h)

/-- The loop over the weights ends at a choice, so the last one is never taken in its
place. -/
theorem pick_eq {safeguard : Safeguard κ Rat} {value : Rat} {position : Nat}
    {choice : Rat × κ} (hchoice : safeguard.choices[position]? = some choice)
    (hindex : Weighted.index? (value * (safeguard.choices.map Prod.fst).sum)
      (safeguard.choices.map Prod.fst) = some position) : safeguard.pick value = choice.2 := by
  simp only [pick, Scalar.sum_eq, hindex, kindAt, hchoice, Option.getD_some]

/-- Positive weights make a safeguard. -/
theorem ofList_of_pos [RegionKind κ] {choices : List (Rat × κ)} (hsome : choices ≠ [])
    (hpositive : ∀ choice ∈ choices, 0 < choice.1) :
    ∃ safeguard : Safeguard κ Rat, ofList choices = .ok safeguard ∧
      safeguard.choices = choices := by
  obtain ⟨first, others, rfl⟩ := List.exists_cons_of_ne_nil hsome
  refine ⟨⟨first, others⟩, ?_, rfl⟩
  have hnone : (first :: others).find? (fun choice => ¬ 0 < choice.1) = none := by
    rw [List.find?_eq_none]
    intro choice hchoice
    simpa using hpositive choice hchoice
  rw [ofList, check, choices, hnone]
  rfl

/-- Multiplying all weights by the same factor changes no pick. -/
theorem pick_mul {safeguard scaled : Safeguard κ Rat} {factor : Rat} (hfactor : 0 < factor)
    (h : scaled.choices = safeguard.choices.map fun choice => (factor * choice.1, choice.2)) :
    scaled.pick = safeguard.pick := by
  have hweights : scaled.choices.map Prod.fst =
      (safeguard.choices.map Prod.fst).map (factor * ·) := by
    rw [h, List.map_map, List.map_map]
    rfl
  have hlast : (scaled.choices.getLast (List.cons_ne_nil _ _)).2 =
      (safeguard.choices.getLast (List.cons_ne_nil _ _)).2 := by
    simp only [h, List.getLast_map]
  have hkind : scaled.kindAt = safeguard.kindAt := by
    funext position
    simp only [kindAt, h, List.getLast_map, List.getElem?_map]
    cases safeguard.choices[position]? <;> rfl
  funext value
  have hroll : value * ((safeguard.choices.map Prod.fst).map (factor * ·)).sum =
      factor * (value * (safeguard.choices.map Prod.fst).sum) := by
    rw [List.sum_map_mul_left, List.map_id', mul_left_comm]
  simp only [pick, hkind, hlast, Scalar.sum_eq, hweights, hroll, Weighted.index?_mul hfactor]

theorem draw_mul {safeguard scaled : Safeguard κ Rat} {factor : Rat} (hfactor : 0 < factor)
    (h : scaled.choices = safeguard.choices.map fun choice => (factor * choice.1, choice.2)) :
    scaled.draw = safeguard.draw := by
  have hpick := pick_mul hfactor h
  obtain ⟨first, others⟩ := safeguard
  obtain ⟨scaledFirst, scaledOthers⟩ := scaled
  obtain ⟨rfl, rfl⟩ := List.cons.inj h
  cases others with
  | nil => rfl
  | cons second rest =>
      exact congrArg (fun pick => Sampler.unit >>= fun value => pure (pick value)) hpick

variable {safeguard : Safeguard κ Rat} {value : Rat}

/-- One of the shares holds every draw, because they sum up to one. -/
theorem exists_mem_shares (hpositive : ∀ choice ∈ safeguard.choices, 0 < choice.1)
    (hvalue : InUnit value) :
    ∃ position choice, safeguard.choices[position]? = some choice ∧
      value ∈ Weighted.interval (Weighted.shares (safeguard.choices.map Prod.fst)) position ∧
      Weighted.select? value (Weighted.shares (safeguard.choices.map Prod.fst)) =
        some position ∧
      Weighted.index? (value * (safeguard.choices.map Prod.fst).sum)
        (safeguard.choices.map Prod.fst) = some position := by
  have hweights : ∀ weight ∈ safeguard.choices.map Prod.fst, 0 < weight := by
    rw [List.forall_mem_map]
    exact hpositive
  have hsum : 0 < (safeguard.choices.map Prod.fst).sum :=
    List.sum_pos _ hweights (List.cons_ne_nil _ _)
  have hshares : ∀ share ∈ Weighted.shares (safeguard.choices.map Prod.fst), 0 ≤ share := by
    rw [Weighted.shares, List.forall_mem_map]
    exact fun weight hweight => (div_pos (hweights weight hweight) hsum).le
  have hsome : ∃ position,
      value ∈ Weighted.interval (Weighted.shares (safeguard.choices.map Prod.fst)) position := by
    by_contra hnone
    have hle := Weighted.sum_le_of_not_mem hshares hvalue.1 (not_exists.mp hnone)
    rw [Weighted.sum_shares hsum] at hle
    exact absurd hvalue.2 (not_lt.mpr hle)
  obtain ⟨position, hposition⟩ := hsome
  have hselect := Weighted.select?_of_mem hshares hvalue.1 hposition
  have hindex := (Weighted.index?_eq_some_iff hshares hvalue.1).mpr hposition
  rw [Weighted.index?_shares hsum] at hindex
  have hlt := Weighted.indexFrom?_lt hindex
  rw [List.length_map] at hlt
  exact ⟨position, _, List.getElem?_eq_getElem hlt, hposition, hselect, hindex⟩

/-- A single kind takes no draw. -/
theorem run_draw [DrawSource σ Rat] {position : Nat} {choice : Rat × κ} {source after : σ}
    (hchoice : safeguard.choices[position]? = some choice)
    (hpick : safeguard.pick value = choice.2)
    (hnext : DrawSource.next source = (.ok value, after)) :
    safeguard.draw.run source =
      (.ok choice.2, if safeguard.choices.length = 1 then source else after) := by
  obtain ⟨first, others⟩ := safeguard
  cases others with
  | nil =>
      obtain rfl := getElem?_choices_of_single rfl hchoice
      rfl
  | cons second rest =>
      simp only [draw, Sampler.run_bind, Sampler.run_unit, hnext, hpick, Sampler.run_pure]
      rw [if_neg (by simp [choices])]

end Safeguard

/-- Rules and safeguards pick by the same intervals.  A checked choice goes on with the
branch whose interval holds the roll; if the weights fall short of one and the roll lies
behind them, with the last branch of positive weight; never with one of weight zero.
The safeguard gives the kind whose share of the whole holds the draw: there always is
one, it is the one that a rule would pick, and a common factor changes nothing. -/
theorem Weighted.picks_by_interval [DecidableEq κ] [RegionKind κ] [DrawSource σ Rat] :
    (∀ (owner : κ) (branches : List (Rat × Rule κ Rat)) (roll : Rat),
      (Rule.weighted branches).check owner = .ok () → InUnit roll →
      (∀ position, select? roll (branches.map Prod.fst) = some position ↔
        Picks (branches.map Prod.fst) roll position) ∧
      (∃ position weight branch, Picks (branches.map Prod.fst) roll position ∧
        branches[position]? = some (weight, branch) ∧ 0 < weight ∧
        ∀ (bounds : Rect Rat) (source after : σ), DrawSource.next source = (.ok roll, after) →
          ((Rule.weighted branches).settle bounds).run source =
            (branch.settle bounds).run after) ∧
      ((∀ position, roll ∉ interval (branches.map Prod.fst) position) →
        (branches.map Prod.fst).sum ≤ roll ∧ (branches.map Prod.fst).sum < 1 ∧
          1 - (branches.map Prod.fst).sum ≤ Rule.weightTolerance)) ∧
    ∀ choices : List (Rat × κ), choices ≠ [] → (∀ choice ∈ choices, 0 < choice.1) →
      ∃ safeguard : Safeguard κ Rat,
        Safeguard.ofList choices = .ok safeguard ∧ safeguard.choices = choices ∧
        (∀ value, InUnit value → ∃ position weight kind,
          value ∈ interval (shares (choices.map Prod.fst)) position ∧
          choices[position]? = some (weight, kind) ∧
          select? value (shares (choices.map Prod.fst)) = some position ∧
          index? (value * Scalar.sum (choices.map Prod.fst)) (choices.map Prod.fst) =
            some position ∧
          ∀ source after : σ, DrawSource.next source = (.ok value, after) →
            safeguard.draw.run source =
              (.ok kind, if choices.length = 1 then source else after)) ∧
        ∀ factor, 0 < factor → ∃ scaled : Safeguard κ Rat,
          Safeguard.ofList (choices.map fun choice => (factor * choice.1, choice.2)) =
            .ok scaled ∧ scaled.draw = safeguard.draw := by
  constructor
  · intro owner branches roll hcheck hroll
    obtain ⟨hbranches, total, hchecked, htotal⟩ := Rule.checkBranches_of_check hcheck
    have hweights := Rule.weights_of_checkBranches hchecked
    have hsome := Rule.exists_weight hchecked htotal
    have hlaw : ∀ position, select? roll (branches.map Prod.fst) = some position ↔
        Picks (branches.map Prod.fst) roll position :=
      fun position => select?_eq_some_iff hweights hsome hroll.1
    refine ⟨hlaw, ?_, fun hnone => ?_⟩
    · obtain ⟨position, hselect, hlt⟩ :=
        exists_select? roll (mt List.map_eq_nil_iff.mp hbranches)
      obtain ⟨weight, hweight, hpositive⟩ := select?_eq_some hweights hsome hroll.1 hselect
      rw [List.getElem?_map] at hweight
      obtain ⟨⟨_, branch⟩, hbranch, rfl⟩ := Option.map_eq_some_iff.mp hweight
      refine ⟨position, _, branch, (hlaw position).mp hselect, hbranch, hpositive, ?_⟩
      intro bounds source after hnext
      exact Rule.run_settle_weighted hnext hselect hbranch
    · have hle := sum_le_of_not_mem hweights hroll.1 hnone
      exact ⟨hle, hle.trans_lt hroll.2, (Rule.sum_of_check hcheck).2⟩
  · intro choices hchoices hpositive
    obtain ⟨safeguard, hsafeguard, rfl⟩ := Safeguard.ofList_of_pos hchoices hpositive
    refine ⟨safeguard, hsafeguard, rfl, fun value hvalue => ?_, fun factor hfactor => ?_⟩
    · obtain ⟨position, ⟨weight, kind⟩, hchoice, hmem, hselect, hindex⟩ :=
        Safeguard.exists_mem_shares hpositive hvalue
      refine ⟨position, weight, kind, hmem, hchoice, hselect, ?_, ?_⟩
      · rwa [Scalar.sum_eq]
      · intro source after hnext
        exact Safeguard.run_draw hchoice (Safeguard.pick_eq hchoice hindex) hnext
    · have hscaled : ∀ choice ∈ safeguard.choices.map fun choice => (factor * choice.1, choice.2),
          0 < choice.1 := by
        rw [List.forall_mem_map]
        exact fun choice hchoice => mul_pos hfactor (hpositive choice hchoice)
      obtain ⟨scaled, hofList, hsame⟩ :=
        Safeguard.ofList_of_pos (mt List.map_eq_nil_iff.mp hchoices) hscaled
      exact ⟨scaled, hofList, Safeguard.draw_mul hfactor hsame⟩

namespace Garden

/-- Branches whose weights fall a little short of one; two of them have none. -/
def shortOfOne : List (Rat × Rule Kind Rat) :=
  [(1 / 2, .always .terminal), (0, .always (.fill .pond)),
    (4999995 / 10000000, .always (.fill .path)), (0, .always (.fill .grass))]

/-- A roll behind all intervals takes the third branch; the grass has two thirds of the
safeguard, or of one with three times the weights. -/
theorem picks_by_interval_short :
    (Rule.weighted shortOfOne).check Kind.zone = .ok () ∧
    InUnit (9999999 / 10000000 : Rat) ∧
    Weighted.Picks (shortOfOne.map Prod.fst) (9999999 / 10000000) 2 ∧
    (∀ position, (9999999 / 10000000 : Rat) ∉
      Weighted.interval (shortOfOne.map Prod.fst) position) ∧
    (∀ choice ∈ [((2 : Rat), Kind.grass), (1, .pond)], 0 < choice.1) ∧
    ∃ safeguard : Safeguard Kind Rat,
      Safeguard.ofList [((2 : Rat), Kind.grass), (1, .pond)] = .ok safeguard ∧
      safeguard.draw.run (⟨1 / 2⟩ : Steady Rat) = (.ok .grass, ⟨1 / 2⟩) ∧
      ∃ scaled : Safeguard Kind Rat,
        Safeguard.ofList [((6 : Rat), Kind.grass), (3, .pond)] = .ok scaled ∧
        scaled.draw = safeguard.draw := by
  obtain ⟨hrules, hsafeguards⟩ := @Weighted.picks_by_interval Kind (Steady Rat) _ _ _
  have hcheck : (Rule.weighted shortOfOne).check Kind.zone = .ok () := by decide +kernel
  have hroll : InUnit (9999999 / 10000000 : Rat) := by
    constructor <;> decide +kernel
  have hpositive : ∀ choice ∈ [((2 : Rat), Kind.grass), (1, .pond)], 0 < choice.1 := by
    decide +kernel
  have hhalf : InUnit (1 / 2 : Rat) := by
    constructor <;> decide +kernel
  obtain ⟨hlaw, _, _⟩ := hrules Kind.zone shortOfOne _ hcheck hroll
  have hpicks := (hlaw 2).mp (by decide +kernel)
  have hnone : ∀ position, (9999999 / 10000000 : Rat) ∉
      Weighted.interval (shortOfOne.map Prod.fst) position := by
    intro position hmem
    obtain rfl : 2 = position :=
      Option.some.inj (((hlaw 2).mpr hpicks).symm.trans ((hlaw position).mpr (.within hmem)))
    exact absurd hmem.2 (by decide +kernel)
  obtain ⟨safeguard, hofList, _, hdraws, hscaled⟩ :=
    hsafeguards _ (List.cons_ne_nil _ _) hpositive
  obtain ⟨position, weight, kind, _, hchoice, _, hindex, hrun⟩ := hdraws (1 / 2) hhalf
  have hfirst : Weighted.index? ((1 / 2 : Rat) * Scalar.sum [2, 1]) [2, 1] = some 0 := by
    decide +kernel
  obtain rfl : (0 : Nat) = position := Option.some.inj (hfirst.symm.trans hindex)
  obtain ⟨rfl, rfl⟩ := Prod.mk.inj (Option.some.inj hchoice)
  obtain ⟨scaled, hscaledOf, hsame⟩ := hscaled 3 (by decide +kernel)
  have hweights : [((2 : Rat), Kind.grass), (1, .pond)].map
      (fun choice => (3 * choice.1, choice.2)) = [(6, .grass), (3, .pond)] := by
    decide +kernel
  rw [hweights] at hscaledOf
  exact ⟨hcheck, hroll, hpicks, hnone, hpositive, safeguard, hofList, hrun _ _ rfl, scaled,
    hscaledOf, hsame⟩

end Garden

end Parterre
