/-
When runs end.  If every region has a rank that goes down to its pending
children, the levels of a run are used up.  A rank is at hand when the depth is
limited, and also when every cut makes some side shorter, because then regions
get smaller or keep their size and lead to a kind further down.
-/
import Parterre.Proofs.LevelOrder
import Parterre.Proofs.Shrinking

namespace Parterre

variable {κ α : Type} [Scalar α] {admits : α → Prop}

/-- A pending child of an expanded region has its size and a kind that the step
leads to at full size, or it is a part of a dividing cut. -/
theorem Step.Gives.pending_cases {bounds : Rect α} {frame : κ} {step : Step κ α}
    {expansion : Expansion κ α} (h : step.Gives admits bounds frame expansion)
    {part : κ × Rect α} (hpart : part ∈ (Verdict.expanded expansion).pending) :
    (part.2 = bounds ∧ part.1 ∈ step.sameSizeKinds frame) ∨
      ∃ kinds cut rects, step.Lays admits bounds kinds cut ∧ cut ≠ .whole ∧
        cut.parts bounds = .ok rects ∧ part ∈ kinds.zip rects := by
  cases h with
  | terminal => cases hpart
  | @laid _ kinds cut rects hlays hparts =>
      by_cases hwhole : cut = .whole
      · left
        obtain ⟨kind, rect⟩ := part
        obtain ⟨hkind, hrect⟩ := List.of_mem_zip hpart
        subst hwhole
        cases hlays
        rw [(Cut.eq_outline_of_parts hparts).1] at hrect
        exact ⟨List.mem_singleton.mp hrect, hkind⟩
      · exact Or.inr ⟨kinds, cut, rects, hlays, hwhole, hparts, hpart⟩
  | embed hmargin hroom hinset =>
      left
      obtain rfl := List.mem_singleton.mp hpart
      exact ⟨rfl, List.mem_singleton_self _⟩

/-- The pending children of a proper region are proper. -/
theorem Step.Gives.proper_of_mem_pending {bounds : Rect α} {frame : κ} {step : Step κ α}
    {expansion : Expansion κ α} (h : step.Gives admits bounds frame expansion)
    (hbounds : bounds.Proper) {part : κ × Rect α}
    (hpart : part ∈ (Verdict.expanded expansion).pending) : part.2.Proper := by
  rcases h.pending_cases hpart with ⟨hsame, _⟩ | ⟨kinds, cut, rects, _, _, hparts, hmem⟩
  · exact hsame ▸ hbounds
  · exact Cut.proper_of_parts hbounds hparts (List.of_mem_zip hmem).2

namespace Engine

variable [DecidableEq κ] [RegionKind κ] {engine : Engine κ α}

/-- Whatever admitted draws a run gets, it is over after some number of
regions. -/
def Ends (engine : Engine κ α) (admits : α → Prop) : Prop :=
  ∀ (σ : Type) [DrawSource σ α] (source : σ) (width height : α),
    DrawSource.Delivers admits source →
      ∃ limit, ((engine.run limit width height).run source).1 ≠ .ok none

/-- A region with a pending child was neither stopped nor without a rule. -/
theorem pending_of_judge {kind : κ} {bounds : Rect α} {depth : Nat} {verdict : Verdict κ α}
    (h : Sampler.Outcome admits (engine.judge kind bounds depth) (.ok verdict))
    {part : κ × Rect α} (hpart : part ∈ verdict.pending) :
    (engine.settings.isUndersized bounds || engine.settings.isCapped depth) = false ∧
      ∃ rule step expansion, engine.table.rule? kind = some rule ∧
        Sampler.Outcome admits (rule.settle bounds) (.ok step) ∧
        step.Gives admits bounds engine.settings.frame expansion ∧
        part ∈ (Verdict.expanded expansion).pending := by
  rcases outcome_judge h with
    ⟨_, final, rfl, _⟩ | ⟨hgoes, rule, step, expansion, hrule, hsettle, hgives, rfl⟩
  · cases hpart
  · exact ⟨hgoes, rule, step, expansion, hrule, hsettle, hgives, hpart⟩

theorem proper_of_judge {kind : κ} {bounds : Rect α} {depth : Nat} {verdict : Verdict κ α}
    (h : Sampler.Outcome admits (engine.judge kind bounds depth) (.ok verdict))
    (hbounds : bounds.Proper) {part : κ × Rect α} (hpart : part ∈ verdict.pending) :
    part.2.Proper := by
  obtain ⟨_, rule, step, expansion, _, _, hgives, hmem⟩ := pending_of_judge h hpart
  exact hgives.proper_of_mem_pending hbounds hmem

/-- A rank of regions at a depth that goes down to pending children. -/
def Falls (engine : Engine κ α) (admits : α → Prop) (rank : Nat → κ → Rect α → Nat) : Prop :=
  ∀ depth kind bounds verdict, bounds.Proper →
    Sampler.Outcome admits (engine.judge kind bounds depth) (.ok verdict) →
    ∀ part ∈ verdict.pending, rank (depth + 1) part.1 part.2 < rank depth kind bounds

variable {rank : Nat → κ → Rect α → Nat}

/-- More levels than the rank of every region are not needed. -/
theorem levels_ne_none (hfalls : engine.Falls admits rank) {height depth : Nat}
    {regions : List (κ × Rect α)}
    (hregions : ∀ part ∈ regions, part.2.Proper ∧ rank depth part.1 part.2 < height) :
    ¬ Sampler.Outcome admits (engine.levels height depth regions) (.ok none) := by
  induction height generalizing depth regions with
  | zero =>
      intro h
      cases regions with
      | nil => simp at h
      | cons part rest =>
          obtain ⟨_, hrank⟩ := hregions part List.mem_cons_self
          exact absurd hrank (Nat.not_lt_zero _)
  | succ height ih =>
      intro h
      by_cases hempty : regions = []
      · subst hempty
        simp at h
      · simp only [engine.levels_succ height depth hempty, Sampler.outcome_bind_ok_iff,
          Sampler.outcome_pure_iff, Except.ok.injEq] at h
        obtain ⟨judged, hjudged, below, hbelow, hnone⟩ := h
        obtain rfl := Option.map_eq_none_iff.mp hnone.symm
        refine ih ?_ hbelow
        intro part hpart
        obtain ⟨region, hregion, hpending⟩ := List.mem_flatMap.mp hpart
        obtain ⟨_, hmem, rfl, hverdict⟩ :=
          exists_of_forall₂_of_mem (forall₂_of_outcome_judgeLevel hjudged) hregion
        obtain ⟨hproper, hrank⟩ := hregions _ hmem
        refine ⟨proper_of_judge hverdict hproper hpending, ?_⟩
        have hfall := hfalls depth _ _ _ hproper hverdict part hpending
        exact Nat.lt_of_lt_of_le hfall (Nat.le_of_lt_succ hrank)

/-- A run whose regions have a falling rank ends. -/
theorem ends_of_falls (rank : Nat → κ → Rect α → Nat)
    (hfalls : engine.Falls admits rank) : engine.Ends admits := by
  intro σ _ source width height hsource
  cases hlevels : (engine.runByLevels
      (rank 0 engine.settings.root ⟨0, 0, width, height⟩ + 1) width height).run source with
  | mk trees after =>
      have hended : trees ≠ .ok none := by
        rintro rfl
        obtain ⟨houtcome, _⟩ := Sampler.outcome_of_run hsource hlevels
        simp only [runByLevels, Sampler.outcome_bind_ok_iff, Sampler.outcome_lift_iff]
          at houtcome
        obtain ⟨bounds, hbounds, hnone⟩ := houtcome
        obtain ⟨rfl, hproper⟩ := Rect.checked_eq_ok_iff.mp hbounds.symm
        refine levels_ne_none hfalls ?_ hnone
        intro part hpart
        obtain rfl := List.mem_singleton.mp hpart
        exact ⟨hproper, Nat.lt_succ_self _⟩
      obtain ⟨limit, hlimit⟩ := run_of_runByLevels hlevels hended
      obtain ⟨result, hrun, hmap⟩ := hlimit limit (Nat.le_refl _)
      refine ⟨limit, ?_⟩
      rw [hrun]
      rintro rfl
      exact hended hmap

/-- With a limited depth every run ends. -/
theorem ends_of_maxDepth {cap : Nat} (h : engine.settings.maxDepth = some cap) :
    engine.Ends admits := by
  apply ends_of_falls fun depth _ _ => cap - depth
  intro depth kind bounds verdict _ hverdict part hpart
  obtain ⟨hgoes, _⟩ := pending_of_judge hverdict hpart
  rw [Bool.or_eq_false_iff, Settings.isCapped_eq h] at hgoes
  have hdepth := of_decide_eq_false hgoes.2
  change cap - (depth + 1) < cap - depth
  omega

theorem minDim_of_accepted (engine : Engine κ α) :
    0 < engine.settings.minDim ∧ Scalar.isFinite engine.settings.minDim = true := by
  obtain ⟨_, hsettings, _⟩ := bind_eq_ok_iff.mp engine.accepted
  rw [Settings.check] at hsettings
  by_cases hminDim : ¬ 0 < engine.settings.minDim ∨
      ¬ Scalar.isFinite engine.settings.minDim = true
  · rw [if_pos hminDim] at hsettings
    cases hsettings
  · rw [not_or, Decidable.not_not, Decidable.not_not] at hminDim
    exact hminDim

theorem checkShrinks_of_accepted (engine : Engine κ α) :
    engine.table.checkShrinks engine.settings.frame = .ok () := by
  obtain ⟨_, _, hkinds⟩ := bind_eq_ok_iff.mp engine.accepted
  split at hkinds
  · cases hkinds
  · exact hkinds

/-- Every part of a dividing cut that a region of the engine may get is of a
smaller size. -/
def Divides (engine : Engine κ α) (admits : α → Prop) (size : Rect α → Nat) : Prop :=
  ∀ kind rule step bounds kinds cut rects, bounds.Proper →
    engine.settings.isUndersized bounds = false →
    engine.table.rule? kind = some rule → step ∈ rule.ends →
    step.Lays admits bounds kinds cut → cut ≠ .whole → cut.parts bounds = .ok rects →
    ∀ rect ∈ rects, size rect < size bounds

/-- If cuts make regions smaller, a region gets smaller or keeps its size and
leads to a kind further down. -/
theorem ends_of_divides [Scalar.Weighs α] (hcomplete : RegionKind.Complete κ)
    (hadmits : ∀ value, admits value → 0 ≤ value) (size : Rect α → Nat)
    (hsize : engine.Divides admits size) : engine.Ends admits := by
  apply ends_of_falls fun _ kind bounds => size bounds * (Nat.card κ + 1) +
    engine.table.height engine.settings.frame kind
  intro depth kind bounds verdict hproper hverdict part hpart
  obtain ⟨hgoes, rule, step, expansion, hrule, hsettle, hgives, hmem⟩ :=
    pending_of_judge hverdict hpart
  have hlarge := (Bool.or_eq_false_iff.mp hgoes).1
  have hend := rule.mem_ends_of_settle hadmits (RuleTable.check_of_rule? hrule) hsettle
  change size part.2 * (Nat.card κ + 1) + _ < size bounds * (Nat.card κ + 1) + _
  rcases hgives.pending_cases hmem with
    ⟨hsame, hkind⟩ | ⟨kinds, cut, rects, hlays, hdivides, hparts, hpair⟩
  · have hleads := RuleTable.leads_of_mem_ends hrule hend hkind
    have hlower := RuleTable.height_lt hcomplete engine.checkShrinks_of_accepted hleads
    rw [hsame]
    omega
  · have hsmaller := hsize kind rule step bounds kinds cut rects hproper hlarge hrule hend
      hlays hdivides hparts part.2 (List.of_mem_zip hpair).2
    have hheight := engine.table.height_le_card hcomplete engine.settings.frame part.1
    calc size part.2 * (Nat.card κ + 1) + engine.table.height engine.settings.frame part.1
        < (size part.2 + 1) * (Nat.card κ + 1) := by
          rw [Nat.succ_mul]
          omega
      _ ≤ size bounds * (Nat.card κ + 1) := Nat.mul_le_mul_right _ hsmaller
      _ ≤ _ := Nat.le_add_right _ _

end Engine

end Parterre
