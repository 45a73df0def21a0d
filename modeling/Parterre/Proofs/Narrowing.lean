/-
When cuts of rounded lengths make regions smaller.  A cut may round away what it
takes off: the rest of a long side can be the whole side again.  A range of
shares bites if that never happens to a side that still is to be cut, and then
every part of a dividing cut is shorter than its region in some direction.
-/
import Parterre.Proofs.Binary64.Order
import Parterre.Proofs.Termination

namespace Parterre

open Binary64

variable {κ : Type}

instance : Scalar.Weighs Float where
  not_lt_zero := Binary64.not_lt_of_le
  lt_add_iff := lt_add_iff
  zero_add_eq := zero_add_eq
  zero_not_total := by decide +kernel

/-- The draws of a run. -/
def Uniform (value : Float) : Prop :=
  0 ≤ value ∧ value < 1

/-- Taking the share off a side that reaches the minimum is not rounded away. -/
def ShareBites (minDim share : Float) : Prop :=
  ∀ side : Float, side.isFinite = true → minDim ≤ side → 0 < side * share →
    (side * share).isFinite = true → side - side * share < side

/-- Every share that is drawn from the range bites. -/
def ShareRange.Bites (range : ShareRange Float) (minDim : Float) : Prop :=
  ∀ draw, Uniform draw → ShareBites minDim (range.min + draw * (range.max - range.min))

/-- The ranges of a table that a region may be cut with. -/
def RuleTable.ranges {α : Type} [DecidableEq κ] [RegionKind κ] [Scalar α]
    (table : RuleTable κ α) : List (ShareRange α) :=
  table.entries.flatMap fun entry => entry.2.ends.flatMap Step.ranges

instance finite_float : Finite Float := by
  apply Finite.of_injective fun number : Float => number.toBits.toBitVec.toFin
  intro first second h
  exact Float.toBits_inj.mp (UInt64.toBitVec_inj.mp (BitVec.toFin_inj.mp h))

theorem exact_one : exact 1 = 1 := by
  have hunpack : (1 : Float).toModel.unpack =
      .finite .positive (2 ^ 52) (-52) (by decide) := rfl
  rw [exact, hunpack, unpackedValue, signed]
  norm_num

theorem exact_two : exact ((1 : Float) + 1) = 2 := by
  have hunpack : ((1 : Float) + 1).toModel.unpack =
      .finite .positive (2 ^ 52) (-51) (by decide) := rfl
  rw [exact, hunpack, unpackedValue, signed]
  norm_num

/-- Half a side is not rounded away. -/
theorem half_lt {side : Float} (hside : 0 < exact side)
    (hhalf : 0 < exact (Scalar.half side)) :
    exact (side - Scalar.half side) < exact side := by
  have hdiv : Computes (Scalar.half side) (exact side / 2) := by
    rw [← exact_two]
    exact computes_div (isFinite_of_exact_pos hside) (exact_two ▸ two_ne_zero)
  have hshare : exact side * 2 ^ (-52 : Int) ≤ exact side / 2 := by
    rw [div_eq_mul_inv]
    exact mul_le_mul_of_nonneg_left (by norm_num) hside.le
  exact exact_sub_lt hside (quantum_le_exact hside hshare hdiv hhalf)
    (isFinite_of_exact_pos hhalf) (isFinite_sub hside hhalf).1

section Lengths

variable {minDim side width share : Float}

/-- Both parts of a side are shorter. -/
theorem parts_lt (hshare : ShareBites minDim share) (hside : 0 < exact side)
    (hmin : minDim ≤ side) (hfirst : 0 < exact (side * share))
    (hsecond : 0 < exact (side - side * share)) :
    exact (side * share) < exact side ∧ exact (side - side * share) < exact side := by
  have hfinite := isFinite_of_exact_pos hside
  have hfinite' := isFinite_of_exact_pos hfirst
  have hpositive : 0 < side * share := (lt_iff rfl hfinite').mpr hfirst
  have hrest := hshare side hfinite hmin hpositive hfinite'
  exact ⟨lt_of_sub_pos hside hfirst hsecond,
    (lt_iff (isFinite_of_exact_pos hsecond) hfinite).mp hrest⟩

/-- A strip and the parts on both sides of it are shorter, because what the strip
leaves is not longer, and it is either cut like a side or below the minimum. -/
theorem corridor_lt (hshare : ShareBites minDim share) (hside : 0 < exact side)
    (hmin : exact minDim ≤ exact side) (hfinite : minDim.isFinite = true)
    (hroom : ¬ side - width ≤ 0) (hwidth : 0 < exact width)
    (hfirst : 0 < exact ((side - width) * share))
    (hsecond : 0 < exact (side - width - (side - width) * share)) :
    exact ((side - width) * share) < exact side ∧ exact width < exact side ∧
      exact (side - width - (side - width) * share) < exact side := by
  obtain ⟨hleft, hle⟩ := isFinite_sub hside hwidth
  rw [le_iff hleft rfl, exact_zero, not_le] at hroom
  have hstrip := lt_of_sub_pos hside hwidth hroom
  have hlower := lt_of_sub_pos hroom hfirst hsecond
  refine ⟨hlower.trans_le hle, hstrip, ?_⟩
  by_cases hcut : minDim ≤ side - width
  · exact (parts_lt hshare hroom hcut hfirst hsecond).2.trans_le hle
  · rw [le_iff hfinite hleft, not_le] at hcut
    exact (isFinite_sub hroom hfirst).2.trans_lt (hcut.trans_le hmin)

/-- A share of a valid range is computed and is not below the range. -/
theorem ShareRange.le_share {range : ShareRange Float} {draw : Float}
    (hvalid : range.isValid = true) (hdraw : Uniform draw) :
    (range.min + draw * (range.max - range.min)).isFinite = true ∧
      exact range.min ≤ exact (range.min + draw * (range.max - range.min)) := by
  obtain ⟨hnonneg, hone⟩ := hdraw
  simp only [ShareRange.isValid, Bool.and_eq_true, decide_eq_true_eq] at hvalid
  obtain ⟨⟨hpositive, hmax⟩, hle⟩ := hvalid
  have hlow : range.min.isFinite = true :=
    isFinite_of_le_of_lt rfl rfl (Binary64.le_of_lt hpositive) (Binary64.lt_of_le_of_lt hle hmax)
  have hhigh : range.max.isFinite = true := isFinite_of_le_of_lt hlow rfl hle hmax
  have hdraw : draw.isFinite = true := isFinite_of_le_of_lt rfl rfl hnonneg hone
  rw [lt_iff rfl hlow, exact_zero] at hpositive
  rw [lt_iff hhigh rfl, exact_one] at hmax
  rw [le_iff hlow hhigh] at hle
  rw [le_iff rfl hdraw, exact_zero] at hnonneg
  rw [lt_iff hdraw rfl, exact_one] at hone
  obtain ⟨hspread, hspreadLow, hspreadHigh⟩ := (computes_sub hhigh hlow).between
    0 range.max (by rw [exact_zero]; linarith) (by linarith)
  rw [exact_zero] at hspreadLow
  obtain ⟨hpart, hpartLow, hpartHigh⟩ := (computes_mul hdraw hspread).between
    0 (range.max - range.min) (mul_nonneg hnonneg hspreadLow)
    (mul_le_of_le_one_left hspreadLow hone.le)
  rw [exact_zero] at hpartLow
  obtain ⟨hshare, hshareLow, _⟩ := (computes_add hlow hpart).between
    range.min (1 + 1) (by linarith) (by rw [exact_two]; linarith)
  exact ⟨hshare, hshareLow⟩

/-- A valid range whose shares are not too small bites, since such a share of a
side is at least a unit of its last digit. -/
theorem ShareRange.bites_of_le {range : ShareRange Float} (hvalid : range.isValid = true)
    (hmin : 2 ^ (-52 : Int) ≤ exact range.min)
    (hminDim : 0 < minDim ∧ minDim.isFinite = true) : range.Bites minDim := by
  intro draw hdraw side hfinite hreach hfirst hfinite'
  obtain ⟨hshare, hlow⟩ := ShareRange.le_share hvalid hdraw
  have hpositive := (lt_iff rfl hminDim.2).mp hminDim.1
  have hside : 0 < exact side := hpositive.trans_le ((le_iff hminDim.2 hfinite).mp hreach)
  rw [lt_iff rfl hfinite', exact_zero] at hfirst
  have hproduct : exact side * 2 ^ (-52 : Int) ≤
      exact side * exact (range.min + draw * (range.max - range.min)) :=
    mul_le_mul_of_nonneg_left (hmin.trans hlow) hside.le
  have hunit := quantum_le_exact hside hproduct (computes_mul hfinite hshare) hfirst
  have hrest := (isFinite_sub hside hfirst).1
  exact (lt_iff hrest hfinite).mpr (exact_sub_lt hside hunit hfinite' hrest)

end Lengths

namespace Rect

/-- No side is longer, and one is shorter. -/
def Smaller (rect bounds : Rect Float) : Prop :=
  exact rect.width ≤ exact bounds.width ∧ exact rect.height ≤ exact bounds.height ∧
    (exact rect.width < exact bounds.width ∨ exact rect.height < exact bounds.height)

theorem Proper.exact_pos {bounds : Rect Float} (h : bounds.Proper) (axis : Axis) :
    0 < exact (bounds.extent axis) := by
  obtain ⟨hfinite, hwidth, hheight⟩ := h
  simp only [isFinite, Bool.and_eq_true] at hfinite
  obtain ⟨⟨_, hfiniteWidth⟩, hfiniteHeight⟩ := hfinite
  rw [le_iff hfiniteWidth rfl, exact_zero, not_le] at hwidth
  rw [le_iff hfiniteHeight rfl, exact_zero, not_le] at hheight
  cases axis with
  | vertical => exact hwidth
  | horizontal => exact hheight

theorem smaller_slice {bounds : Rect Float} {axis : Axis} {start length : Float}
    (h : exact length < exact (bounds.extent axis)) :
    (bounds.slice axis start length).Smaller bounds := by
  cases axis with
  | vertical => exact ⟨h.le, le_rfl, Or.inl h⟩
  | horizontal => exact ⟨le_rfl, h.le, Or.inr h⟩

theorem Proper.slice_pos {bounds : Rect Float} {axis : Axis} {start length : Float}
    (h : (bounds.slice axis start length).Proper) : 0 < exact length := by
  cases axis with
  | vertical => exact h.exact_pos .vertical
  | horizontal => exact h.exact_pos .horizontal

/-- The number of scalars below a scalar. -/
noncomputable def below (number : Float) : Nat :=
  {other : Float | exact other < exact number}.ncard

theorem below_le {first second : Float} (h : exact first ≤ exact second) :
    below first ≤ below second :=
  Set.ncard_le_ncard (fun _ hother => lt_of_lt_of_le hother h) (Set.toFinite _)

theorem below_lt {first second : Float} (h : exact first < exact second) :
    below first < below second := by
  apply Set.ncard_lt_ncard _ (Set.toFinite _)
  refine ⟨fun other hother => lt_trans hother h, fun hsubset => ?_⟩
  exact lt_irrefl (exact first) (hsubset h)

/-- The number of scalars below the sides. -/
noncomputable def size (bounds : Rect Float) : Nat :=
  below bounds.width + below bounds.height

theorem size_lt {rect bounds : Rect Float} (h : rect.Smaller bounds) :
    rect.size < bounds.size := by
  obtain ⟨hwidth, hheight, hless | hless⟩ := h
  · exact Nat.add_lt_add_of_lt_of_le (below_lt hless) (below_le hheight)
  · exact Nat.add_lt_add_of_le_of_lt (below_le hwidth) (below_lt hless)

end Rect

namespace Cut

variable {minDim : Float} {bounds rect : Rect Float} {rects : List (Rect Float)}

theorem smaller_of_across {axis : Axis} {share : Float} (hshare : ShareBites minDim share)
    (hbounds : bounds.Proper) (hmin : minDim ≤ bounds.extent axis)
    (hparts : (Cut.across axis share).parts bounds = .ok rects) (hrect : rect ∈ rects) :
    rect.Smaller bounds := by
  obtain ⟨rfl, hwhole | hproper⟩ := eq_outline_of_parts hparts
  · cases hwhole
  simp only [outline, List.forall_mem_cons, List.not_mem_nil, false_implies, implies_true,
    and_true] at hproper
  obtain ⟨hfirst, hsecond⟩ := parts_lt hshare (hbounds.exact_pos axis) hmin
    hproper.1.slice_pos hproper.2.slice_pos
  simp only [outline, List.mem_cons, List.not_mem_nil, or_false] at hrect
  rcases hrect with rfl | rfl
  · exact Rect.smaller_slice hfirst
  · exact Rect.smaller_slice hsecond

theorem smaller_of_corridor {axis : Axis} {width share : Float}
    (hshare : ShareBites minDim share) (hbounds : bounds.Proper)
    (hmin : exact minDim ≤ exact (bounds.extent axis)) (hfinite : minDim.isFinite = true)
    (hparts : (Cut.corridor axis width share).parts bounds = .ok rects)
    (hrect : rect ∈ rects) : rect.Smaller bounds := by
  have hroom : ¬ bounds.extent axis - width ≤ 0 := by
    intro hnone
    rw [parts, if_pos hnone] at hparts
    cases hparts
  obtain ⟨rfl, hwhole | hproper⟩ := eq_outline_of_parts hparts
  · cases hwhole
  simp only [outline, List.forall_mem_cons, List.not_mem_nil, false_implies, implies_true,
    and_true] at hproper
  obtain ⟨hfirst, hstrip, hsecond⟩ := hproper
  obtain ⟨hfirst, hstrip, hsecond⟩ := corridor_lt hshare (hbounds.exact_pos axis) hmin hfinite
    hroom hstrip.slice_pos hfirst.slice_pos hsecond.slice_pos
  simp only [outline, List.mem_cons, List.not_mem_nil, or_false] at hrect
  rcases hrect with rfl | rfl | rfl
  · exact Rect.smaller_slice hfirst
  · exact Rect.smaller_slice hstrip
  · exact Rect.smaller_slice hsecond

theorem smaller_of_quarters (hbounds : bounds.Proper)
    (hparts : Cut.quarters.parts bounds = .ok rects) (hrect : rect ∈ rects) :
    rect.Smaller bounds := by
  obtain ⟨rfl, hwhole | hproper⟩ := eq_outline_of_parts hparts
  · cases hwhole
  have hwidth := hbounds.exact_pos .vertical
  have hheight := hbounds.exact_pos .horizontal
  simp only [outline, List.forall_mem_cons, List.not_mem_nil, false_implies, implies_true,
    and_true] at hproper
  obtain ⟨hfirst, _, _, hlast⟩ := hproper
  have hleft := lt_of_sub_pos hwidth (hfirst.exact_pos .vertical) (hlast.exact_pos .vertical)
  have htop := lt_of_sub_pos hheight (hfirst.exact_pos .horizontal)
    (hlast.exact_pos .horizontal)
  have hright := half_lt hwidth (hfirst.exact_pos .vertical)
  have hbottom := half_lt hheight (hfirst.exact_pos .horizontal)
  simp only [outline, List.mem_cons, List.not_mem_nil, or_false] at hrect
  rcases hrect with rfl | rfl | rfl | rfl
  · exact ⟨hleft.le, htop.le, Or.inl hleft⟩
  · exact ⟨hright.le, htop.le, Or.inl hright⟩
  · exact ⟨hleft.le, hbottom.le, Or.inl hleft⟩
  · exact ⟨hright.le, hbottom.le, Or.inl hright⟩

end Cut

theorem ShareRange.bites_of_draw {range : ShareRange Float} {minDim share : Float}
    (h : range.Bites minDim)
    (hdraw : Sampler.Outcome Uniform range.draw (.ok share)) : ShareBites minDim share := by
  simp only [ShareRange.draw, Sampler.range, Sampler.outcome_bind_ok_iff,
    Sampler.outcome_unit_iff, Sampler.outcome_pure_iff, Except.ok.injEq] at hdraw
  obtain ⟨draw, huniform, rfl⟩ := hdraw
  exact h draw huniform

/-- The parts that a step cuts a large enough region into are smaller. -/
theorem Step.Lays.smaller {minDim : Float} {bounds rect : Rect Float}
    {rects : List (Rect Float)} {step : Step κ Float} {kinds : List κ} {cut : Cut Float}
    (h : step.Lays Uniform bounds kinds cut)
    (hbites : ∀ range ∈ step.ranges, range.Bites minDim)
    (hbounds : bounds.Proper) (hfinite : minDim.isFinite = true)
    (hmin : ∀ axis, minDim ≤ bounds.extent axis) (hdivides : cut ≠ .whole)
    (hparts : cut.parts bounds = .ok rects) (hrect : rect ∈ rects) : rect.Smaller bounds := by
  cases h with
  | fill kind => exact absurd rfl hdivides
  | @bisect _ ratio _ _ axis share _ hshare =>
      have hrange : ratio.Bites minDim := hbites ratio List.mem_cons_self
      have hshareBites := ShareRange.bites_of_draw hrange hshare
      exact Cut.smaller_of_across hshareBites hbounds (hmin axis) hparts hrect
  | quarter => exact Cut.smaller_of_quarters hbounds hparts hrect
  | @corridor _ _ ratio _ _ _ axis share _ hshare =>
      have hrange : ratio.Bites minDim := hbites ratio List.mem_cons_self
      have hside := isFinite_of_exact_pos (hbounds.exact_pos axis)
      exact Cut.smaller_of_corridor (ShareRange.bites_of_draw hrange hshare) hbounds
        ((le_iff hfinite hside).mp (hmin axis)) hfinite hparts hrect
  | @mixTwo _ _ _ _ ratio axis share _ _ _ hshare =>
      have hrange : ratio.Bites minDim := hbites ratio List.mem_cons_self
      have hshareBites := ShareRange.bites_of_draw hrange hshare
      exact Cut.smaller_of_across hshareBites hbounds (hmin axis) hparts hrect
  | mixFour => exact Cut.smaller_of_quarters hbounds hparts hrect

theorem RuleTable.mem_ranges {α : Type} [DecidableEq κ] [RegionKind κ] [Scalar α]
    {table : RuleTable κ α} {kind : κ} {rule : Rule κ α} {step : Step κ α}
    (hrule : table.rule? kind = some rule) (hstep : step ∈ rule.ends) {range : ShareRange α}
    (hrange : range ∈ step.ranges) : range ∈ table.ranges := by
  apply List.mem_flatMap.mpr
  exact ⟨_, mem_of_rule? hrule, List.mem_flatMap.mpr ⟨step, hstep, hrange⟩⟩

namespace Engine

variable [DecidableEq κ] [RegionKind κ]

theorem minDim_le {engine : Engine κ Float} {bounds : Rect Float} (hbounds : bounds.Proper)
    (h : engine.settings.isUndersized bounds = false) (axis : Axis) :
    engine.settings.minDim ≤ bounds.extent axis := by
  have hfinite := engine.minDim_of_accepted.2
  have hside := isFinite_of_exact_pos (hbounds.exact_pos axis)
  rw [Settings.isUndersized, Bool.or_eq_false_iff] at h
  have hlarge : ¬ bounds.extent axis < engine.settings.minDim := by
    cases axis with
    | vertical => exact of_decide_eq_false h.1
    | horizontal => exact of_decide_eq_false h.2
  rw [lt_iff hside hfinite, not_lt] at hlarge
  exact (le_iff hfinite hside).mpr hlarge

/-- A run over ranges that bite ends, and so does every run of limited depth. -/
theorem ends_of_bites {engine : Engine κ Float} (hcomplete : RegionKind.Complete κ)
    (hbites : engine.settings.maxDepth = none →
      ∀ range ∈ engine.table.ranges, range.Bites engine.settings.minDim) :
    engine.Ends Uniform := by
  cases hdepth : engine.settings.maxDepth with
  | some cap => exact ends_of_maxDepth hdepth
  | none =>
      apply ends_of_divides hcomplete (fun value hvalue => hvalue.1) Rect.size
      intro kind rule step bounds kinds cut rects hbounds hlarge hrule hstep hlays hdivides
        hparts rect hrect
      apply Rect.size_lt
      refine hlays.smaller ?_ hbounds engine.minDim_of_accepted.2 (minDim_le hbounds hlarge)
        hdivides hparts hrect
      exact fun range hrange => hbites hdepth range (RuleTable.mem_ranges hrule hstep hrange)

end Engine

end Parterre
