/-
How much a cut takes off, over the exact rationals.  The parts of a cut are not
longer than the rectangle in any direction, and shorter by a factor of the table
in some direction.  Only the strip of a corridor may be nearly as long as the
side it is taken from.
-/
import Parterre.Proofs.Checked
import Parterre.Proofs.Tiling
import Parterre.Source.Script

namespace Parterre

variable {κ : Type}

theorem Scalar.half_eq (value : Rat) : half value = value / 2 := by
  change value / (1 + 1) = value / 2
  norm_num

/-- The draws of a run. -/
def InUnit {α : Type} [Scalar α] (value : α) : Prop :=
  0 ≤ value ∧ value < 1

/-- A script gives nothing else. -/
theorem Script.delivers_inUnit {α : Type} [Scalar α] (script : Script α) :
    DrawSource.Delivers InUnit script := by
  intro count value hvalue
  generalize DrawSource.advance^[count] script = later at hvalue
  change (later.next).1 = .ok value at hvalue
  unfold next at hvalue
  split at hvalue
  · cases hvalue
  · split at hvalue
    · rename_i hunit
      cases hvalue
      exact hunit
    · cases hvalue

namespace ShareRange

/-- The largest part of a side that a share of the range leaves whole. -/
def factor (range : ShareRange Rat) : Rat :=
  Max.max range.max (1 - range.min)

theorem isValid_iff {range : ShareRange Rat} :
    range.isValid = true ↔ 0 < range.min ∧ range.max < 1 ∧ range.min ≤ range.max := by
  simp only [isValid, Bool.and_eq_true, decide_eq_true_eq, and_assoc]

theorem factor_lt_one {range : ShareRange Rat} (h : range.isValid = true) :
    range.factor < 1 := by
  obtain ⟨hmin, hmax, _⟩ := isValid_iff.mp h
  exact max_lt hmax (by linarith)

/-- A share lies inside the range. -/
theorem mem_of_draw {range : ShareRange Rat} {share : Rat} (h : range.isValid = true)
    (hdraw : Sampler.Outcome InUnit range.draw (.ok share)) :
    range.min ≤ share ∧ share ≤ range.max := by
  simp only [draw, Sampler.range, Sampler.outcome_bind_ok_iff, Sampler.outcome_unit_iff,
    Sampler.outcome_pure_iff, Except.ok.injEq] at hdraw
  obtain ⟨value, ⟨hzero, hone⟩, rfl⟩ := hdraw
  obtain ⟨_, _, hle⟩ := isValid_iff.mp h
  have hspread : 0 ≤ range.max - range.min := sub_nonneg.mpr hle
  have hlow : 0 ≤ value * (range.max - range.min) := mul_nonneg hzero hspread
  have hhigh : value * (range.max - range.min) ≤ range.max - range.min :=
    mul_le_of_le_one_left hspread hone.le
  exact ⟨le_add_of_nonneg_right hlow, by linarith⟩

/-- A share leaves something on both sides. -/
theorem pos_and_lt_one_of_draw {range : ShareRange Rat} {share : Rat}
    (h : range.isValid = true) (hdraw : Sampler.Outcome InUnit range.draw (.ok share)) :
    0 < share ∧ share < 1 := by
  obtain ⟨hmin, hmax⟩ := mem_of_draw h hdraw
  obtain ⟨hpos, hone, _⟩ := isValid_iff.mp h
  exact ⟨hpos.trans_le hmin, hmax.trans_lt hone⟩

/-- Neither of the two parts is larger than the factor. -/
theorem le_factor_of_draw {range : ShareRange Rat} {share : Rat} (h : range.isValid = true)
    (hdraw : Sampler.Outcome InUnit range.draw (.ok share)) :
    share ≤ range.factor ∧ 1 - share ≤ range.factor := by
  obtain ⟨hmin, hmax⟩ := mem_of_draw h hdraw
  exact ⟨hmax.trans (le_max_left _ _), (sub_le_sub_left hmin 1).trans (le_max_right _ _)⟩

end ShareRange

section Checks

variable {α : Type} [Scalar α] [RegionKind κ] {owner : κ}

theorem ShareRange.isValid_of_check {range : ShareRange α}
    (h : range.check owner = .ok ()) : range.isValid = true := by
  rw [check] at h
  split_ifs at h with hvalid
  exact hvalid

variable [DecidableEq κ]

theorem Step.isValid_of_check {step : Step κ α} (h : step.check owner = .ok ())
    {range : ShareRange α} (hrange : range ∈ step.ranges) : range.isValid = true := by
  cases step with
  | bisect axis ratio first second =>
      obtain rfl := List.mem_singleton.mp hrange
      exact ShareRange.isValid_of_check h
  | corridor axis width ratio first strip second =>
      obtain rfl := List.mem_singleton.mp hrange
      rw [check] at h
      split_ifs at h
      exact ShareRange.isValid_of_check h
  | mix candidates cut =>
      cases cut with
      | two axis ratio =>
          obtain rfl := List.mem_singleton.mp hrange
          rw [check] at h
          split_ifs at h
          exact ShareRange.isValid_of_check h
      | four => cases hrange
  | terminal | fill | quarter | embed => cases hrange

theorem Step.width_pos_of_check {axis : Direction} {width : α} {ratio : ShareRange α}
    {first strip second : κ}
    (h : (Step.corridor axis width ratio first strip second).check owner = .ok ()) :
    0 < width := by
  rw [check] at h
  split_ifs at h with hwidth
  exact hwidth

theorem Step.margin_of_check {feature : κ} {margin : α}
    (h : (Step.embed feature margin).check owner = .ok ()) : 0 ≤ margin := by
  rw [check] at h
  split_ifs at h with hmargin
  exact hmargin

end Checks

namespace Rect

/-- No side is longer, and one is shorter by the factor. -/
def Contracts (factor : Rat) (rect bounds : Rect Rat) : Prop :=
  (∀ axis, rect.extent axis ≤ bounds.extent axis) ∧
    ∃ axis, rect.extent axis ≤ bounds.extent axis * factor

theorem extent_slice_of_ne (bounds : Rect Rat) {axis other : Axis} (hne : other ≠ axis)
    (start length : Rat) : (bounds.slice axis start length).extent other = bounds.extent other := by
  cases axis <;> cases other <;> first | rfl | exact absurd rfl hne

theorem extent_slice_le {bounds : Rect Rat} {axis : Axis} {start length : Rat}
    (h : length ≤ bounds.extent axis) (other : Axis) :
    (bounds.slice axis start length).extent other ≤ bounds.extent other := by
  by_cases heq : other = axis
  · subst heq
    rwa [extent_slice]
  · rw [extent_slice_of_ne bounds heq]

theorem contracts_slice {bounds : Rect Rat} {factor : Rat} (hbounds : bounds.Proper)
    (hone : factor < 1) {axis : Axis} {start length : Rat}
    (h : length ≤ bounds.extent axis * factor) :
    (bounds.slice axis start length).Contracts factor bounds := by
  have hshorter : bounds.extent axis * factor ≤ bounds.extent axis :=
    mul_le_of_le_one_right (hbounds.extent_pos axis).le hone.le
  refine ⟨extent_slice_le (h.trans hshorter), axis, ?_⟩
  rwa [extent_slice]

end Rect

namespace Cut

variable {bounds rect : Rect Rat} {factor share : Rat} {axis : Axis}

theorem contracts_across (hbounds : bounds.Proper) (hone : factor < 1)
    (hshare : share ≤ factor ∧ 1 - share ≤ factor)
    (h : rect ∈ (across axis share).outline bounds) : rect.Contracts factor bounds := by
  have hside := (hbounds.extent_pos axis).le
  rw [outline_across] at h
  simp only [Rect.slices, List.mem_cons, List.not_mem_nil, or_false] at h
  rcases h with rfl | rfl
  · exact Rect.contracts_slice hbounds hone (mul_le_mul_of_nonneg_left hshare.1 hside)
  · refine Rect.contracts_slice hbounds hone ?_
    calc bounds.extent axis - bounds.extent axis * share
        = bounds.extent axis * (1 - share) := by ring
      _ ≤ bounds.extent axis * factor := mul_le_mul_of_nonneg_left hshare.2 hside

theorem contracts_quarters (hbounds : bounds.Proper) (hone : factor < 1)
    (hhalf : 1 / 2 ≤ factor) (h : rect ∈ quarters.outline bounds) :
    rect.Contracts factor bounds := by
  have hhalves : ∀ side : Rat, 0 < side → Scalar.half side ≤ side * factor ∧
      side - Scalar.half side ≤ side * factor := by
    intro side hside
    have hproduct := mul_le_mul_of_nonneg_left hhalf hside.le
    rw [Scalar.half_eq]
    exact ⟨by linarith, by linarith⟩
  obtain ⟨hleft, hright⟩ := hhalves bounds.width (hbounds.extent_pos .vertical)
  obtain ⟨htop, hbottom⟩ := hhalves bounds.height (hbounds.extent_pos .horizontal)
  have hquarter : ∀ x y width height : Rat, width ≤ bounds.width * factor →
      height ≤ bounds.height * factor →
      (⟨x, y, width, height⟩ : Rect Rat).Contracts factor bounds := by
    intro x y width height hwidth hheight
    have hshorter : ∀ axis, bounds.extent axis * factor ≤ bounds.extent axis := fun axis =>
      mul_le_of_le_one_right (hbounds.extent_pos axis).le hone.le
    refine ⟨fun axis => ?_, .vertical, hwidth⟩
    cases axis with
    | vertical => exact hwidth.trans (hshorter .vertical)
    | horizontal => exact hheight.trans (hshorter .horizontal)
  simp only [outline, List.mem_cons, List.not_mem_nil, or_false] at h
  rcases h with rfl | rfl | rfl | rfl
  · exact hquarter _ _ _ _ hleft htop
  · exact hquarter _ _ _ _ hright htop
  · exact hquarter _ _ _ _ hleft hbottom
  · exact hquarter _ _ _ _ hright hbottom

/-- The two parts beside a strip that leaves room. -/
theorem contracts_corridor {width : Rat} (hbounds : bounds.Proper) (hone : factor < 1)
    (hshare : share ≤ factor ∧ 1 - share ≤ factor) (hwidth : 0 < width)
    (hroom : 0 < bounds.extent axis - width) {start length : Rat}
    (hlength : length = (bounds.extent axis - width) * share ∨
      length = bounds.extent axis - width - (bounds.extent axis - width) * share) :
    (bounds.slice axis start length).Contracts factor bounds := by
  have hhalf : 0 ≤ factor := by linarith
  have hless : (bounds.extent axis - width) * factor ≤ bounds.extent axis * factor :=
    mul_le_mul_of_nonneg_right (by linarith) hhalf
  apply Rect.contracts_slice hbounds hone
  rcases hlength with rfl | rfl
  · exact (mul_le_mul_of_nonneg_left hshare.1 hroom.le).trans hless
  · calc bounds.extent axis - width - (bounds.extent axis - width) * share
        = (bounds.extent axis - width) * (1 - share) := by ring
      _ ≤ (bounds.extent axis - width) * factor := mul_le_mul_of_nonneg_left hshare.2 hroom.le
      _ ≤ bounds.extent axis * factor := hless

end Cut

variable [DecidableEq κ] [RegionKind κ]

/-- Every part of a dividing cut is shorter by the factor, but for the strip of a
corridor, which is shorter than the side it is taken from. -/
theorem Step.Lays.contracts {owner : κ} {step : Step κ Rat} {bounds : Rect Rat}
    {kinds : List κ} {cut : Cut Rat} {rects : List (Rect Rat)} {factor : Rat}
    (h : step.Lays InUnit bounds kinds cut) (hcheck : step.check owner = .ok ())
    (hfactor : ∀ range ∈ step.ranges, range.factor ≤ factor) (hhalf : 1 / 2 ≤ factor)
    (hone : factor < 1) (hbounds : bounds.Proper) (hdivides : cut ≠ .whole)
    (hparts : cut.parts bounds = .ok rects) {part : κ × Rect Rat}
    (hpart : part ∈ kinds.zip rects) :
    part.2.Contracts factor bounds ∨
      ∃ axis width ratio first second direction start,
        step = .corridor axis width ratio first part.1 second ∧
          part.2 = bounds.slice direction start width ∧ width < bounds.extent direction := by
  have hshares : ∀ range ∈ step.ranges, ∀ share,
      Sampler.Outcome InUnit range.draw (.ok share) → share ≤ factor ∧ 1 - share ≤ factor := by
    intro range hrange share hdraw
    obtain ⟨hfirst, hsecond⟩ :=
      ShareRange.le_factor_of_draw (Step.isValid_of_check hcheck hrange) hdraw
    exact ⟨hfirst.trans (hfactor range hrange), hsecond.trans (hfactor range hrange)⟩
  obtain ⟨rfl, _⟩ := Cut.eq_outline_of_parts hparts
  cases h with
  | fill kind => exact absurd rfl hdivides
  | bisect _ hshare =>
      left
      exact Cut.contracts_across hbounds hone (hshares _ List.mem_cons_self _ hshare)
        (List.of_mem_zip hpart).2
  | quarter | mixFour =>
      left
      exact Cut.contracts_quarters hbounds hone hhalf (List.of_mem_zip hpart).2
  | mixTwo _ _ _ hshare =>
      left
      exact Cut.contracts_across hbounds hone (hshares _ List.mem_cons_self _ hshare)
        (List.of_mem_zip hpart).2
  | @corridor axis width ratio first strip second direction share _ hshare =>
      have hwidth := Step.width_pos_of_check hcheck
      have hboth := hshares _ List.mem_cons_self _ hshare
      have hroom : 0 < bounds.extent direction - width := by
        rw [Cut.parts] at hparts
        split at hparts
        · cases hparts
        · rename_i hroom
          exact not_le.mp hroom
      rw [Cut.outline_corridor] at hpart
      simp only [Rect.slices, List.zip_cons_cons, List.zip_nil_right, List.mem_cons,
        List.not_mem_nil, or_false] at hpart
      rcases hpart with rfl | rfl | rfl
      · exact Or.inl (Cut.contracts_corridor hbounds hone hboth hwidth hroom (Or.inl rfl))
      · exact Or.inr ⟨axis, width, ratio, first, second, direction, _, rfl, rfl,
          by linarith⟩
      · exact Or.inl (Cut.contracts_corridor hbounds hone hboth hwidth hroom (Or.inr rfl))

end Parterre
