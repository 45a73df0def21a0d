/-
Rectangles over the exact rationals as sets of points.  What two rectangles have in common
is what they have in common along both directions, so sharing area, enclosing and containing
points all describe the same sets, whether the rectangles are apart, touch, cross or lie in
one another.  Margins taken off one after the other are one margin.
-/
import Parterre.Proofs.Tiling

namespace Parterre

namespace Rect

section

variable {α : Type} [Scalar α]

/-- The edge that a rectangle ends with along a direction. -/
def finish (bounds : Rect α) : Axis → α
  | .vertical => bounds.right
  | .horizontal => bounds.bottom

/-- The length that two rectangles have in common along a direction. -/
def overlap (first second : Rect α) (axis : Axis) : α :=
  Scalar.lesser (first.finish axis) (second.finish axis) -
    Scalar.greater (first.origin axis) (second.origin axis)

theorem sharedArea_eq_zero {first second : Rect α} (axis : Axis)
    (h : ¬ 0 < first.overlap second axis) : first.sharedArea second = 0 := by
  refine if_neg fun hboth => h ?_
  cases axis with
  | vertical => exact hboth.1
  | horizontal => exact hboth.2

theorem sharedArea_eq_mul {first second : Rect α}
    (h : ∀ axis, 0 < first.overlap second axis) :
    first.sharedArea second = first.overlap second .vertical * first.overlap second .horizontal :=
  if_pos ⟨h .vertical, h .horizontal⟩

theorem finish_eq (bounds : Rect α) (axis : Axis) :
    bounds.finish axis = bounds.origin axis + bounds.extent axis := by
  cases axis <;> rfl

end

variable {bounds first second : Rect Rat} {px py margin : Rat}

theorem proper_iff : bounds.Proper ↔ ∀ axis, 0 < bounds.extent axis := by
  constructor
  · exact fun h => h.extent_pos
  · intro h
    exact ⟨rfl, not_le.mpr (h .vertical), not_le.mpr (h .horizontal)⟩

section Overlap

variable (first second : Rect Rat) (axis : Axis)

theorem overlap_eq :
    first.overlap second axis =
      min (first.finish axis) (second.finish axis) -
        max (first.origin axis) (second.origin axis) := by
  rw [overlap, Scalar.lesser_eq_min, Scalar.greater_eq_max]

theorem overlap_comm : first.overlap second axis = second.overlap first axis := by
  rw [overlap_eq, overlap_eq, min_comm, max_comm]

theorem overlap_le_extent : first.overlap second axis ≤ first.extent axis := by
  have hfinish := min_le_left (first.finish axis) (second.finish axis)
  have horigin := le_max_left (first.origin axis) (second.origin axis)
  rw [finish_eq first] at hfinish
  rw [overlap_eq, finish_eq first]
  linarith

end Overlap

variable {axis : Axis}

/-- Rectangles overlap along a direction if some coordinate lies inside both. -/
theorem overlap_pos_iff :
    0 < first.overlap second axis ↔
      ∃ position, (first.origin axis < position ∧ position < first.finish axis) ∧
        second.origin axis < position ∧ position < second.finish axis := by
  rw [overlap_eq, sub_pos]
  constructor
  · intro h
    obtain ⟨position, hleft, hright⟩ := exists_between h
    obtain ⟨hfirst, hsecond⟩ := max_lt_iff.mp hleft
    obtain ⟨hfirst', hsecond'⟩ := lt_min_iff.mp hright
    exact ⟨position, ⟨hfirst, hfirst'⟩, hsecond, hsecond'⟩
  · rintro ⟨position, ⟨hfirst, hfirst'⟩, hsecond, hsecond'⟩
    exact (max_lt hfirst hsecond).trans (lt_min hfirst' hsecond')

/-- The overlap is the whole side of the second rectangle if the first one reaches beyond
both of its ends. -/
theorem overlap_eq_extent_iff :
    first.overlap second axis = second.extent axis ↔
      first.origin axis ≤ second.origin axis ∧ second.finish axis ≤ first.finish axis := by
  have hfinish := min_le_right (first.finish axis) (second.finish axis)
  have horigin := le_max_right (first.origin axis) (second.origin axis)
  have hextent : second.finish axis = second.origin axis + second.extent axis := finish_eq ..
  rw [overlap_eq, ← max_eq_right_iff, ← min_eq_right_iff]
  constructor
  · intro h
    exact ⟨by linarith, by linarith⟩
  · rintro ⟨hmax, hmin⟩
    linarith

theorem encloses_iff_forall_axis :
    first.encloses second = true ↔
      ∀ axis, first.origin axis ≤ second.origin axis ∧
        second.finish axis ≤ first.finish axis := by
  rw [encloses_iff]
  constructor
  · rintro ⟨hwidth, hheight⟩ axis
    cases axis with
    | vertical => exact hwidth
    | horizontal => exact hheight
  · exact fun h => ⟨h .vertical, h .horizontal⟩

theorem sharedArea_comm (first second : Rect Rat) :
    first.sharedArea second = second.sharedArea first := by
  by_cases h : ∀ axis, 0 < first.overlap second axis
  · have h' : ∀ axis, 0 < second.overlap first axis := fun axis =>
      overlap_comm first second axis ▸ h axis
    rw [sharedArea_eq_mul h, sharedArea_eq_mul h', overlap_comm, overlap_comm first]
  · obtain ⟨axis, hnone⟩ := not_forall.mp h
    rw [sharedArea_eq_zero axis hnone, sharedArea_eq_zero axis]
    rwa [overlap_comm]

/-- Rectangles share area if they overlap along both directions. -/
theorem sharedArea_pos_iff_overlap :
    0 < first.sharedArea second ↔ ∀ axis, 0 < first.overlap second axis := by
  constructor
  · intro h axis
    by_contra hnone
    rw [sharedArea_eq_zero axis hnone] at h
    exact lt_irrefl _ h
  · intro h
    rw [sharedArea_eq_mul h]
    exact mul_pos (h .vertical) (h .horizontal)

theorem sharedArea_le_area (hfirst : first.Proper) (second : Rect Rat) :
    first.sharedArea second ≤ first.area := by
  by_cases h : ∀ axis, 0 < first.overlap second axis
  · rw [sharedArea_eq_mul h]
    exact mul_le_mul (overlap_le_extent first second .vertical)
      (overlap_le_extent first second .horizontal) (h .horizontal).le
      (hfirst.extent_pos .vertical).le
  · obtain ⟨axis, hnone⟩ := not_forall.mp h
    rw [sharedArea_eq_zero axis hnone]
    exact hfirst.area_pos.le

/-- A rectangle is shared as a whole if it is enclosed. -/
theorem sharedArea_eq_area_iff (hsecond : second.Proper) :
    first.sharedArea second = second.area ↔ first.encloses second = true := by
  rw [encloses_iff_forall_axis]
  simp only [← overlap_eq_extent_iff]
  constructor
  · intro h
    have hshared : 0 < first.sharedArea second := h ▸ hsecond.area_pos
    have hoverlap := sharedArea_pos_iff_overlap.mp hshared
    have hle : ∀ axis, first.overlap second axis ≤ second.extent axis := fun axis =>
      overlap_comm first second axis ▸ overlap_le_extent second first axis
    rw [sharedArea_eq_mul hoverlap] at h
    obtain ⟨hwidth, hheight⟩ := (mul_eq_mul_iff_eq_and_eq_of_pos (hle .vertical)
      (hle .horizontal) (hoverlap .vertical) (hsecond.extent_pos .horizontal)).mp h
    intro axis
    cases axis with
    | vertical => exact hwidth
    | horizontal => exact hheight
  · intro h
    have hoverlap : ∀ axis, 0 < first.overlap second axis := fun axis =>
      h axis ▸ hsecond.extent_pos axis
    rw [sharedArea_eq_mul hoverlap, h, h]
    rfl

theorem contains_of_encloses {outer inner : Rect Rat}
    (h : outer.encloses inner = true) (hpoint : inner.contains px py = true) :
    outer.contains px py = true := by
  obtain ⟨⟨hleft, hright⟩, htop, hbottom⟩ := encloses_iff.mp h
  obtain ⟨⟨hx, hx'⟩, hy, hy'⟩ := contains_iff.mp hpoint
  exact contains_iff.mpr
    ⟨⟨hleft.trans hx, hx'.trans hright⟩, htop.trans hy, hy'.trans hbottom⟩

/-- What contains the first and the last corner encloses the rectangle. -/
theorem encloses_of_contains (hsecond : second.Proper)
    (h : ∀ px py, second.contains px py = true → first.contains px py = true) :
    first.encloses second = true := by
  have hwidth : 0 < second.width := hsecond.extent_pos .vertical
  have hheight : 0 < second.height := hsecond.extent_pos .horizontal
  have hfirst := h second.x second.y
    (contains_iff.mpr ⟨⟨le_refl _, by linarith⟩, le_refl _, by linarith⟩)
  have hlast := h (second.x + second.width) (second.y + second.height)
    (contains_iff.mpr ⟨⟨by linarith, le_refl _⟩, by linarith, le_refl _⟩)
  obtain ⟨⟨hleft, _⟩, htop, _⟩ := contains_iff.mp hfirst
  obtain ⟨⟨_, hright⟩, _, hbottom⟩ := contains_iff.mp hlast
  exact encloses_iff.mpr ⟨⟨hleft, hright⟩, htop, hbottom⟩

theorem encloses_antisymm (h : first.encloses second = true)
    (h' : second.encloses first = true) : first = second := by
  have hsame : ∀ axis, first.origin axis = second.origin axis ∧
      first.extent axis = second.extent axis := by
    intro axis
    obtain ⟨horigin, hfinish⟩ := encloses_iff_forall_axis.mp h axis
    obtain ⟨horigin', hfinish'⟩ := encloses_iff_forall_axis.mp h' axis
    rw [finish_eq, finish_eq] at hfinish hfinish'
    exact ⟨le_antisymm horigin horigin', by linarith⟩
  obtain ⟨hx, hwidth⟩ := hsame .vertical
  obtain ⟨hy, hheight⟩ := hsame .horizontal
  obtain ⟨x, y, width, height⟩ := first
  obtain ⟨x', y', width', height'⟩ := second
  simp only [origin, extent] at hx hy hwidth hheight
  rw [hx, hy, hwidth, hheight]

/-- The point lies inside the rectangle and on none of its edges. -/
def HoldsInside (bounds : Rect Rat) (px py : Rat) : Prop :=
  (bounds.x < px ∧ px < bounds.right) ∧ bounds.y < py ∧ py < bounds.bottom

namespace HoldsInside

variable {other : Rect Rat}

theorem contains (h : bounds.HoldsInside px py) : bounds.contains px py = true := by
  obtain ⟨⟨hleft, hright⟩, htop, hbottom⟩ := h
  exact contains_iff.mpr ⟨⟨hleft.le, hright.le⟩, htop.le, hbottom.le⟩

theorem mono (h : bounds.HoldsInside px py) (houter : other.encloses bounds = true) :
    other.HoldsInside px py := by
  obtain ⟨⟨hleft, hright⟩, htop, hbottom⟩ := h
  obtain ⟨⟨hleft', hright'⟩, htop', hbottom'⟩ := encloses_iff.mp houter
  exact ⟨⟨hleft'.trans_lt hleft, hright.trans_le hright'⟩, htop'.trans_lt htop,
    hbottom.trans_le hbottom'⟩

/-- Another rectangle that shares no area does not reach inside. -/
theorem not_contains (h : bounds.HoldsInside px py) (hapart : bounds.sharedArea other = 0)
    (hother : other.Proper) : other.contains px py = false := by
  rw [← Bool.not_eq_true, contains_iff]
  rintro ⟨⟨hx, hx'⟩, hy, hy'⟩
  obtain ⟨⟨hleft, hright⟩, htop, hbottom⟩ := h
  have hwidth : 0 < other.width := hother.extent_pos .vertical
  have hheight : 0 < other.height := hother.extent_pos .horizontal
  simp only [right, bottom] at hright hbottom
  rcases sharedArea_eq_zero_iff.mp hapart with hside | hside
  · rw [min_le_iff, le_max_iff, le_max_iff] at hside
    rcases hside with (hside | hside) | hside | hside <;> linarith
  · rw [min_le_iff, le_max_iff, le_max_iff] at hside
    rcases hside with (hside | hside) | hside | hside <;> linarith

end HoldsInside

/-- Rectangles share area if some point lies inside both. -/
theorem sharedArea_pos_iff :
    0 < first.sharedArea second ↔
      ∃ px py, first.HoldsInside px py ∧ second.HoldsInside px py := by
  rw [sharedArea_pos_iff_overlap]
  simp only [overlap_pos_iff]
  constructor
  · intro h
    obtain ⟨px, hfirst, hsecond⟩ := h .vertical
    obtain ⟨py, hfirst', hsecond'⟩ := h .horizontal
    exact ⟨px, py, ⟨hfirst, hfirst'⟩, hsecond, hsecond'⟩
  · rintro ⟨px, py, ⟨hfirst, hfirst'⟩, hsecond, hsecond'⟩ axis
    cases axis with
    | vertical => exact ⟨px, hfirst, hsecond⟩
    | horizontal => exact ⟨py, hfirst', hsecond'⟩

section Inset

/-- The rectangle without a margin on all four sides. -/
def shrunk (bounds : Rect Rat) (margin : Rat) : Rect Rat :=
  ⟨bounds.x + margin, bounds.y + margin, bounds.width - 2 * margin, bounds.height - 2 * margin⟩

theorem origin_shrunk (bounds : Rect Rat) (margin : Rat) (axis : Axis) :
    (bounds.shrunk margin).origin axis = bounds.origin axis + margin := by
  cases axis <;> rfl

theorem extent_shrunk (bounds : Rect Rat) (margin : Rat) (axis : Axis) :
    (bounds.shrunk margin).extent axis = bounds.extent axis - 2 * margin := by
  cases axis <;> rfl

theorem finish_shrunk (bounds : Rect Rat) (margin : Rat) (axis : Axis) :
    (bounds.shrunk margin).finish axis = bounds.finish axis - margin := by
  rw [finish_eq, finish_eq, origin_shrunk, extent_shrunk]
  ring

theorem shrunk_shrunk (bounds : Rect Rat) (margin more : Rat) :
    (bounds.shrunk margin).shrunk more = bounds.shrunk (margin + more) := by
  simp only [shrunk, mk.injEq]
  exact ⟨by ring, by ring, by ring, by ring⟩

theorem isFilledBy_eq_false_iff :
    bounds.isFilledBy margin = false ↔ ∀ axis, 2 * margin < bounds.extent axis := by
  rw [isFilledBy, Bool.or_eq_false_iff, decide_eq_false_iff_not, decide_eq_false_iff_not,
    not_le, not_le, Scalar.twice_eq]
  constructor
  · rintro ⟨hwidth, hheight⟩ axis
    cases axis with
    | vertical => exact hwidth
    | horizontal => exact hheight
  · exact fun h => ⟨h .vertical, h .horizontal⟩

/-- A margin can be taken off if it is not negative and leaves room. -/
theorem inset_eq_ok_iff_room {inner : Rect Rat} :
    bounds.inset margin = .ok inner ↔
      0 ≤ margin ∧ (∀ axis, 2 * margin < bounds.extent axis) ∧ inner = bounds.shrunk margin := by
  rw [inset_eq_ok_iff, isFilledBy_eq_false_iff, Scalar.twice_eq]
  constructor
  · rintro ⟨⟨hmargin, hroom⟩, rfl, _⟩
    exact ⟨hmargin, hroom, rfl⟩
  · rintro ⟨hmargin, hroom, rfl⟩
    refine ⟨⟨hmargin, hroom⟩, rfl, proper_iff.mpr fun axis => ?_⟩
    rw [extent_shrunk]
    exact sub_pos.mpr (hroom axis)

/-- Two margins one after the other are one margin. -/
theorem inset_inset_iff {more : Rat} (hmargin : 0 ≤ margin) (hmore : 0 ≤ more)
    {inner : Rect Rat} :
    (bounds.inset margin >>= fun outer => outer.inset more) = .ok inner ↔
      bounds.inset (margin + more) = .ok inner := by
  simp only [bind_eq_ok_iff, inset_eq_ok_iff_room]
  constructor
  · rintro ⟨_, ⟨_, _, rfl⟩, _, hroom, rfl⟩
    refine ⟨add_nonneg hmargin hmore, fun axis => ?_, bounds.shrunk_shrunk margin more⟩
    have h := hroom axis
    rw [extent_shrunk] at h
    linarith
  · rintro ⟨_, hroom, rfl⟩
    refine ⟨bounds.shrunk margin, ⟨hmargin, fun axis => ?_, rfl⟩, hmore, fun axis => ?_,
      (bounds.shrunk_shrunk margin more).symm⟩
    · linarith [hroom axis]
    · rw [extent_shrunk]
      linarith [hroom axis]

/-- What is left lies inside, and on no edge if something was taken off. -/
theorem inset_inside {inner : Rect Rat} (h : bounds.inset margin = .ok inner) :
    bounds.encloses inner = true ∧
      ((∀ axis, bounds.origin axis < inner.origin axis ∧
        inner.finish axis < bounds.finish axis) ↔ 0 < margin) := by
  obtain ⟨hmargin, _, rfl⟩ := inset_eq_ok_iff_room.mp h
  rw [encloses_iff_forall_axis]
  simp only [origin_shrunk, finish_shrunk, le_add_iff_nonneg_right, sub_le_self_iff,
    lt_add_iff_pos_right, sub_lt_self_iff]
  exact ⟨fun _ => ⟨hmargin, hmargin⟩, fun h => (h .vertical).1, fun h _ => ⟨h, h⟩⟩

end Inset

/-- The shared area does not depend on the order, is positive exactly if some point lies
inside both rectangles, is at most the smaller of the two areas, and is the whole area of
one exactly if the other one encloses it.  Enclosing means containing all points and is an
order.  Two margins can be taken off one after the other exactly if their sum can, with the
same result, which the rectangle encloses, and on all four sides strictly exactly if some
margin is positive. -/
theorem predicates_agree (hfirst : first.Proper) (hsecond : second.Proper) (third : Rect Rat)
    {more : Rat} (hmargin : 0 ≤ margin) (hmore : 0 ≤ more) :
    first.sharedArea second = second.sharedArea first ∧
    (0 < first.sharedArea second ↔
      ∃ px py, first.HoldsInside px py ∧ second.HoldsInside px py) ∧
    first.sharedArea second ≤ min first.area second.area ∧
    (first.sharedArea second = second.area ↔ first.encloses second = true) ∧
    (first.encloses second = true ↔
      ∀ px py, second.contains px py = true → first.contains px py = true) ∧
    first.encloses first = true ∧
    (first.encloses second = true → second.encloses third = true →
      first.encloses third = true) ∧
    (first.encloses second = true → second.encloses first = true → first = second) ∧
    (∀ inner, (first.inset margin >>= fun outer => outer.inset more) = .ok inner ↔
      first.inset (margin + more) = .ok inner) ∧
    ∀ inner, first.inset (margin + more) = .ok inner →
      first.encloses inner = true ∧
      ((∀ axis, first.origin axis < inner.origin axis ∧
        inner.finish axis < first.finish axis) ↔ 0 < margin + more) := by
  have hshared : first.sharedArea second ≤ second.area := by
    rw [sharedArea_comm]
    exact sharedArea_le_area hsecond first
  have hpoints : first.encloses second = true ↔
      ∀ px py, second.contains px py = true → first.contains px py = true :=
    ⟨fun h _ _ => contains_of_encloses h, encloses_of_contains hsecond⟩
  exact ⟨sharedArea_comm first second, sharedArea_pos_iff,
    le_min (sharedArea_le_area hfirst second) hshared, sharedArea_eq_area_iff hsecond, hpoints,
    encloses_refl first, encloses_trans, encloses_antisymm,
    fun _ => inset_inset_iff hmargin hmore, fun _ => inset_inside⟩

/-- Each of two rectangles covers a corner of the other one, and the first one loses two
margins. -/
theorem predicates_agree_crossing :
    (⟨0, 0, 10, 8⟩ : Rect Rat).Proper ∧ (⟨6, 5, 10, 10⟩ : Rect Rat).Proper ∧
      (∃ px py, (⟨0, 0, 10, 8⟩ : Rect Rat).HoldsInside px py ∧
        (⟨6, 5, 10, 10⟩ : Rect Rat).HoldsInside px py) ∧
      (¬ ∀ px py, (⟨6, 5, 10, 10⟩ : Rect Rat).contains px py = true →
        (⟨0, 0, 10, 8⟩ : Rect Rat).contains px py = true) ∧
      ((⟨0, 0, 10, 8⟩ : Rect Rat).inset 1 >>= fun outer => outer.inset 2) =
        .ok ⟨3, 3, 4, 2⟩ := by
  have hfirst : (⟨0, 0, 10, 8⟩ : Rect Rat).Proper := by
    unfold Proper
    decide +kernel
  have hsecond : (⟨6, 5, 10, 10⟩ : Rect Rat).Proper := by
    unfold Proper
    decide +kernel
  have hone : (0 : Rat) ≤ 1 := by decide +kernel
  have htwo : (0 : Rat) ≤ 2 := by decide +kernel
  obtain ⟨_, hinside, _, _, hpoints, _, _, _, hinset, _⟩ :=
    predicates_agree hfirst hsecond ⟨0, 0, 1, 1⟩ hone htwo
  refine ⟨hfirst, hsecond, hinside.mp (by decide +kernel), fun h => ?_,
    (hinset _).mpr (by decide +kernel)⟩
  have hencloses := hpoints.mpr h
  revert hencloses
  decide +kernel

end Rect

end Parterre
