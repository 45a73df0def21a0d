/-
Tilings over the exact rationals.  Parts tile a rectangle if they lie in it,
cover its points, share no area and have its area together.  Tilings of the
parts of a tiling tile the whole, so it is enough to see that cutting a slice
in two tiles it.
-/
import Mathlib
import Parterre.Proofs.Expansion

namespace Parterre

namespace Scalar

theorem lesser_eq_min (left right : Rat) : lesser left right = min left right := by
  unfold lesser
  rw [if_pos (le_refl left)]
  split
  · rename_i h
    exact (min_eq_right (le_of_lt h)).symm
  · rename_i h
    exact (min_eq_left (le_of_not_gt h)).symm

theorem greater_eq_max (left right : Rat) : greater left right = max left right := by
  unfold greater
  rw [if_pos (le_refl left)]
  split
  · rename_i h
    exact (max_eq_right (le_of_lt h)).symm
  · rename_i h
    exact (max_eq_left (le_of_not_gt h)).symm

theorem twice_eq (value : Rat) : twice value = 2 * value :=
  (two_mul value).symm

end Scalar

namespace Rect

theorem contains_iff {bounds : Rect Rat} {px py : Rat} :
    bounds.contains px py = true ↔
      (bounds.x ≤ px ∧ px ≤ bounds.x + bounds.width) ∧
        bounds.y ≤ py ∧ py ≤ bounds.y + bounds.height := by
  simp only [contains, Bool.and_eq_true, decide_eq_true_eq, and_assoc]
  rfl

theorem encloses_iff {outer inner : Rect Rat} :
    outer.encloses inner = true ↔
      (outer.x ≤ inner.x ∧ inner.x + inner.width ≤ outer.x + outer.width) ∧
        outer.y ≤ inner.y ∧ inner.y + inner.height ≤ outer.y + outer.height := by
  simp only [encloses, Bool.and_eq_true, decide_eq_true_eq]
  tauto

theorem encloses_refl (bounds : Rect Rat) : bounds.encloses bounds = true :=
  encloses_iff.mpr ⟨⟨le_refl _, le_refl _⟩, le_refl _, le_refl _⟩

theorem encloses_trans {first second third : Rect Rat}
    (h : first.encloses second = true) (h' : second.encloses third = true) :
    first.encloses third = true := by
  rw [encloses_iff] at *
  obtain ⟨⟨hleft, hright⟩, htop, hbottom⟩ := h
  obtain ⟨⟨hleft', hright'⟩, htop', hbottom'⟩ := h'
  exact ⟨⟨hleft.trans hleft', hright'.trans hright⟩, htop.trans htop',
    hbottom'.trans hbottom⟩

theorem eq_of_inset {bounds inner : Rect Rat} {margin : Rat}
    (h : bounds.inset margin = .ok inner) :
    0 ≤ margin ∧ inner =
      ⟨bounds.x + margin, bounds.y + margin, bounds.width - (margin + margin),
        bounds.height - (margin + margin)⟩ := by
  obtain ⟨⟨hmargin, _⟩, rfl, _⟩ := inset_eq_ok_iff.mp h
  exact ⟨hmargin, rfl⟩

/-- Rectangles share no area exactly if some side of their intersection has no
length. -/
theorem sharedArea_eq_zero_iff {first second : Rect Rat} :
    first.sharedArea second = 0 ↔
      min (first.x + first.width) (second.x + second.width) ≤ max first.x second.x ∨
        min (first.y + first.height) (second.y + second.height) ≤
          max first.y second.y := by
  unfold sharedArea
  rw [Scalar.lesser_eq_min, Scalar.lesser_eq_min, Scalar.greater_eq_max,
    Scalar.greater_eq_max]
  change (if (0 : Rat) < min (first.x + first.width) (second.x + second.width) -
      max first.x second.x ∧ (0 : Rat) < min (first.y + first.height)
        (second.y + second.height) - max first.y second.y then _ * _ else (0 : Rat)) = 0 ↔ _
  rw [← sub_nonpos, ← sub_nonpos (b := max first.y second.y)]
  split
  · rename_i h
    have hproduct := mul_pos h.1 h.2
    constructor
    · exact fun hzero => absurd hzero hproduct.ne'
    · rintro (hwidth | hheight)
      · exact absurd h.1 (not_lt.mpr hwidth)
      · exact absurd h.2 (not_lt.mpr hheight)
  · rename_i h
    rw [not_and_or, not_lt, not_lt] at h
    exact ⟨fun _ => h, fun _ => rfl⟩

/-- Parts of rectangles that share no area share none. -/
theorem sharedArea_mono {first second inner other : Rect Rat}
    (h : first.sharedArea second = 0) (hfirst : first.encloses inner = true)
    (hsecond : second.encloses other = true) : inner.sharedArea other = 0 := by
  rw [sharedArea_eq_zero_iff] at *
  obtain ⟨⟨hleft, hright⟩, htop, hbottom⟩ := encloses_iff.mp hfirst
  obtain ⟨⟨hleft', hright'⟩, htop', hbottom'⟩ := encloses_iff.mp hsecond
  rcases h with hwidth | hheight
  · exact Or.inl ((min_le_min hright hright').trans
      (hwidth.trans (max_le_max hleft hleft')))
  · exact Or.inr ((min_le_min hbottom hbottom').trans
      (hheight.trans (max_le_max htop htop')))

/-- The parts lie in the rectangle, cover its points, share no area and have
its area together. -/
structure TiledBy (bounds : Rect Rat) (parts : List (Rect Rat)) : Prop where
  encloses : ∀ part ∈ parts, bounds.encloses part = true
  covers : ∀ px py, bounds.contains px py = true →
    ∃ part ∈ parts, part.contains px py = true
  apart : parts.Pairwise fun first second => first.sharedArea second = 0
  area_sum : (parts.map area).sum = bounds.area

namespace TiledBy

variable {bounds : Rect Rat} {parts : List (Rect Rat)}

theorem refl (bounds : Rect Rat) : bounds.TiledBy [bounds] where
  encloses := by
    intro part hpart
    rw [List.mem_singleton.mp hpart]
    exact encloses_refl bounds
  covers := fun px py hpoint => ⟨bounds, List.mem_singleton_self _, hpoint⟩
  apart := List.pairwise_singleton _ _
  area_sum := by simp

/-- Tiling every part of a tiling tiles the whole. -/
theorem flatMap {β : Type} {list : List β} {part : β → Rect Rat}
    {tiles : β → List (Rect Rat)} (h : bounds.TiledBy (list.map part))
    (htiles : ∀ element ∈ list, (part element).TiledBy (tiles element)) :
    bounds.TiledBy (list.flatMap tiles) where
  encloses := by
    intro tile htile
    obtain ⟨element, helement, hmem⟩ := List.mem_flatMap.mp htile
    exact encloses_trans (h.encloses _ (List.mem_map_of_mem helement))
      ((htiles element helement).encloses tile hmem)
  covers := by
    intro px py hpoint
    obtain ⟨_, hpart, hinside⟩ := h.covers px py hpoint
    obtain ⟨element, helement, rfl⟩ := List.mem_map.mp hpart
    obtain ⟨tile, htile, hcontains⟩ := (htiles element helement).covers px py hinside
    exact ⟨tile, List.mem_flatMap.mpr ⟨element, helement, htile⟩, hcontains⟩
  apart := by
    rw [List.pairwise_flatMap]
    refine ⟨fun element helement => (htiles element helement).apart, ?_⟩
    apply (List.pairwise_map.mp h.apart).imp_of_mem
    intro first second hfirst hsecond hapart tile htile other hother
    exact sharedArea_mono hapart ((htiles first hfirst).encloses tile htile)
      ((htiles second hsecond).encloses other hother)
  area_sum := by
    rw [← h.area_sum, List.map_map]
    clear h
    induction list with
    | nil => rfl
    | cons first rest ih =>
        rw [List.forall_mem_cons] at htiles
        rw [List.flatMap_cons, List.map_append, List.sum_append, htiles.1.area_sum,
          ih htiles.2, List.map_cons, List.sum_cons, Function.comp_apply]

/-- Tiling the second of two parts tiles the whole. -/
theorem split_last {first second : Rect Rat} (h : bounds.TiledBy [first, second])
    (hsecond : second.TiledBy parts) : bounds.TiledBy (first :: parts) := by
  let list : List (Rect Rat × List (Rect Rat)) := [(first, [first]), (second, parts)]
  have htiles : ∀ element ∈ list, element.1.TiledBy element.2 := by
    simp only [list, List.mem_cons, List.not_mem_nil, or_false, forall_eq_or_imp,
      forall_eq]
    exact ⟨.refl first, hsecond⟩
  have hparts : bounds.TiledBy (list.map Prod.fst) := h
  simpa [list] using hparts.flatMap htiles

/-- A slice is tiled by the two slices it is cut in. -/
theorem cut_slice (bounds : Rect Rat) (axis : Axis) (start : Rat) {first second : Rat}
    (hfirst : 0 ≤ first) (hsecond : 0 ≤ second) :
    (bounds.slice axis start (first + second)).TiledBy
      [bounds.slice axis start first, bounds.slice axis (start + first) second] where
  encloses := by
    simp only [List.mem_cons, List.not_mem_nil, or_false, forall_eq_or_imp, forall_eq,
      encloses_iff]
    cases axis with
    | vertical =>
        simp only [slice, le_refl, and_self, and_true, true_and]
        exact ⟨by linarith, by linarith, by linarith⟩
    | horizontal =>
        simp only [slice, le_refl, and_self, true_and]
        exact ⟨by linarith, by linarith, by linarith⟩
  covers := by
    intro px py hpoint
    rw [contains_iff] at hpoint
    simp only [List.mem_cons, List.not_mem_nil, or_false, exists_eq_or_imp,
      exists_eq_left, contains_iff]
    cases axis with
    | vertical =>
        obtain ⟨⟨hleft, hright⟩, hheight⟩ := hpoint
        simp only [slice] at *
        rcases le_total px (start + first) with hside | hside
        · exact Or.inl ⟨⟨hleft, hside⟩, hheight⟩
        · exact Or.inr ⟨⟨hside, by linarith⟩, hheight⟩
    | horizontal =>
        obtain ⟨hwidth, htop, hbottom⟩ := hpoint
        simp only [slice] at *
        rcases le_total py (start + first) with hside | hside
        · exact Or.inl ⟨hwidth, htop, hside⟩
        · exact Or.inr ⟨hwidth, hside, by linarith⟩
  apart := by
    rw [List.pairwise_pair, sharedArea_eq_zero_iff]
    cases axis with
    | vertical => exact Or.inl ((min_le_left _ _).trans (le_max_right _ _))
    | horizontal => exact Or.inr ((min_le_left _ _).trans (le_max_right _ _))
  area_sum := by
    cases axis with
    | vertical =>
        simp only [slice, List.map_cons, List.map_nil, List.sum_cons, List.sum_nil]
        change first * bounds.height + (second * bounds.height + 0) =
          (first + second) * bounds.height
        ring
    | horizontal =>
        simp only [slice, List.map_cons, List.map_nil, List.sum_cons, List.sum_nil]
        change bounds.width * first + (bounds.width * second + 0) =
          bounds.width * (first + second)
        ring

end TiledBy

/-- Consecutive slices of the given lengths. -/
def slices (bounds : Rect Rat) (axis : Axis) : Rat → List Rat → List (Rect Rat)
  | _, [] => []
  | start, length :: rest =>
      bounds.slice axis start length :: slices bounds axis (start + length) rest

theorem slice_self (bounds : Rect Rat) (axis : Axis) :
    bounds.slice axis (bounds.origin axis) (bounds.extent axis) = bounds := by
  cases axis <;> rfl

/-- Consecutive slices tile the slice that they make up. -/
theorem tiledBy_slices (bounds : Rect Rat) (axis : Axis) (start : Rat) {length : Rat}
    {rest : List Rat} (hlengths : ∀ part ∈ length :: rest, 0 ≤ part) :
    (bounds.slice axis start (length :: rest).sum).TiledBy
      (bounds.slices axis start (length :: rest)) := by
  induction rest generalizing start length with
  | nil =>
      rw [List.sum_singleton]
      exact .refl _
  | cons second rest ih =>
      rw [List.forall_mem_cons] at hlengths
      have hrest : 0 ≤ (second :: rest).sum := List.sum_nonneg hlengths.2
      have hcut := TiledBy.cut_slice bounds axis start hlengths.1 hrest
      rw [List.sum_cons, slices]
      exact hcut.split_last (ih (start + length) hlengths.2)

theorem Proper.extent_pos {bounds : Rect Rat} (h : bounds.Proper) (axis : Axis) :
    0 < bounds.extent axis := by
  cases axis with
  | vertical => exact lt_of_not_ge h.2.1
  | horizontal => exact lt_of_not_ge h.2.2

theorem Proper.area_pos {bounds : Rect Rat} (h : bounds.Proper) : 0 < bounds.area :=
  mul_pos (h.extent_pos .vertical) (h.extent_pos .horizontal)

theorem extent_slice (bounds : Rect Rat) (axis : Axis) (start length : Rat) :
    (bounds.slice axis start length).extent axis = length := by
  cases axis <;> rfl

theorem pos_of_proper_slices {bounds : Rect Rat} {axis : Axis} {start : Rat}
    {lengths : List Rat} (h : ∀ part ∈ bounds.slices axis start lengths, part.Proper) :
    ∀ length ∈ lengths, 0 < length := by
  induction lengths generalizing start with
  | nil => simp
  | cons first rest ih =>
      rw [slices, List.forall_mem_cons] at h
      have hfirst := h.1.extent_pos axis
      rw [extent_slice] at hfirst
      exact List.forall_mem_cons.mpr ⟨hfirst, ih h.2⟩

/-- Proper slices that make up a side tile the rectangle. -/
theorem tiledBy_of_proper {bounds : Rect Rat} {axis : Axis} {length : Rat}
    {rest : List Rat} (hsum : (length :: rest).sum = bounds.extent axis)
    (h : ∀ part ∈ bounds.slices axis (bounds.origin axis) (length :: rest),
      part.Proper) :
    bounds.TiledBy (bounds.slices axis (bounds.origin axis) (length :: rest)) := by
  have htiled := bounds.tiledBy_slices axis (bounds.origin axis)
    fun part hpart => (pos_of_proper_slices h part hpart).le
  rwa [hsum, slice_self] at htiled

end Rect

namespace Cut

variable {bounds : Rect Rat}

theorem outline_across (axis : Axis) (share : Rat) :
    (across axis share).outline bounds =
      bounds.slices axis (bounds.origin axis)
        [bounds.extent axis * share,
          bounds.extent axis - bounds.extent axis * share] :=
  rfl

theorem outline_corridor (axis : Axis) (width share : Rat) :
    (corridor axis width share).outline bounds =
      bounds.slices axis (bounds.origin axis)
        [(bounds.extent axis - width) * share, width,
          bounds.extent axis - width - (bounds.extent axis - width) * share] :=
  rfl

/-- Quarters are the two parts of the upper and of the lower half. -/
theorem outline_quarters :
    quarters.outline bounds =
      (bounds.slices .horizontal bounds.y
        [Scalar.half bounds.height, bounds.height - Scalar.half bounds.height]).flatMap
        fun row => row.slices .vertical row.x
          [Scalar.half bounds.width, bounds.width - Scalar.half bounds.width] :=
  rfl

/-- Proper quarters tile the two halves, which tile the rectangle. -/
theorem tiledBy_quarters (hproper : ∀ part ∈ quarters.outline bounds, part.Proper) :
    bounds.TiledBy (quarters.outline bounds) := by
  rw [outline_quarters] at *
  rw [List.forall_mem_flatMap] at hproper
  have hrows : ∀ row ∈ bounds.slices .horizontal bounds.y
      [Scalar.half bounds.height, bounds.height - Scalar.half bounds.height],
      row.TiledBy (row.slices .vertical row.x
        [Scalar.half bounds.width, bounds.width - Scalar.half bounds.width]) := by
    intro row hrow
    have hwidth : row.extent .vertical = bounds.width := by
      simp only [Rect.slices, List.mem_cons, List.not_mem_nil, or_false] at hrow
      rcases hrow with rfl | rfl <;> rfl
    apply Rect.tiledBy_of_proper _ (hproper row hrow)
    rw [hwidth, List.sum_cons, List.sum_singleton]
    ring
  -- The heights of the halves are those of their left quarters.
  have hheights : ∀ height ∈
      [Scalar.half bounds.height, bounds.height - Scalar.half bounds.height],
      0 ≤ height := by
    simp only [Rect.slices, List.forall_mem_cons] at hproper ⊢
    exact ⟨(hproper.1.1.extent_pos .horizontal).le,
      (hproper.2.1.1.extent_pos .horizontal).le, by simp⟩
  have hhalves := bounds.tiledBy_slices .horizontal bounds.y hheights
  have hwhole : bounds.slice .horizontal bounds.y
      [Scalar.half bounds.height, bounds.height - Scalar.half bounds.height].sum =
        bounds := by
    rw [List.sum_cons, List.sum_singleton, add_sub_cancel]
    exact bounds.slice_self .horizontal
  rw [hwhole, ← List.map_id (bounds.slices ..)] at hhalves
  exact hhalves.flatMap hrows

/-- The parts of a cut tile the rectangle. -/
theorem tiledBy_of_parts {cut : Cut Rat} {rects : List (Rect Rat)}
    (h : cut.parts bounds = .ok rects) : bounds.TiledBy rects := by
  obtain ⟨rfl, rfl | hproper⟩ := eq_outline_of_parts h
  · exact .refl bounds
  cases cut with
  | whole => exact .refl bounds
  | across axis share =>
      rw [outline_across] at *
      apply Rect.tiledBy_of_proper _ hproper
      rw [List.sum_cons, List.sum_singleton]
      ring
  | corridor axis width share =>
      rw [outline_corridor] at *
      apply Rect.tiledBy_of_proper _ hproper
      rw [List.sum_cons, List.sum_cons, List.sum_singleton]
      ring
  | quarters => exact tiledBy_quarters hproper

end Cut

end Parterre
