/-
The seams of a cut in binary64.  The coordinate at which one part ends is computed
like the one at which its neighbour begins, so the parts meet exactly, although their
sides need not add up to the side that was cut.  No two parts share any area,
because one of them ends before the other one begins.
-/
import Parterre.Proofs.Binary64.Order
import Parterre.Proofs.Narrowing
import Parterre.Proofs.PointSets

namespace Parterre

open Binary64

namespace Rect

variable {axis : Axis} {first second third : Rect Float}

/-- The second rectangle begins with the coordinate that the first one ends with. -/
structure Meets (axis : Axis) (first second : Rect Float) : Prop where
  same : first.finish axis = second.origin axis
  equal : (first.finish axis == second.origin axis) = true

/-- Whichever comes first, the rectangles share no area. -/
def Apart (first second : Rect Float) : Prop :=
  first.sharedArea second = 0 ∧ second.sharedArea first = 0

/-- The first rectangle ends before the second one begins. -/
structure Precedes (axis : Axis) (first second : Rect Float) : Prop where
  finish_finite : (first.finish axis).isFinite = true
  origin_finite : (second.origin axis).isFinite = true
  le : exact (first.finish axis) ≤ exact (second.origin axis)

/-- Rectangles of which one precedes the other share no area. -/
theorem Precedes.apart (h : Precedes axis first second) : first.Apart second := by
  obtain ⟨hfinish, horigin, hle⟩ := h
  constructor
  · exact sharedArea_eq_zero axis (not_pos_sub hfinish horigin hle
      (not_lt_lesser_left hfinish) not_greater_lt_right)
  · exact sharedArea_eq_zero axis (not_pos_sub hfinish horigin hle
      not_lt_lesser_right (not_greater_lt_left horigin))

theorem Apart.symm (h : first.Apart second) : second.Apart first :=
  And.symm h

theorem Proper.origin_finite {bounds : Rect Float} (h : bounds.Proper) (axis : Axis) :
    (bounds.origin axis).isFinite = true := by
  obtain ⟨hfinite, _, _⟩ := h
  simp only [isFinite, Bool.and_eq_true] at hfinite
  cases axis with
  | vertical => exact hfinite.1.1.1
  | horizontal => exact hfinite.1.1.2

theorem meets_of_eq (h : first.finish axis = second.origin axis) (hproper : second.Proper) :
    Meets axis first second := by
  refine ⟨h, ?_⟩
  rw [h]
  exact beq_self (hproper.origin_finite axis)

theorem Meets.precedes (h : Meets axis first second) (hproper : second.Proper) :
    Precedes axis first second := by
  have horigin := hproper.origin_finite axis
  exact ⟨h.same ▸ horigin, horigin, by rw [h.same]⟩

theorem apart_of_eq (axis : Axis) (h : first.finish axis = second.origin axis)
    (hproper : second.Proper) : first.Apart second :=
  ((meets_of_eq h hproper).precedes hproper).apart

/-- A rectangle ends behind its origin, unless that is too far away. -/
theorem Proper.origin_le_finish (h : first.Proper)
    (hfinish : (first.finish axis).isFinite = true) :
    exact (first.origin axis) ≤ exact (first.finish axis) := by
  have hpositive := h.exact_pos axis
  have hadd := computes_add (h.origin_finite axis) (isFinite_of_exact_pos hpositive)
  rw [finish_eq] at hfinish ⊢
  rw [hadd.exact_eq hfinish, ← nearest_exact (first.origin axis)]
  refine nearest_mono ?_
  rw [nearest_exact]
  linarith

/-- What precedes a rectangle precedes the one that it meets. -/
theorem Precedes.trans_meets (h : Precedes axis first second) (hmeets : Meets axis second third)
    (hsecond : second.Proper) (hthird : third.Proper) : Precedes axis first third := by
  have hnext := hmeets.precedes hthird
  exact ⟨h.finish_finite, hnext.origin_finite,
    h.le.trans ((hsecond.origin_le_finish hnext.finish_finite).trans hnext.le)⟩

/-- A slice meets the one that begins with its last coordinate. -/
theorem meets_slice {bounds : Rect Float} {axis : Axis} {start length other : Float}
    (hproper : (bounds.slice axis (start + length) other).Proper) :
    Meets axis (bounds.slice axis start length) (bounds.slice axis (start + length) other) := by
  refine meets_of_eq ?_ hproper
  cases axis <;> rfl

end Rect

/-- Neighbouring parts of a cut meet along the direction of the cut. -/
inductive Cut.Seams : Cut Float → List (Rect Float) → Prop
  | whole (rect : Rect Float) : Seams .whole [rect]
  | across {axis : Axis} {share : Float} {first second : Rect Float}
      (hmeets : Rect.Meets axis first second) : Seams (.across axis share) [first, second]
  | quarters {topLeft topRight bottomLeft bottomRight : Rect Float}
      (htop : Rect.Meets .vertical topLeft topRight)
      (hbottom : Rect.Meets .vertical bottomLeft bottomRight)
      (hleft : Rect.Meets .horizontal topLeft bottomLeft)
      (hright : Rect.Meets .horizontal topRight bottomRight) :
      Seams .quarters [topLeft, topRight, bottomLeft, bottomRight]
  | corridor {axis : Axis} {width share : Float} {first strip second : Rect Float}
      (hfirst : Rect.Meets axis first strip) (hsecond : Rect.Meets axis strip second) :
      Seams (.corridor axis width share) [first, strip, second]

/-- The parts of a cut meet exactly where they are neighbours, and no two of them
share any area. -/
theorem Cut.seams_and_apart {bounds : Rect Float} {cut : Cut Float} {rects : List (Rect Float)}
    (h : cut.parts bounds = .ok rects) : cut.Seams rects ∧ rects.Pairwise Rect.Apart := by
  obtain ⟨rfl, rfl | hproper⟩ := eq_outline_of_parts h
  · exact ⟨.whole bounds, List.pairwise_singleton ..⟩
  cases cut with
  | whole => exact ⟨.whole bounds, List.pairwise_singleton ..⟩
  | across axis share =>
      simp only [outline, List.forall_mem_cons] at hproper ⊢
      obtain ⟨_, hsecond, _⟩ := hproper
      have hmeets := Rect.meets_slice hsecond
      exact ⟨.across hmeets, List.pairwise_pair.mpr (hmeets.precedes hsecond).apart⟩
  | quarters =>
      simp only [outline, List.forall_mem_cons] at hproper ⊢
      obtain ⟨_, htopRight, hbottomLeft, hbottomRight, _⟩ := hproper
      constructor
      · exact .quarters (Rect.meets_of_eq rfl htopRight) (Rect.meets_of_eq rfl hbottomRight)
          (Rect.meets_of_eq rfl hbottomLeft) (Rect.meets_of_eq rfl hbottomRight)
      · simp only [List.pairwise_cons, List.forall_mem_cons, List.not_mem_nil, false_implies,
          implies_true, and_true, List.Pairwise.nil]
        -- On the diagonals, too, one part ends where the other one begins.
        exact ⟨⟨Rect.apart_of_eq .vertical rfl htopRight,
            Rect.apart_of_eq .horizontal rfl hbottomLeft,
            Rect.apart_of_eq .vertical rfl hbottomRight⟩,
          ⟨(Rect.apart_of_eq .vertical rfl htopRight).symm,
            Rect.apart_of_eq .horizontal rfl hbottomRight⟩,
          Rect.apart_of_eq .vertical rfl hbottomRight⟩
  | corridor axis width share =>
      simp only [outline, List.forall_mem_cons] at hproper ⊢
      obtain ⟨_, hstrip, hsecond, _⟩ := hproper
      have hmeets := Rect.meets_slice hstrip
      have hmeets' := Rect.meets_slice hsecond
      have hfirst := hmeets.precedes hstrip
      have hlast := hmeets'.precedes hsecond
      refine ⟨.corridor hmeets hmeets', ?_⟩
      simp only [List.pairwise_cons, List.forall_mem_cons, List.not_mem_nil, false_implies,
        implies_true, and_true, List.Pairwise.nil]
      exact ⟨⟨hfirst.apart, (hfirst.trans_meets hmeets' hstrip hsecond).apart⟩, hlast.apart⟩

/-- Two parts meet and share no area, although their sides do not add up. -/
theorem Cut.seams_of_uneven_sides :
    ∃ first second, (Cut.across .vertical 0.1).parts (⟨0.1, 0.2, 0.3, 0.7⟩ : Rect Float) =
        .ok [first, second] ∧
      first.width + second.width ≠ 0.3 ∧
      (Cut.across .vertical 0.1).Seams [first, second] ∧
      [first, second].Pairwise Rect.Apart := by
  have hparts : (Cut.across .vertical 0.1).parts (⟨0.1, 0.2, 0.3, 0.7⟩ : Rect Float) =
      .ok [⟨0.1, 0.2, 0.3 * 0.1, 0.7⟩, ⟨0.1 + 0.3 * 0.1, 0.2, 0.3 - 0.3 * 0.1, 0.7⟩] := by
    decide +kernel
  exact ⟨_, _, hparts, by decide +kernel, Cut.seams_and_apart hparts⟩

end Parterre
