/-
The order of all scalars, infinite ones included.  The infinite numbers stand where
the first power of two stands that is too large, so scalars that are numbers compare
like their levels, and a difference is positive only if the first scalar is above the
second one, however it was rounded.
-/
import Mathlib.Tactic.Linarith
import Parterre.Proofs.Binary64.Exact

namespace Parterre.Binary64

open Float.Model
open Float.Model.UnpackedFloat (Sign)

/-- The value of a number, and a value beyond all of them for an infinite one. -/
def unpackedLevel : UnpackedFloat → Rat
  | .infinity sign => signed sign ceiling
  | number => unpackedValue number

/-- The place of a scalar in the order. -/
def level (number : Float) : Rat :=
  unpackedLevel number.toModel.unpack

/-- The scalar is a number, finite or not. -/
def Ordered (number : Float) : Prop :=
  number.toModel.unpack ≠ .notANumber

theorem cases_unpacked (number : UnpackedFloat) :
    number = .notANumber ∨ (∃ sign, number = .infinity sign) ∨ number.isFinite = true := by
  cases number with
  | notANumber => exact Or.inl rfl
  | infinity sign => exact Or.inr (Or.inl ⟨sign, rfl⟩)
  | zero | finite => exact Or.inr (Or.inr rfl)

variable {first second : Float}

theorem ne_notANumber {number : UnpackedFloat} (h : number.isFinite = true) :
    number ≠ .notANumber := by
  rintro rfl
  cases h

theorem ordered_of_isFinite (h : first.isFinite = true) : Ordered first :=
  ne_notANumber h

theorem unpackedLevel_of_isFinite {number : UnpackedFloat} (h : number.isFinite = true) :
    unpackedLevel number = unpackedValue number := by
  cases number with
  | infinity => cases h
  | _ => rfl

theorem level_of_isFinite (h : first.isFinite = true) : level first = exact first :=
  unpackedLevel_of_isFinite h

/-- Finite numbers stand between the infinite ones. -/
theorem compare_infinity {number : UnpackedFloat} (h : number.isFinite = true) :
    UnpackedFloat.compare (.infinity .negative) number = some .lt ∧
      number.compare (.infinity .negative) = some .gt ∧
      UnpackedFloat.compare (.infinity .positive) number = some .gt ∧
      number.compare (.infinity .positive) = some .lt := by
  cases number with
  | infinity => cases h
  | notANumber => cases h
  | zero sign => exact ⟨rfl, rfl, rfl, rfl⟩
  | finite sign digits last hpositive => cases sign <;> exact ⟨rfl, rfl, rfl, rfl⟩

theorem compare_sign (sign other : Sign) :
    compare sign other = compare (signed sign ceiling) (signed other ceiling) := by
  have hlt : -ceiling < ceiling := neg_lt_self ceiling_pos
  cases sign with
  | negative =>
      cases other with
      | negative => exact (compare_eq_iff_eq.mpr rfl).symm
      | positive => exact (compare_lt_iff_lt.mpr hlt).symm
  | positive =>
      cases other with
      | negative => exact (compare_gt_iff_gt.mpr hlt).symm
      | positive => exact (compare_eq_iff_eq.mpr rfl).symm

/-- Numbers compare like their levels. -/
theorem compare_level {left right : UnpackedFloat} (hleft : Canonical left)
    (hright : Canonical right) (hfits : bounded left = left) (hfits' : bounded right = right)
    (hordered : left ≠ .notANumber) (hordered' : right ≠ .notANumber) :
    left.compare right = some (compare (unpackedLevel left) (unpackedLevel right)) := by
  have hvalue := abs_lt.mp (abs_lt_of_bounded hleft hfits)
  have hvalue' := abs_lt.mp (abs_lt_of_bounded hright hfits')
  rcases cases_unpacked left with rfl | ⟨sign, rfl⟩ | hfinite
  · exact absurd rfl hordered
  · rcases cases_unpacked right with rfl | ⟨other, rfl⟩ | hfinite'
    · exact absurd rfl hordered'
    · exact congrArg some (compare_sign sign other)
    · rw [unpackedLevel_of_isFinite hfinite']
      obtain ⟨hbelow, _, habove, _⟩ := compare_infinity hfinite'
      cases sign with
      | negative => exact hbelow.trans (congrArg some (compare_lt_iff_lt.mpr hvalue'.1).symm)
      | positive => exact habove.trans (congrArg some (compare_gt_iff_gt.mpr hvalue'.2).symm)
  · rcases cases_unpacked right with rfl | ⟨other, rfl⟩ | hfinite'
    · exact absurd rfl hordered'
    · rw [unpackedLevel_of_isFinite hfinite]
      obtain ⟨_, habove, _, hbelow⟩ := compare_infinity hfinite
      cases other with
      | negative => exact habove.trans (congrArg some (compare_gt_iff_gt.mpr hvalue.1).symm)
      | positive => exact hbelow.trans (congrArg some (compare_lt_iff_lt.mpr hvalue.2).symm)
    · rw [unpackedLevel_of_isFinite hfinite, unpackedLevel_of_isFinite hfinite']
      exact compare_eq hleft hright hfinite hfinite'

/-- Only numbers compare. -/
theorem ordered_of_compare {order : Ordering}
    (h : first.toModel.unpack.compare second.toModel.unpack = some order) :
    Ordered first ∧ Ordered second := by
  constructor
  · intro hnot
    rw [hnot] at h
    cases h
  · intro hnot
    rw [hnot] at h
    cases hfirst : first.toModel.unpack <;> rw [hfirst] at h <;> cases h

theorem compare_eq_level (hfirst : Ordered first) (hsecond : Ordered second) :
    first.toModel.unpack.compare second.toModel.unpack =
      some (compare (level first) (level second)) :=
  compare_level (canonical first) (canonical second) (bounded_unpack first)
    (bounded_unpack second) hfirst hsecond

theorem lt_iff_level :
    first < second ↔ Ordered first ∧ Ordered second ∧ level first < level second := by
  rw [lt_iff_unpack]
  constructor
  · intro h
    obtain ⟨hfirst, hsecond⟩ := ordered_of_compare h
    rw [compare_eq_level hfirst hsecond, Option.some.injEq, compare_lt_iff_lt] at h
    exact ⟨hfirst, hsecond, h⟩
  · rintro ⟨hfirst, hsecond, hlt⟩
    rw [compare_eq_level hfirst hsecond, compare_lt_iff_lt.mpr hlt]

theorem le_iff_level :
    first ≤ second ↔ Ordered first ∧ Ordered second ∧ level first ≤ level second := by
  rw [le_iff_unpack, Option.any_eq_true]
  constructor
  · rintro ⟨order, horder, hle⟩
    obtain ⟨hfirst, hsecond⟩ := ordered_of_compare horder
    rw [compare_eq_level hfirst hsecond, Option.some.injEq] at horder
    rw [← horder, ← Ordering.ne_gt_iff_isLE] at hle
    exact ⟨hfirst, hsecond, compare_le_iff_le.mp hle⟩
  · rintro ⟨hfirst, hsecond, hle⟩
    exact ⟨_, compare_eq_level hfirst hsecond,
      Ordering.ne_gt_iff_isLE.mp (compare_le_iff_le.mpr hle)⟩

/-- Below an infinite level there are only finite numbers. -/
theorem isFinite_of_abs_level_lt (hordered : Ordered first) (h : |level first| < ceiling) :
    first.isFinite = true := by
  rcases cases_unpacked first.toModel.unpack with hnot | ⟨sign, hinfinite⟩ | hfinite
  · exact absurd hnot hordered
  · rw [level, hinfinite, unpackedLevel, abs_signed sign ceiling_pos.le] at h
    exact absurd h (lt_irrefl ceiling)
  · exact hfinite

theorem isFinite_of_le_of_lt {low number high : Float} (hlow : low.isFinite = true)
    (hhigh : high.isFinite = true) (hle : low ≤ number) (hlt : number < high) :
    number.isFinite = true := by
  obtain ⟨_, hordered, habove⟩ := le_iff_level.mp hle
  obtain ⟨_, _, hbelow⟩ := lt_iff_level.mp hlt
  rw [level_of_isFinite hlow] at habove
  rw [level_of_isFinite hhigh] at hbelow
  refine isFinite_of_abs_level_lt hordered (abs_lt.mpr ⟨?_, ?_⟩)
  · exact (abs_lt.mp (abs_exact_lt low)).1.trans_le habove
  · exact hbelow.trans (abs_lt.mp (abs_exact_lt high)).2

protected theorem le_of_lt (h : first < second) : first ≤ second := by
  obtain ⟨hfirst, hsecond, hlt⟩ := lt_iff_level.mp h
  exact le_iff_level.mpr ⟨hfirst, hsecond, hlt.le⟩

protected theorem lt_of_le_of_lt {third : Float} (hle : first ≤ second) (hlt : second < third) :
    first < third := by
  obtain ⟨hfirst, _, hbelow⟩ := le_iff_level.mp hle
  obtain ⟨_, hthird, habove⟩ := lt_iff_level.mp hlt
  exact lt_iff_level.mpr ⟨hfirst, hthird, hbelow.trans_lt habove⟩

protected theorem not_lt_of_le (h : first ≤ second) : ¬ second < first := by
  intro hlt
  exact (le_iff_level.mp h).2.2.not_gt (lt_iff_level.mp hlt).2.2

/-- Packing does not move a number below zero or above it. -/
theorem pos_of_level_bounded {number : UnpackedFloat} (h : 0 < unpackedLevel (bounded number)) :
    0 < unpackedLevel number := by
  cases number with
  | finite sign digits last hpositive =>
      cases sign with
      | positive => exact unpackedValue_pos hpositive
      | negative =>
          rw [bounded] at h
          split_ifs at h
          · exact h
          · exact absurd h (neg_neg_of_pos ceiling_pos).not_gt
  | _ => exact h

section Sub

variable {left right : UnpackedFloat}

theorem sub_notANumber (left : UnpackedFloat) :
    UnpackedFloat.sub Format.binary64 left .notANumber = .notANumber := by
  cases left <;> rfl

theorem sub_infinity (h : right.isFinite = true) (sign : Sign) :
    UnpackedFloat.sub Format.binary64 (.infinity sign) right = .infinity sign ∧
      UnpackedFloat.sub Format.binary64 right (.infinity sign) = .infinity (-sign) := by
  cases right with
  | infinity => cases h
  | notANumber => cases h
  | zero | finite => exact ⟨rfl, rfl⟩

theorem canonical_sub (hleft : Canonical left) (hright : Canonical right) :
    Canonical (UnpackedFloat.sub Format.binary64 left right) := by
  rcases cases_unpacked left with rfl | ⟨sign, rfl⟩ | hfinite
  · trivial
  · rcases cases_unpacked right with rfl | ⟨other, rfl⟩ | hfinite'
    · trivial
    · rw [UnpackedFloat.sub]
      split_ifs <;> trivial
    · rw [(sub_infinity hfinite' sign).1]
      trivial
  · rcases cases_unpacked right with rfl | ⟨other, rfl⟩ | hfinite'
    · rw [sub_notANumber]
      trivial
    · rw [(sub_infinity hfinite other).2]
      trivial
    · exact (sub_rounds hleft hright hfinite hfinite').canonical

/-- A positive difference, rounded or not, is one of numbers in descending order. -/
theorem lt_of_sub_level_pos (hleft : Canonical left) (hright : Canonical right)
    (hfits : bounded left = left) (hfits' : bounded right = right)
    (h : 0 < unpackedLevel (UnpackedFloat.sub Format.binary64 left right)) :
    left ≠ .notANumber ∧ right ≠ .notANumber ∧ unpackedLevel right < unpackedLevel left := by
  have hvalue := abs_lt.mp (abs_lt_of_bounded hleft hfits)
  have hvalue' := abs_lt.mp (abs_lt_of_bounded hright hfits')
  have hceiling := ceiling_pos
  have hnegative : ¬ 0 < -ceiling := (neg_neg_of_pos hceiling).not_gt
  rcases cases_unpacked left with rfl | ⟨sign, rfl⟩ | hfinite
  · exact absurd h (lt_irrefl 0)
  · rcases cases_unpacked right with rfl | ⟨other, rfl⟩ | hfinite'
    · exact absurd h (lt_irrefl 0)
    · cases sign with
      | negative =>
          cases other with
          | negative => exact absurd h (lt_irrefl 0)
          | positive => exact absurd h hnegative
      | positive =>
          cases other with
          | negative => exact ⟨nofun, nofun, neg_lt_self hceiling⟩
          | positive => exact absurd h (lt_irrefl 0)
    · rw [(sub_infinity hfinite' sign).1] at h
      cases sign with
      | negative => exact absurd h hnegative
      | positive =>
          rw [unpackedLevel_of_isFinite hfinite']
          exact ⟨nofun, ne_notANumber hfinite', hvalue'.2⟩
  · rcases cases_unpacked right with rfl | ⟨other, rfl⟩ | hfinite'
    · rw [sub_notANumber] at h
      exact absurd h (lt_irrefl 0)
    · rw [(sub_infinity hfinite other).2] at h
      cases other with
      | negative =>
          rw [unpackedLevel_of_isFinite hfinite]
          exact ⟨ne_notANumber hfinite, nofun, hvalue.1⟩
      | positive => exact absurd h hnegative
    · have hrounds := sub_rounds hleft hright hfinite hfinite'
      rw [unpackedLevel_of_isFinite hrounds.finite, hrounds.value_eq] at h
      rw [unpackedLevel_of_isFinite hfinite, unpackedLevel_of_isFinite hfinite']
      exact ⟨ne_notANumber hfinite, ne_notANumber hfinite', sub_pos.mp (pos_of_nearest_pos h)⟩

end Sub

/-- The scalars of a positive difference are in descending order. -/
theorem lt_of_pos_sub (h : 0 < first - second) : second < first := by
  have hunpack : (first - second).toModel.unpack = bounded
      (UnpackedFloat.sub Format.binary64 first.toModel.unpack second.toModel.unpack) :=
    unpack_ofModel_pack _ (canonical_sub (canonical first) (canonical second))
  obtain ⟨_, _, hlevel⟩ := lt_iff_level.mp h
  have hzero : level 0 = 0 := level_of_isFinite rfl
  rw [hzero, level, hunpack] at hlevel
  obtain ⟨hordered, hordered', hlt⟩ := lt_of_sub_level_pos (canonical first) (canonical second)
    (bounded_unpack first) (bounded_unpack second) (pos_of_level_bounded hlevel)
  exact lt_iff_level.mpr ⟨hordered', hordered, hlt⟩

/-- A finite scalar equals itself as scalars compare. -/
theorem beq_self (h : first.isFinite = true) : (first == first) = true := by
  change (first.toModel.unpack.compare first.toModel.unpack == some .eq) = true
  rw [compare_eq (canonical first) (canonical first) h h, compare_eq_iff_eq.mpr rfl]
  rfl

section Extremes

theorem not_lt_self (number : Float) : ¬ number < number := by
  intro h
  exact lt_irrefl _ (lt_iff_level.mp h).2.2

/-- The lesser of two scalars is above neither of them. -/
theorem not_lt_lesser_left (hfinite : first.isFinite = true) :
    ¬ first < Scalar.lesser first second := by
  rw [Scalar.lesser, if_pos ((le_iff hfinite hfinite).mpr le_rfl)]
  split_ifs with hless
  · exact Binary64.not_lt_of_le (Binary64.le_of_lt hless)
  · exact not_lt_self first

theorem not_lt_lesser_right : ¬ second < Scalar.lesser first second := by
  rw [Scalar.lesser]
  split_ifs with _ hless
  · exact not_lt_self second
  · exact hless
  · exact not_lt_self second

/-- The greater of two scalars is below neither of them. -/
theorem not_greater_lt_left (hfinite : first.isFinite = true) :
    ¬ Scalar.greater first second < first := by
  rw [Scalar.greater, if_pos ((le_iff hfinite hfinite).mpr le_rfl)]
  split_ifs with hless
  · exact Binary64.not_lt_of_le (Binary64.le_of_lt hless)
  · exact not_lt_self first

theorem not_greater_lt_right : ¬ Scalar.greater first second < second := by
  rw [Scalar.greater]
  split_ifs with _ hless
  · exact not_lt_self second
  · exact hless
  · exact not_lt_self second

/-- A difference is not positive if its scalars do not pass two finite ones in
ascending order. -/
theorem not_pos_sub {low high : Float} (hfirst : first.isFinite = true)
    (hsecond : second.isFinite = true) (hle : exact first ≤ exact second)
    (hlow : ¬ first < low) (hhigh : ¬ high < second) : ¬ 0 < low - high := by
  intro hpositive
  obtain ⟨hordered, hordered', hlt⟩ := lt_iff_level.mp (lt_of_pos_sub hpositive)
  have hbelow : level low ≤ exact first := by
    rw [← level_of_isFinite hfirst]
    exact not_lt.mp fun h => hlow (lt_iff_level.mpr ⟨ordered_of_isFinite hfirst, hordered', h⟩)
  have habove : exact second ≤ level high := by
    rw [← level_of_isFinite hsecond]
    exact not_lt.mp fun h => hhigh (lt_iff_level.mpr ⟨hordered, ordered_of_isFinite hsecond, h⟩)
  linarith

end Extremes

end Parterre.Binary64
