/-
The scalars of a run as exact numbers.  Finite scalars are compared like their
values, and an operation on them returns the nearest number to the exact result
unless that is too large.
-/
import Parterre.Proofs.Binary64.Operations
import Parterre.Scalar

namespace Parterre.Binary64

open Float.Model

/-- The rational number of a scalar; zero if it is not finite. -/
def exact (number : Float) : Rat :=
  unpackedValue number.toModel.unpack

theorem canonical (number : Float) : Canonical number.toModel.unpack :=
  (canonical_unpack _).1

theorem bounded_unpack (number : Float) :
    bounded number.toModel.unpack = number.toModel.unpack :=
  (canonical_unpack _).2

theorem unpack_ofModel_pack (number : UnpackedFloat) (h : Canonical number) :
    (Float.ofModel (.pack number)).toModel.unpack = bounded number :=
  unpack_pack h

variable {first second : Float}

theorem lt_iff_unpack :
    first < second ↔ first.toModel.unpack.compare second.toModel.unpack = some .lt := by
  change decide (first.toModel < second.toModel) = true ↔ _
  rw [decide_eq_true_iff]
  change (first.toModel.unpack.compare second.toModel.unpack == some .lt) = true ↔ _
  rw [beq_iff_eq]

theorem lt_iff (hfirst : first.isFinite = true) (hsecond : second.isFinite = true) :
    first < second ↔ exact first < exact second := by
  rw [lt_iff_unpack, compare_eq (canonical first) (canonical second) hfirst hsecond,
    Option.some.injEq, compare_lt_iff_lt, exact, exact]

theorem le_iff_unpack :
    first ≤ second ↔
      (first.toModel.unpack.compare second.toModel.unpack).any Ordering.isLE = true := by
  change decide (first.toModel ≤ second.toModel) = true ↔ _
  rw [decide_eq_true_iff]
  rfl

theorem le_iff (hfirst : first.isFinite = true) (hsecond : second.isFinite = true) :
    first ≤ second ↔ exact first ≤ exact second := by
  rw [le_iff_unpack, compare_eq (canonical first) (canonical second) hfirst hsecond,
    Option.any_some, ← Ordering.ne_gt_iff_isLE]
  exact compare_le_iff_le

/-- The result of an operation: the nearest number to the exact value, and
finite unless that number is too large. -/
structure Computes (result : Float) (value : Rat) : Prop where
  exact_eq : result.isFinite = true → exact result = nearest value
  isFinite : |nearest value| < ceiling → result.isFinite = true

theorem Rounds.computes {number : UnpackedFloat} {value : Rat} (h : Rounds number value) :
    Computes (.ofModel (.pack number)) value := by
  obtain ⟨hfinite, hcanonical, hvalue⟩ := h
  have hunpack := unpack_ofModel_pack number hcanonical
  constructor
  · intro hpacked
    rw [Float.isFinite, Float.Model.isFinite, hunpack] at hpacked
    rw [exact, hunpack, bounded_of_isFinite hpacked, hvalue]
  · intro hsmall
    rw [← hvalue] at hsmall
    rw [Float.isFinite, Float.Model.isFinite, hunpack, bounded_of_lt hcanonical hsmall, hfinite]

theorem computes_add (hfirst : first.isFinite = true) (hsecond : second.isFinite = true) :
    Computes (first + second) (exact first + exact second) :=
  (add_rounds (canonical first) (canonical second) hfirst hsecond).computes

theorem computes_sub (hfirst : first.isFinite = true) (hsecond : second.isFinite = true) :
    Computes (first - second) (exact first - exact second) :=
  (sub_rounds (canonical first) (canonical second) hfirst hsecond).computes

theorem computes_mul (hfirst : first.isFinite = true) (hsecond : second.isFinite = true) :
    Computes (first * second) (exact first * exact second) :=
  (mul_rounds (canonical first) (canonical second) hfirst hsecond).computes

theorem computes_div (hfirst : first.isFinite = true) (hne : exact second ≠ 0) :
    Computes (first / second) (exact first / exact second) :=
  (div_rounds (canonical first) (canonical second) hfirst hne).computes

@[simp]
theorem exact_zero : exact 0 = 0 :=
  rfl

/-- A scalar of positive value has digits. -/
theorem exists_canonical (h : 0 < exact first) :
    ∃ digits last hpositive, first.toModel.unpack = .finite .positive digits last hpositive ∧
      Canonical (.finite .positive digits last hpositive) ∧
        exact first = digits * 2 ^ last := by
  obtain ⟨digits, last, hpositive, hunpack⟩ := exists_digits h
  refine ⟨digits, last, hpositive, hunpack, hunpack ▸ canonical first, ?_⟩
  rw [exact, hunpack, unpackedValue, signed]

theorem isFinite_of_exact_pos (h : 0 < exact first) : first.isFinite = true := by
  obtain ⟨digits, last, hpositive, hunpack, _⟩ := exists_canonical h
  rw [Float.isFinite, Float.Model.isFinite, hunpack, UnpackedFloat.isFinite]

theorem nearest_exact (number : Float) : nearest (exact number) = exact number :=
  nearest_unpackedValue (canonical number)

theorem abs_exact_lt (number : Float) : |exact number| < ceiling :=
  abs_lt_of_bounded (canonical number) (bounded_unpack number)

/-- No positive scalar is below the smallest one. -/
theorem least_le (h : 0 < exact first) : 2 ^ (-1074 : Int) ≤ exact first := by
  obtain ⟨digits, last, hpositive, _, ⟨_, hlast, _⟩, hvalue⟩ := exists_canonical h
  have hdigits : (1 : Rat) ≤ digits := by exact_mod_cast hpositive
  calc (2 : Rat) ^ (-1074 : Int) ≤ 2 ^ last := zpow_le_zpow_two hlast
    _ ≤ digits * 2 ^ last := le_mul_of_one_le_left (zpow_pos two_pos _).le hdigits
    _ = exact first := hvalue.symm

/-- A result between two scalars is computed, and lies between them. -/
theorem Computes.between {result : Float} {value : Rat} (h : Computes result value)
    (low high : Float) (hlow : exact low ≤ value) (hhigh : value ≤ exact high) :
    result.isFinite = true ∧ exact low ≤ exact result ∧ exact result ≤ exact high := by
  have hlow' := nearest_mono hlow
  have hhigh' := nearest_mono hhigh
  rw [nearest_exact] at hlow' hhigh'
  have hfinite : result.isFinite = true := by
    apply h.isFinite
    have habove := abs_lt.mp (abs_exact_lt low)
    have hbelow := abs_lt.mp (abs_exact_lt high)
    exact abs_lt.mpr ⟨habove.1.trans_le hlow', hhigh'.trans_lt hbelow.2⟩
  rw [h.exact_eq hfinite]
  exact ⟨hfinite, hlow', hhigh'⟩

/-- What is left of a length is a number up to it. -/
theorem isFinite_sub (hfirst : 0 < exact first) (hsecond : 0 < exact second) :
    (first - second).isFinite = true ∧ exact (first - second) ≤ exact first := by
  have hsub := computes_sub (isFinite_of_exact_pos hfirst) (isFinite_of_exact_pos hsecond)
  have habove := nearest_mono (show exact first - exact second ≤ exact first by linarith)
  have hbelow := nearest_mono (show -exact second ≤ exact first - exact second by linarith)
  rw [nearest_exact] at habove
  rw [nearest_neg, nearest_exact] at hbelow
  have hfinite : (first - second).isFinite = true := by
    apply hsub.isFinite
    have hsmall := abs_lt.mp (abs_exact_lt first)
    have hsmall' := abs_lt.mp (abs_exact_lt second)
    exact abs_lt.mpr ⟨by linarith, by linarith⟩
  rw [hsub.exact_eq hfinite]
  exact ⟨hfinite, habove⟩

/-- Something is left of a length only if less was taken off. -/
theorem lt_of_sub_pos (hfirst : 0 < exact first) (hsecond : 0 < exact second)
    (hrest : 0 < exact (first - second)) : exact second < exact first := by
  have hsub := computes_sub (isFinite_of_exact_pos hfirst) (isFinite_of_exact_pos hsecond)
  rw [hsub.exact_eq (isFinite_of_exact_pos hrest)] at hrest
  exact sub_pos.mp (pos_of_nearest_pos hrest)

/-- What is taken off is not rounded away if it is a unit of the last digit or
more. -/
theorem exact_sub_lt (hfirst : 0 < exact first) (hless : quantum (exact first) ≤ exact second)
    (hsecond : second.isFinite = true) (hfinite : (first - second).isFinite = true) :
    exact (first - second) < exact first := by
  obtain ⟨digits, last, hpositive, _, hcanonical, hvalue⟩ := exists_canonical hfirst
  rw [quantum, hvalue, exponent_digits hcanonical] at hless
  rw [(computes_sub (isFinite_of_exact_pos hfirst) hsecond).exact_eq hfinite, hvalue]
  exact nearest_sub_lt hpositive hcanonical.1 hcanonical.2.1 hless

/-- A part that is not too small a share is a unit of the last digit or more. -/
theorem quantum_le_exact {value : Rat} (hfirst : 0 < exact first)
    (hshare : exact first * 2 ^ (-52 : Int) ≤ value) (hpart : Computes second value)
    (hsecond : 0 < exact second) : quantum (exact first) ≤ exact second := by
  obtain ⟨digits, last, hpositive, _, hcanonical, hvalue⟩ := exists_canonical hfirst
  rw [quantum, hvalue, exponent_digits hcanonical]
  obtain ⟨hdigits, hlast, hnormal | rfl⟩ := hcanonical
  · have hpower : (0 : Rat) < 2 ^ last := zpow_pos two_pos _
    have hdigits' : (2 : Rat) ^ 52 ≤ digits := by exact_mod_cast hnormal
    have hle : 2 ^ last ≤ value := by
      rw [hvalue] at hshare
      calc (2 : Rat) ^ last = 2 ^ 52 * 2 ^ last * 2 ^ (-52 : Int) := by
            rw [zpow_neg]
            norm_num
            field_simp
        _ ≤ digits * 2 ^ last * 2 ^ (-52 : Int) := by gcongr
        _ ≤ value := hshare
    rw [hpart.exact_eq (isFinite_of_exact_pos hsecond),
      ← nearest_of_representable (representable_two_zpow hlast)]
    exact nearest_mono hle
  · exact least_le hsecond

section Zero

variable {roll sum weight : Float}

/-- Only zero is neither below nor above zero. -/
theorem unpack_eq_zero (hle : 0 ≤ weight) (hlt : ¬ 0 < weight) :
    ∃ sign, weight.toModel.unpack = .zero sign := by
  rw [le_iff_unpack] at hle
  rw [lt_iff_unpack] at hlt
  cases hweight : weight.toModel.unpack with
  | zero sign => exact ⟨sign, rfl⟩
  | notANumber =>
      rw [hweight] at hle
      cases hle
  | infinity sign =>
      rw [hweight] at hle hlt
      cases sign with
      | negative => cases hle
      | positive => exact absurd rfl hlt
  | finite sign digits last hpositive =>
      rw [hweight] at hle hlt
      cases sign with
      | negative => cases hle
      | positive => exact absurd rfl hlt

/-- A zero added changes at most the sign of another zero. -/
theorem add_zero_cases (number : UnpackedFloat) (sign : UnpackedFloat.Sign) :
    UnpackedFloat.add Format.binary64 number (.zero sign) = number ∨
      ∃ own other, number = .zero own ∧
        UnpackedFloat.add Format.binary64 number (.zero sign) = .zero other := by
  cases number with
  | zero own =>
      right
      simp only [UnpackedFloat.add]
      split_ifs <;> exact ⟨own, _, rfl, rfl⟩
  | _ => exact Or.inl rfl

theorem compare_zero_eq (number : UnpackedFloat) (own other : UnpackedFloat.Sign) :
    number.compare (.zero own) = number.compare (.zero other) := by
  rcases number with (_ | _) | _ | _ | (_ | _) <;> rfl

/-- A zero added to a sum does not move it past a roll. -/
theorem lt_add_iff (hle : 0 ≤ weight) (hlt : ¬ 0 < weight) :
    roll < sum + weight ↔ roll < sum := by
  obtain ⟨sign, hzero⟩ := unpack_eq_zero hle hlt
  have hadd : sum + weight =
      .ofModel (.pack (UnpackedFloat.add Format.binary64 sum.toModel.unpack (.zero sign))) := by
    rw [← hzero]
    rfl
  rw [lt_iff_unpack, lt_iff_unpack, hadd]
  rcases add_zero_cases sum.toModel.unpack sign with hsame | ⟨own, other, hown, hother⟩
  · rw [hsame, unpack_ofModel_pack _ (canonical sum), bounded_unpack]
  · have hpacked : (Float.ofModel (.pack (.zero other))).toModel.unpack = .zero other :=
      unpack_ofModel_pack (.zero other) trivial
    rw [hother, hpacked, hown, compare_zero_eq _ other own]

theorem zero_add_eq (hle : 0 ≤ weight) (hlt : ¬ 0 < weight) : 0 + weight = 0 := by
  obtain ⟨sign, hzero⟩ := unpack_eq_zero hle hlt
  have hadd : 0 + weight =
      .ofModel (.pack (UnpackedFloat.add Format.binary64 (0 : Float).toModel.unpack
        (.zero sign))) := by
    rw [← hzero]
    rfl
  rw [hadd]
  cases sign <;> rfl

end Zero

/-- The part is lost when it is taken off the side. -/
structure Absorbed (side part : Float) : Prop where
  side_pos : 0 < exact side
  part_pos : 0 < exact part
  part_finite : part.isFinite = true
  sub_finite : (side - part).isFinite = true
  exact_sub : exact (side - part) = exact side

variable {side part : Float}

theorem absorbed_of_not_lt (hside : 0 < exact side) (hpart : 0 < exact part)
    (h : ¬ side - part < side) : Absorbed side part := by
  have hfinite := isFinite_of_exact_pos hside
  have hfinite' := isFinite_of_exact_pos hpart
  obtain ⟨hresult, hle⟩ := isFinite_sub hside hpart
  rw [lt_iff hresult hfinite, not_lt] at h
  exact ⟨hside, hpart, hfinite', hresult, le_antisymm hle h⟩

namespace Absorbed

theorem side_finite (h : Absorbed side part) : side.isFinite = true :=
  isFinite_of_exact_pos h.side_pos

theorem le_nearest_sub (h : Absorbed side part) :
    exact side ≤ nearest (exact side - exact part) := by
  rw [← (computes_sub h.side_finite h.part_finite).exact_eq h.sub_finite, h.exact_sub]

/-- What is left is unpacked like the side. -/
theorem unpack_sub (h : Absorbed side part) :
    (side - part).toModel.unpack = side.toModel.unpack :=
  (eq_of_unpackedValue_eq (canonical _) (canonical _) h.side_pos h.exact_sub.symm).symm

theorem nearest_add (h : Absorbed side part) :
    nearest (exact side + exact part) ≤ exact side := by
  have habsorbed := h.le_nearest_sub
  obtain ⟨digits, last, hpositive, _, ⟨hdigits, hlast, hnormal⟩, hvalue⟩ :=
    exists_canonical h.side_pos
  have hlarge : -1074 < last := by
    by_contra hsmall
    obtain rfl : last = -1074 := by omega
    have hlt := nearest_sub_lt hpositive hdigits hlast (least_le h.part_pos)
    rw [← hvalue] at hlt
    exact absurd habsorbed hlt.not_ge
  rw [hvalue] at habsorbed ⊢
  exact nearest_add_le (hnormal.resolve_right hlarge.ne') hdigits hlarge h.part_pos habsorbed

/-- What is lost when it is taken off is lost when it is added. -/
theorem add_between {offset : Float} (h : Absorbed side part)
    (hfinite : offset.isFinite = true) (hlow : 0 ≤ exact offset)
    (hhigh : exact offset ≤ exact side) :
    (offset + part).isFinite = true ∧ 0 ≤ exact (offset + part) ∧
      exact (offset + part) ≤ exact side := by
  have hpart := h.part_pos
  have hadd := computes_add hfinite h.part_finite
  have habove : nearest (exact offset + exact part) ≤ exact side :=
    (nearest_mono (by linarith)).trans h.nearest_add
  have hbelow : 0 ≤ nearest (exact offset + exact part) := nearest_nonneg (by linarith)
  have hresult : (offset + part).isFinite = true := by
    apply hadd.isFinite
    have hsmall := abs_lt.mp (abs_exact_lt side)
    have hceiling := ceiling_pos
    exact abs_lt.mpr ⟨by linarith, by linarith⟩
  rw [hadd.exact_eq hresult]
  exact ⟨hresult, hbelow, habove⟩

end Absorbed

end Parterre.Binary64
