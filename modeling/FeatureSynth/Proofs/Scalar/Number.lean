/-
# The numbers of doubles

A finite double is a rational number, `Scalar.number`.  An infinite one is given the
place of the first power of two that no double reaches, so that doubles compare
exactly as their numbers do.
-/
import FeatureSynth.Proofs.Scalar.Order

namespace FeatureSynth

namespace Scalar

open Float.Model Float.Model.UnpackedFloat

/-! ## Numbers -/

/-- A number with the sign of a double. -/
def withSign (s : Sign) (q : ℚ) : ℚ :=
  match s with
  | .negative => -q
  | .positive => q

theorem withSign_zero (s : Sign) : withSign s 0 = 0 := by
  cases s with
  | positive => rfl
  | negative => exact neg_zero

/-- The number of an unpacked double; that of NaN means nothing. -/
def numberOf : UnpackedFloat → ℚ
  | .infinity s => withSign s (2 ^ 1024)
  | .finite s m e _ => withSign s (m * 2 ^ e)
  | .zero _ | .notANumber => 0

@[simp] theorem numberOf_infinity (s : Sign) : numberOf (.infinity s) = withSign s (2 ^ 1024) := rfl

@[simp] theorem numberOf_finite (s : Sign) (m : ℕ) (e : ℤ) (hm : 0 < m) :
    numberOf (.finite s m e hm) = withSign s (m * 2 ^ e) := rfl

@[simp] theorem numberOf_zero (s : Sign) : numberOf (.zero s) = 0 := rfl

/-- The number a double stands for.  An infinite double stands beside the finite ones, at the first
power of two beyond them. -/
def number (x : Float) : ℚ := numberOf x.toModel.unpack

/-- A mantissa and an exponent are those of a double. -/
def Proper : UnpackedFloat → Prop
  | .finite _ m e _ => Canonical m e ∧ e ≤ 971
  | _ => True

theorem proper_unpack (x : Float) : Proper x.toModel.unpack := by
  rw [unpack_eq_decode]
  cases hdecode : decode x with
  | nan => trivial
  | infinite negative => trivial
  | finite negative m e =>
    rw [Binary.unpacked]
    by_cases hm : 0 < m
    · rw [dif_pos hm]
      exact canonical_of_decode hdecode hm
    · rw [dif_neg hm]
      trivial

theorem isFinite_unpack (x : Float) : x.toModel.unpack.isFinite = isFinite x := by
  rw [unpack_eq_decode, isFinite]
  cases decode x with
  | nan => rfl
  | infinite negative => rfl
  | finite negative m e =>
    rw [Binary.unpacked]
    by_cases hm : 0 < m
    · rw [dif_pos hm]
      rfl
    · rw [dif_neg hm]
      rfl

theorem isInfinite_unpack (x : Float) : x.toModel.unpack.isInf = isInfinite x := by
  rw [unpack_eq_decode, isInfinite]
  cases decode x with
  | nan => rfl
  | infinite negative => rfl
  | finite negative m e =>
    rw [Binary.unpacked]
    by_cases hm : 0 < m
    · rw [dif_pos hm]
      rfl
    · rw [dif_neg hm]
      rfl

variable {m m' : ℕ} {e e' : ℤ} {x y : Float}

theorem Canonical.value_pos (hc : Canonical m e) : (0 : ℚ) < m * 2 ^ e := by
  have := hc.pos
  positivity

theorem two_zpow_lt_limit {k : ℤ} (hk : k < 1024) : (2 : ℚ) ^ k < 2 ^ 1024 :=
  (zpow_lt_zpow_right₀ one_lt_two hk).trans_eq (zpow_natCast 2 1024)

/-- A finite double is below every power of two that has a greater exponent than its leading digit. -/
theorem Canonical.value_lt (hc : Canonical m e) {k : ℤ} (hk : e + 53 ≤ k) : (m : ℚ) * 2 ^ e < 2 ^ k := by
  have hm : (m : ℚ) < 2 ^ (53 : ℤ) := by exact_mod_cast hc.lt
  calc (m : ℚ) * 2 ^ e < 2 ^ (53 : ℤ) * 2 ^ e := by gcongr
    _ = 2 ^ (e + 53) := by rw [← zpow_add₀ two_ne_zero, add_comm]
    _ ≤ 2 ^ k := zpow_le_zpow_right₀ one_le_two hk

/-- A mantissa of 53 digits reaches the power of two of its leading digit. -/
theorem Canonical.le_value (hc : Canonical m e) (he : -1074 < e) : (2 : ℚ) ^ (e + 52) ≤ m * 2 ^ e := by
  have hm : (2 : ℚ) ^ (52 : ℤ) ≤ m := by exact_mod_cast hc.normal.resolve_right he.ne'
  rw [zpow_add₀ two_ne_zero, mul_comm]
  gcongr

theorem Canonical.value_lt_limit (hc : Canonical m e) (he : e ≤ 971) : (m : ℚ) * 2 ^ e < 2 ^ 1024 :=
  hc.value_lt (by omega : e + 53 ≤ 1024)

/-- Exponents decide between two magnitudes, then mantissas. -/
theorem Canonical.value_lt_value (hc : Canonical m e) (hc' : Canonical m' e')
    (h : e < e' ∨ e = e' ∧ m < m') : (m : ℚ) * 2 ^ e < m' * 2 ^ e' := by
  obtain he | ⟨rfl, hm⟩ := h
  · have hleast := hc.least
    exact (hc.value_lt (by omega)).trans_le (hc'.le_value (by omega))
  · gcongr

/-- Numbers are in the order of places. -/
theorem numberOf_lt_of_place {u v : UnpackedFloat} (hu : Proper u) (hv : Proper v)
    (h : placeOf u < placeOf v) : numberOf u < numberOf v := by
  have hlimit : (0 : ℚ) < 2 ^ 1024 := by positivity
  -- places of one class compare by magnitude, places of different classes by class alone
  have hclass : ∀ {c d : ℤ} {a b : ℤ ×ₗ ℤ}, (toLex (c, a) : Place) < toLex (d, b) →
      c < d ∨ c = d ∧ a < b := fun h => Prod.Lex.toLex_lt_toLex.mp h
  have hmagnitude : ∀ {c d a b : ℤ}, (toLex (c, a) : ℤ ×ₗ ℤ) < toLex (d, b) →
      c < d ∨ c = d ∧ a < b := fun h => Prod.Lex.toLex_lt_toLex.mp h
  match u, v with
  | .finite .positive m e _, .finite .positive m' e' _ =>
    obtain h | ⟨-, h⟩ := hclass h
    · exact absurd h (lt_irrefl _)
    · exact hu.1.value_lt_value hv.1 ((hmagnitude h).imp_right (.imp_right Int.ofNat_lt.mp))
  | .finite .negative m e _, .finite .negative m' e' _ =>
    obtain h | ⟨-, h⟩ := hclass h
    · exact absurd h (lt_irrefl _)
    · refine neg_lt_neg (hv.1.value_lt_value hu.1 ?_)
      have := hmagnitude h
      omega
  | .infinity s, .infinity t =>
    cases s <;> cases t <;> first | exact absurd h (by decide) | exact neg_lt_self hlimit
  | .infinity .negative, .finite .positive .. =>
    exact (neg_neg_of_pos hlimit).trans hv.1.value_pos
  | .infinity .negative, .finite .negative .. => exact neg_lt_neg (hv.1.value_lt_limit hv.2)
  | .infinity .negative, .zero _ | .infinity .negative, .notANumber => exact neg_neg_of_pos hlimit
  | .finite .negative .., .infinity .positive =>
    exact (neg_neg_of_pos hu.1.value_pos).trans hlimit
  | .finite .positive .., .infinity .positive => exact hu.1.value_lt_limit hu.2
  | .zero _, .infinity .positive | .notANumber, .infinity .positive => exact hlimit
  | .finite .negative .., .finite .positive .. =>
    exact (neg_neg_of_pos hu.1.value_pos).trans hv.1.value_pos
  | .finite .negative .., .zero _ | .finite .negative .., .notANumber => exact neg_neg_of_pos hu.1.value_pos
  | .zero _, .finite .positive .. | .notANumber, .finite .positive .. => exact hv.1.value_pos
  -- the others are at one place, or in the opposite order
  | .zero _, .zero _ | .zero _, .notANumber | .notANumber, .zero _ | .notANumber, .notANumber =>
    exact absurd h (lt_irrefl _)
  | .infinity .positive, .finite s .. | .finite s .., .infinity .negative =>
    cases s <;> obtain h | ⟨h, -⟩ := hclass h <;> exact absurd h (by decide)
  | .infinity .positive, .zero _ | .infinity .positive, .notANumber | .zero _, .infinity .negative
  | .notANumber, .infinity .negative | .finite .positive .., .finite .negative ..
  | .finite .positive .., .zero _ | .finite .positive .., .notANumber | .zero _, .finite .negative ..
  | .notANumber, .finite .negative .. =>
    obtain h | ⟨h, -⟩ := hclass h <;> exact absurd h (by decide)

theorem numberOf_eq_of_place {u v : UnpackedFloat} (h : placeOf u = placeOf v) :
    numberOf u = numberOf v := by
  have hclass : ∀ {c d : ℤ} {a b : ℤ ×ₗ ℤ}, (toLex (c, a) : Place) = toLex (d, b) → c = d ∧ a = b :=
    fun h => Prod.mk.inj (toLex.injective h)
  have hmagnitude : ∀ {c d a b : ℤ}, (toLex (c, a) : ℤ ×ₗ ℤ) = toLex (d, b) → c = d ∧ a = b :=
    fun h => Prod.mk.inj (toLex.injective h)
  cases u with
  | notANumber | zero =>
    cases v with
    | notANumber | zero => rfl
    | infinity s => cases s <;> exact absurd (hclass h).1 (by decide)
    | finite s m e hm => cases s <;> exact absurd (hclass h).1 (by decide)
  | infinity s =>
    cases v with
    | notANumber | zero => cases s <;> exact absurd (hclass h).1 (by decide)
    | infinity t => cases s <;> cases t <;> first | exact absurd (hclass h).1 (by decide) | rfl
    | finite t m e hm => cases s <;> cases t <;> exact absurd (hclass h).1 (by decide)
  | finite s m e hm =>
    cases v with
    | notANumber | zero => cases s <;> exact absurd (hclass h).1 (by decide)
    | infinity t => cases s <;> cases t <;> exact absurd (hclass h).1 (by decide)
    | finite t m' e' hm' =>
      cases s <;> cases t <;> try exact absurd (hclass h).1 (by decide)
      all_goals
        obtain ⟨he, hm⟩ := hmagnitude (hclass h).2
        obtain ⟨rfl, rfl⟩ : m = m' ∧ e = e' := by omega
        rfl

/-! ## Finite doubles -/

/-- A finite double is a zero, or has a mantissa and an exponent of doubles. -/
theorem unpack_of_isFinite (hx : isFinite x = true) :
    (∃ s, x.toModel.unpack = .zero s) ∨
      ∃ s m e, ∃ hc : Canonical m e, e ≤ 971 ∧ x.toModel.unpack = .finite s m e hc.pos := by
  rw [← isFinite_unpack] at hx
  have hproper := proper_unpack x
  cases hunpack : x.toModel.unpack with
  | infinity s => rw [hunpack] at hx; cases hx
  | notANumber => rw [hunpack] at hx; cases hx
  | zero s => exact .inl ⟨s, rfl⟩
  | finite s m e hm =>
    rw [hunpack] at hproper
    exact .inr ⟨s, m, e, hproper.1, hproper.2, rfl⟩

theorem abs_withSign (s : Sign) (q : ℚ) : |withSign s q| = |q| := by
  cases s with
  | positive => rfl
  | negative => exact abs_neg q

theorem withSign_withSign (s : Sign) (q : ℚ) : withSign s (withSign s q) = q := by
  cases s with
  | positive => rfl
  | negative => exact neg_neg q

/-- The finite doubles are those below the limit. -/
theorem isFinite_iff_number (hx : isNaN x = false) : isFinite x = true ↔ |number x| < 2 ^ 1024 := by
  have hlimit : (0 : ℚ) < 2 ^ 1024 := by positivity
  have hproper := proper_unpack x
  rw [← isNaN_unpack] at hx
  rw [← isFinite_unpack, number]
  cases hunpack : x.toModel.unpack with
  | notANumber => rw [hunpack] at hx; cases hx
  | infinity s =>
    rw [numberOf_infinity, abs_withSign, abs_of_pos hlimit]
    exact iff_of_false Bool.false_ne_true (lt_irrefl _)
  | zero s =>
    rw [numberOf_zero, abs_zero]
    exact iff_of_true rfl hlimit
  | finite s m e hm =>
    rw [hunpack] at hproper
    rw [numberOf_finite, abs_withSign, abs_of_pos hproper.1.value_pos]
    exact iff_of_true rfl (hproper.1.value_lt_limit hproper.2)

theorem isNaN_of_isFinite (hx : isFinite x = true) : isNaN x = false := by
  rw [← isFinite_unpack] at hx
  rw [← isNaN_unpack]
  cases hunpack : x.toModel.unpack <;> rw [hunpack] at hx <;> first | rfl | cases hx

/-- A double that is not NaN is finite or infinite. -/
theorem isFinite_or_infinity (hx : isNaN x = false) :
    isFinite x = true ∨ ∃ s, x.toModel.unpack = .infinity s := by
  rw [← isNaN_unpack] at hx
  rw [← isFinite_unpack]
  cases hunpack : x.toModel.unpack with
  | notANumber => rw [hunpack] at hx; cases hx
  | infinity s => exact .inr ⟨s, rfl⟩
  | zero s => exact .inl rfl
  | finite s m e hm => exact .inl rfl

/-- An infinite double is known by its number. -/
theorem unpack_infinity_iff (hx : isNaN x = false) (s : Sign) :
    x.toModel.unpack = .infinity s ↔ number x = withSign s (2 ^ 1024) := by
  have hlimit : (0 : ℚ) < 2 ^ 1024 := by positivity
  constructor
  · intro h
    rw [number, h, numberOf_infinity]
  · intro h
    obtain hfinite | ⟨t, hunpack⟩ := isFinite_or_infinity hx
    · have hlt := (isFinite_iff_number hx).mp hfinite
      rw [h, abs_withSign, abs_of_pos hlimit] at hlt
      exact absurd hlt (lt_irrefl _)
    · rw [number, hunpack, numberOf_infinity] at h
      rw [hunpack]
      have hne := neg_lt_self hlimit
      generalize (2 : ℚ) ^ 1024 = limit at h hne
      cases s with
      | positive =>
        cases t with
        | positive => rfl
        | negative => exact absurd h hne.ne
      | negative =>
        cases t with
        | positive => exact absurd h hne.ne'
        | negative => rfl

theorem abs_number_le (x : Float) : |number x| ≤ 2 ^ 1024 := by
  have hlimit : (0 : ℚ) < 2 ^ 1024 := by positivity
  have hproper := proper_unpack x
  rw [number]
  cases hunpack : x.toModel.unpack with
  | infinity s => rw [numberOf_infinity, abs_withSign, abs_of_pos hlimit]
  | notANumber | zero =>
    show |(0 : ℚ)| ≤ 2 ^ 1024
    rw [abs_zero]
    exact hlimit.le
  | finite s m e hm =>
    rw [hunpack] at hproper
    rw [numberOf_finite, abs_withSign, abs_of_pos hproper.1.value_pos]
    exact (hproper.1.value_lt_limit hproper.2).le

/-- The fields of a double read its number. -/
theorem number_of_decode {negative : Bool} (h : decode x = .finite negative m e) :
    number x = withSign (Binary.sign negative) (m * 2 ^ e) := by
  rw [number, unpack_eq_decode, h, Binary.unpacked]
  obtain rfl | hm := Nat.eq_zero_or_pos m
  · rw [dif_neg (lt_irrefl 0), numberOf_zero, Nat.cast_zero, zero_mul]
    cases negative
    · rfl
    · exact neg_zero.symm
  · rw [dif_pos hm, numberOf_finite]

/-! ## Comparisons -/

section Comparison

variable (hx : isNaN x = false) (hy : isNaN y = false)
include hx hy

/-- Doubles compare as their numbers. -/
theorem le_iff_number : x ≤ y ↔ number x ≤ number y := by
  rw [le_iff_place hx hy]
  constructor
  · intro h
    obtain h | h := h.lt_or_eq
    · exact (numberOf_lt_of_place (proper_unpack x) (proper_unpack y) h).le
    · exact (numberOf_eq_of_place h).le
  · intro h
    by_contra hlt
    exact not_le.mpr (numberOf_lt_of_place (proper_unpack y) (proper_unpack x) (not_le.mp hlt)) h

theorem lt_iff_number : x < y ↔ number x < number y := by
  rw [lt_iff_place hx hy, ← not_le, ← le_iff_place hy hx, le_iff_number hy hx, not_le]

theorem beq_iff_number : (x == y) = true ↔ number x = number y := by
  rw [beq_iff_place hx hy, le_antisymm_iff, ← le_iff_place hx hy, ← le_iff_place hy hx,
    le_iff_number hx hy, le_iff_number hy hx, ← le_antisymm_iff]

end Comparison

end Scalar
end FeatureSynth
