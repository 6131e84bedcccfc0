/-
# Rounding to a double

A finite double is `m · 2 ^ e` with a mantissa of 53 binary digits, or with the
least exponent (`Canonical`).  The numbers nearest to it make up an interval: half a
step to each side, a quarter below a power of two, where the steps get smaller.  Its
ends belong to it if the mantissa is even (`Near`).

The rounding of the float model shifts a mantissa to the right and keeps two bits of
what falls off.  `StandsAt` says where the exact number is, seen from the mantissa
and these bits; a shift keeps that.  So the rounding of a number in the interval of a
double ends in that double, whatever digits the number came in.  Just below a power of
two it goes through a mantissa with one digit too many.
-/
import Mathlib.Algebra.Order.Field.Basic
import Mathlib.Algebra.Order.Field.Power
import Mathlib.Tactic.FieldSimp
import Mathlib.Tactic.Linarith
import Mathlib.Tactic.Ring
import Mathlib.Tactic.NormNum
import FeatureSynth.Scalar

namespace FeatureSynth

namespace Scalar

open Float.Model Float.Model.UnpackedFloat

/-! ## Mantissas with residual bits -/

/-- What a round bit adds to its mantissa. -/
def bitWeight (b : Bool) : ℚ := if b then 1 / 2 else 0

/-- A number stands at a mantissa with residual bits: at the mantissa with its round bit or, if the sticky
bit is set, above that by less than half a step. -/
def StandsAt (y : ℚ) (em : ExtendedMantissa) : Prop :=
  if em.stickyBit then
    em.mantissa + bitWeight em.roundBit < y ∧ y < em.mantissa + bitWeight em.roundBit + 1 / 2
  else y = em.mantissa + bitWeight em.roundBit

namespace StandsAt

variable {y : ℚ} {em : ExtendedMantissa}

theorem floor (h : StandsAt y em) : em.mantissa ≤ y ∧ y < em.mantissa + 1 := by
  obtain ⟨m, r, s⟩ := em
  cases r <;> cases s <;> simp only [StandsAt, bitWeight, if_true, if_false, Bool.false_eq_true] at h ⊢ <;>
    constructor <;> linarith

/-- Half of a number stands at the mantissa shifted by one. -/
theorem shiftRightOne (h : StandsAt y em) : StandsAt (y / 2) em.shiftRightOne := by
  obtain ⟨m, r, s⟩ := em
  have hm : (m : ℚ) = 2 * (m / 2 : ℕ) + (m % 2 : ℕ) := by exact_mod_cast (Nat.div_add_mod m 2).symm
  have hlow : (m / 2 : ℕ) + bitWeight (m % 2 != 0) = (m : ℚ) / 2 := by
    obtain hbit | hbit := Nat.mod_two_eq_zero_or_one m
    all_goals
      rw [hbit] at hm ⊢
      norm_num [bitWeight] at hm ⊢
      linarith
  -- the new bits are sticky if there was more than the mantissa, and then there is less than one more
  simp only [StandsAt, ExtendedMantissa.shiftRightOne, hlow]
  obtain ⟨hfloor, hceil⟩ := floor h
  cases r <;> cases s <;> simp only [StandsAt, bitWeight, if_true, if_false, Bool.false_eq_true, Bool.or_true, Bool.or_false] at h hfloor hceil ⊢
  · linarith
  all_goals constructor <;> linarith

theorem shift (h : StandsAt y em) (n : ℕ) : StandsAt (y / 2 ^ n) (em >>> n) := by
  induction n with
  | zero =>
    rw [pow_zero, div_one]
    exact h
  | succ n ih =>
    rw [pow_succ, ← div_div]
    exact ih.shiftRightOne

/-- A number rounds to the whole number that is nearer than half a step, or that is even and no farther. -/
theorem rounded (h : StandsAt y em) {n : ℕ}
    (hn : (n : ℚ) - 1 / 2 < y ∧ y < n + 1 / 2 ∨
      n % 2 = 0 ∧ (n : ℚ) - 1 / 2 ≤ y ∧ y ≤ n + 1 / 2) : em.roundedMantissa = n := by
  obtain ⟨m, r, s⟩ := em
  have hlow : (2 * n : ℚ) - 1 ≤ 2 * y := by obtain ⟨h, -⟩ | ⟨-, h, -⟩ := hn <;> linarith
  have hhigh : 2 * y ≤ 2 * n + 1 := by obtain ⟨-, h⟩ | ⟨-, -, h⟩ := hn <;> linarith
  cases r <;> cases s <;> simp only [StandsAt, bitWeight, if_true, if_false, Bool.false_eq_true] at h
  case false.false =>
    have h1 : 2 * n ≤ 2 * m + 1 := by exact_mod_cast (by linarith : (2 * n : ℚ) ≤ 2 * m + 1)
    have h2 : 2 * m ≤ 2 * n + 1 := by exact_mod_cast (by linarith : (2 * m : ℚ) ≤ 2 * n + 1)
    show m = n
    omega
  case false.true =>
    have h1 : 2 * n < 2 * m + 2 := by exact_mod_cast (by linarith : (2 * n : ℚ) < 2 * m + 2)
    have h2 : 2 * m < 2 * n + 1 := by exact_mod_cast (by linarith : (2 * m : ℚ) < 2 * n + 1)
    show m = n
    omega
  case true.false =>
    have h1 : 2 * n ≤ 2 * m + 2 := by exact_mod_cast (by linarith : (2 * n : ℚ) ≤ 2 * m + 2)
    have h2 : 2 * m ≤ 2 * n := by exact_mod_cast (by linarith : (2 * m : ℚ) ≤ 2 * n)
    have heven : n % 2 = 0 := by
      obtain ⟨h3, h4⟩ | ⟨h3, -⟩ := hn
      · have h5 : 2 * n < 2 * m + 2 := by exact_mod_cast (by linarith : (2 * n : ℚ) < 2 * m + 2)
        have h6 : 2 * m < 2 * n := by exact_mod_cast (by linarith : (2 * m : ℚ) < 2 * n)
        omega
      · exact h3
    show m + m % 2 = n
    omega
  case true.true =>
    have h1 : 2 * n < 2 * m + 3 := by exact_mod_cast (by linarith : (2 * n : ℚ) < 2 * m + 3)
    have h2 : 2 * m < 2 * n := by exact_mod_cast (by linarith : (2 * m : ℚ) < 2 * n)
    show m + 1 = n
    omega

end StandsAt

/-! ## Doubles and the numbers that round to them -/

/-- A positive mantissa and an exponent that doubles have, too large ones apart: the mantissa has 53
digits, or the exponent is the least. -/
structure Canonical (m : ℕ) (e : ℤ) : Prop where
  pos : 0 < m
  lt : m < 2 ^ 53
  least : -1074 ≤ e
  normal : 2 ^ 52 ≤ m ∨ e = -1074

/-- How far below `m · 2 ^ e` numbers round to it, in steps. -/
def below (m : ℕ) (e : ℤ) : ℚ := if m = 2 ^ 52 ∧ -1074 < e then 1 / 4 else 1 / 2

/-- A number, in steps of `2 ^ e`, rounds to `m · 2 ^ e`: it lies between the ends of an interval, which
belong to it if the mantissa is even. -/
def Near (m : ℕ) (e : ℤ) (y : ℚ) : Prop :=
  (m - below m e < y ∧ y < m + 1 / 2) ∨ m % 2 = 0 ∧ m - below m e ≤ y ∧ y ≤ m + 1 / 2

variable {m : ℕ} {e t : ℤ} {x y : ℚ}

theorem below_le (m : ℕ) (e : ℤ) : below m e ≤ 1 / 2 := by
  unfold below
  split <;> norm_num

theorem Near.le (h : Near m e y) : m - below m e ≤ y ∧ y ≤ m + 1 / 2 := by
  obtain ⟨hlow, hhigh⟩ | ⟨-, hlow, hhigh⟩ := h
  · exact ⟨hlow.le, hhigh.le⟩
  · exact ⟨hlow, hhigh⟩

theorem Near.half (h : Near m e y) :
    (m : ℚ) - 1 / 2 < y ∧ y < m + 1 / 2 ∨ m % 2 = 0 ∧ (m : ℚ) - 1 / 2 ≤ y ∧ y ≤ m + 1 / 2 := by
  have hbelow := below_le m e
  obtain ⟨hlow, hhigh⟩ | ⟨heven, hlow, hhigh⟩ := h
  · exact .inl ⟨by linarith, hhigh⟩
  · exact .inr ⟨heven, by linarith, hhigh⟩

/-- The numbers that round to a double have its exponent or, just below a power of two, one less. -/
theorem Near.lt (hc : Canonical m e) (h : Near m e y) : y < 2 ^ 53 := by
  have hm : (m : ℚ) ≤ 2 ^ 53 - 1 := by
    have := hc.lt
    have h' : m + 1 ≤ 2 ^ 53 := hc.lt
    have : (m : ℚ) + 1 ≤ 2 ^ 53 := by exact_mod_cast h'
    linarith
  linarith [h.le.2]

/-- The exponent in which a number with its leading digit at some place is rounded. -/
theorem targetExponent_eq (place : ℤ) :
    Format.binary64.targetExponent place = max (place - 53) (-1074) := rfl

theorem shiftToTargetExponent_eq (m : ℕ) (e : ℤ) (accuracy : Accuracy)
    (ht : max ((m.log2 : ℤ) + e - 52) (-1074) = t) (he : e ≤ t) :
    shiftToTargetExponent Format.binary64 m e accuracy =
      (ExtendedMantissa.ofMantissaAndAccuracy m accuracy >>> (t - e).toNat, t) := by
  have htarget : max (totalExponent m e - 53) (-1074) = t := by
    rw [← ht, totalExponent]
    omega
  simp only [shiftToTargetExponent, shiftToExponent, targetExponent_eq, htarget]
  rw [Int.toNat_of_nonneg (by omega), add_sub_cancel]

/-- Nothing is left to shift in a mantissa of at most 53 digits. -/
theorem shiftToTargetExponent_of_lt (hm : m < 2 ^ 53) (he : -1074 ≤ e) :
    shiftToTargetExponent Format.binary64 m e .exact = (⟨m, false, false⟩, e) := by
  have hlog : m.log2 < 53 := by
    obtain rfl | hpos := Nat.eq_zero_or_pos m
    · decide
    · exact (Nat.log2_lt hpos.ne').mpr hm
  have hnone : (max (totalExponent m e - 53) (-1074) - e).toNat = 0 := by
    rw [totalExponent]
    omega
  simp only [shiftToTargetExponent, shiftToExponent, targetExponent_eq, hnone, Nat.cast_zero,
    add_zero]
  rfl

theorem log2_bounds {a : ℕ} (hlow : a * 2 ^ t ≤ x) (hhigh : x < (a + 1) * 2 ^ t) :
    (a ≠ 0 → (2 : ℚ) ^ ((a.log2 : ℤ) + t) ≤ x) ∧ x < 2 ^ ((a.log2 : ℤ) + t + 1) := by
  have hpos : (0 : ℚ) < 2 ^ t := by positivity
  constructor
  · intro ha
    have hlog : (2 : ℚ) ^ a.log2 ≤ a := by exact_mod_cast Nat.log2_self_le ha
    rw [zpow_add₀ two_ne_zero, zpow_natCast]
    exact (mul_le_mul_of_nonneg_right hlog hpos.le).trans hlow
  · have hlog : (a : ℚ) + 1 ≤ 2 ^ (a.log2 + 1) := by exact_mod_cast Nat.lt_log2_self
    rw [add_right_comm, zpow_add₀ two_ne_zero, ← Nat.cast_succ, zpow_natCast]
    exact hhigh.trans_le (mul_le_mul_of_nonneg_right hlog hpos.le)

/-- The exponent in which a number is rounded to a double is that of the double or, just below a power of
two, one less. -/
theorem exponent_of_near {a : ℕ} (ha : 2 ^ 52 ≤ a ∨ t ≤ -1074) (hc : Canonical m e)
    (h : Near m e y) (hlow : a * 2 ^ t ≤ y * 2 ^ e) (hhigh : y * 2 ^ e < (a + 1) * 2 ^ t) :
    max ((a.log2 : ℤ) + t - 52) (-1074) = e ∨
      max ((a.log2 : ℤ) + t - 52) (-1074) = e - 1 ∧ m = 2 ^ 52 ∧ y < 2 ^ 52 := by
  obtain ⟨hleast, hmost⟩ := log2_bounds hlow hhigh
  have hpos : (0 : ℚ) < 2 ^ e := by positivity
  have hy : y < 2 ^ 53 := h.lt hc
  have hupper : a ≠ 0 → (a.log2 : ℤ) + t < 53 + e := by
    intro ha
    have hlt : (2 : ℚ) ^ ((a.log2 : ℤ) + t) < 2 ^ (53 + e) := by
      refine (hleast ha).trans_lt ?_
      rw [zpow_add₀ two_ne_zero]
      exact mul_lt_mul_of_pos_right (by exact_mod_cast hy) hpos
    exact (zpow_lt_zpow_iff_right₀ one_lt_two).mp hlt
  have hzero : a = 0 → (a.log2 : ℤ) + t ≤ -1074 := by
    rintro rfl
    simpa using ha
  obtain he | he := hc.least.eq_or_lt
  · -- in the exponent of the smallest doubles there is one step for all
    refine .inl ?_
    by_cases h0 : a = 0
    · have := hzero h0
      omega
    · have := hupper h0
      omega
  · have hm : (2 : ℚ) ^ 52 ≤ m := by exact_mod_cast hc.normal.resolve_right he.ne'
    have hlower : e + 51 < (a.log2 : ℤ) + t + 1 := by
      have hlt : (2 : ℚ) ^ (51 + e) < 2 ^ ((a.log2 : ℤ) + t + 1) := by
        refine lt_of_le_of_lt ?_ hmost
        rw [zpow_add₀ two_ne_zero]
        refine mul_le_mul_of_nonneg_right ?_ hpos.le
        have hhalf : (2 : ℚ) ^ (51 : ℤ) ≤ 2 ^ 52 - 1 / 2 := by norm_num
        linarith [h.le.1, below_le m e]
      have := (zpow_lt_zpow_iff_right₀ one_lt_two).mp hlt
      omega
    have h0 : a ≠ 0 := fun h0 => by
      have := hzero h0
      omega
    have := hupper h0
    obtain hL | hL : (a.log2 : ℤ) + t = e + 52 ∨ (a.log2 : ℤ) + t = e + 51 := by omega
    · exact .inl (by omega)
    · have hy : y < 2 ^ 52 := by
        have hlt : y * 2 ^ e < 2 ^ (52 : ℤ) * 2 ^ e := by
          rw [← zpow_add₀ two_ne_zero]
          refine hmost.trans_eq (congrArg _ ?_)
          omega
        exact_mod_cast lt_of_mul_lt_mul_right hlt hpos.le
      refine .inr ⟨by omega, ?_, hy⟩
      have hlt : (m : ℚ) < 2 ^ 52 + 1 := by linarith [h.le.1, below_le m e]
      have hlt' : m < 2 ^ 52 + 1 := by exact_mod_cast hlt
      have hge : 2 ^ 52 ≤ m := by exact_mod_cast hm
      omega

theorem mantissa_ofMantissaAndAccuracy (a : ℕ) (accuracy : Accuracy) :
    (ExtendedMantissa.ofMantissaAndAccuracy a accuracy).mantissa = a := by
  cases accuracy with
  | exact => rfl
  | inexact o => cases o <;> rfl

/-- A mantissa of 53 digits is only ever shifted to the right. -/
theorem le_exponent {a : ℕ} {u : ℤ} (ha : 2 ^ 52 ≤ a ∨ t ≤ -1074)
    (hu : max ((a.log2 : ℤ) + t - 52) (-1074) = u) : t ≤ u := by
  have : a.log2 ≥ 52 ∨ t ≤ -1074 := ha.imp_left fun ha => (Nat.le_log2 (by omega)).mpr ha
  omega

/-- Rounding shifts a mantissa to the exponent `u` of 53 digits, rounds it there and shifts away the digit
that may be too many. -/
theorem roundWithAccuracy_shifted {a : ℕ} {u : ℤ} {accuracy : Accuracy} (s : Sign)
    (ha : 2 ^ 52 ≤ a ∨ t ≤ -1074) (hu : max ((a.log2 : ℤ) + t - 52) (-1074) = u) :
    roundWithAccuracy Format.binary64 s a t accuracy =
      let (last, exponent) := shiftToTargetExponent Format.binary64
        (ExtendedMantissa.ofMantissaAndAccuracy a accuracy >>> (u - t).toNat).roundedMantissa u .exact
      if h : last.mantissa = 0 then .zero s else .finite s last.mantissa exponent (Nat.pos_of_ne_zero h) := by
  unfold roundWithAccuracy
  rw [shiftToTargetExponent_eq a t accuracy hu (le_exponent ha hu)]

/-- What is rounded stands at the mantissa shifted to the exponent of 53 digits. -/
theorem StandsAt.shifted {a : ℕ} {u : ℤ} {accuracy : Accuracy}
    (h : StandsAt (x / 2 ^ t) (.ofMantissaAndAccuracy a accuracy)) (ha : 2 ^ 52 ≤ a ∨ t ≤ -1074)
    (hu : max ((a.log2 : ℤ) + t - 52) (-1074) = u) :
    StandsAt (x / 2 ^ u) (ExtendedMantissa.ofMantissaAndAccuracy a accuracy >>> (u - t).toNat) := by
  have htu := le_exponent ha hu
  have := h.shift (u - t).toNat
  rwa [div_div, ← zpow_natCast, ← zpow_add₀ two_ne_zero, Int.toNat_of_nonneg (by omega),
    add_sub_cancel] at this

/-- A number that rounds to a double is rounded to it. -/
theorem roundWithAccuracy_eq {a : ℕ} {accuracy : Accuracy} (s : Sign)
    (ha : 2 ^ 52 ≤ a ∨ t ≤ -1074) (hc : Canonical m e) (h : Near m e y)
    (hstands : StandsAt (y * 2 ^ e / 2 ^ t) (.ofMantissaAndAccuracy a accuracy)) :
    roundWithAccuracy Format.binary64 s a t accuracy = .finite s m e hc.pos := by
  have hstep : (0 : ℚ) < 2 ^ t := by positivity
  obtain ⟨hfloor, hceil⟩ := hstands.floor
  rw [mantissa_ofMantissaAndAccuracy] at hfloor hceil
  have hexponent := exponent_of_near ha hc h ((le_div_iff₀ hstep).mp hfloor)
    ((div_lt_iff₀ hstep).mp hceil)
  generalize hu : max ((a.log2 : ℤ) + t - 52) (-1074) = u at hexponent
  have hshifted := hstands.shifted ha hu
  have hround : roundWithAccuracy Format.binary64 s a t accuracy = _ :=
    roundWithAccuracy_shifted s ha hu
  obtain rfl | ⟨rfl, rfl, hy⟩ := hexponent
  · have hy : y * 2 ^ u / 2 ^ u = y := mul_div_cancel_right₀ y (by positivity)
    rw [hy] at hshifted
    rw [hround, hshifted.rounded h.half, shiftToTargetExponent_of_lt hc.lt hc.least]
    exact dif_neg hc.pos.ne'
  · -- below the power of two the steps are half as wide, and the mantissa rounds to one digit too many
    have hwide : y * 2 ^ e / 2 ^ (e - 1) = 2 * y := by
      rw [mul_div_assoc, ← zpow_sub₀ two_ne_zero, sub_sub_cancel, zpow_one, mul_comm]
    have hbelow : below (2 ^ 52) e = 1 / 4 := if_pos ⟨rfl, by omega⟩
    have hrounded := hshifted.rounded (n := 2 ^ 53) <| .inr ⟨by norm_num, by
      rw [hwide]
      have := h.le
      rw [hbelow] at this
      push_cast at this ⊢
      constructor <;> linarith⟩
    rw [hround, hrounded, shiftToTargetExponent_eq (2 ^ 53) (e - 1) .exact (t := e) (by
      rw [Nat.log2_two_pow]
      omega) (by omega), sub_sub_cancel]
    rfl

/-! ## Quotients -/

/-- A fraction stands where its accuracy says. -/
theorem standsAt_fraction (a : ℕ) {b : ℕ} (hb : 0 < b) :
    StandsAt ((a : ℚ) / b) (.ofMantissaAndAccuracy (a / b) (accuracyOfFraction (a % b) b)) := by
  have hpos : (0 : ℚ) < b := by exact_mod_cast hb
  have hsplit : (a : ℚ) / b = (a / b : ℕ) + (a % b : ℕ) / b := by
    have hdiv : (b : ℚ) * (a / b : ℕ) + (a % b : ℕ) = a := by exact_mod_cast Nat.div_add_mod a b
    rw [← hdiv, add_div, mul_div_cancel_left₀ _ hpos.ne']
  have hrest : ((a % b : ℕ) : ℚ) / b < 1 := by
    rw [div_lt_one hpos]
    exact_mod_cast Nat.mod_lt a hb
  rw [hsplit]
  generalize a / b = q at *
  generalize a % b = r at *
  unfold accuracyOfFraction
  obtain rfl | hr := Nat.eq_zero_or_pos r
  · simp [StandsAt, ExtendedMantissa.ofMantissaAndAccuracy, bitWeight]
  · have hr' : (0 : ℚ) < r / b := div_pos (by exact_mod_cast hr) hpos
    rw [if_neg hr.ne']
    rcases lt_trichotomy (2 * r) b with hlt | heq | hgt
    · have hhalf : (r : ℚ) / b < 1 / 2 := by
        rw [div_lt_div_iff₀ hpos two_pos]
        exact_mod_cast (by omega : r * 2 < 1 * b)
      rw [Nat.compare_eq_lt.mpr hlt]
      simp [StandsAt, ExtendedMantissa.ofMantissaAndAccuracy, bitWeight]
      constructor <;> linarith
    · have hhalf : (r : ℚ) / b = 1 / 2 := by
        rw [div_eq_div_iff hpos.ne' two_ne_zero]
        exact_mod_cast (by omega : r * 2 = 1 * b)
      rw [Nat.compare_eq_eq.mpr heq, hhalf]
      simp [StandsAt, ExtendedMantissa.ofMantissaAndAccuracy, bitWeight]
    · have hhalf : (1 : ℚ) / 2 < r / b := by
        rw [div_lt_div_iff₀ two_pos hpos]
        exact_mod_cast (by omega : 1 * b < r * 2)
      rw [Nat.compare_eq_gt.mpr hgt]
      simp [StandsAt, ExtendedMantissa.ofMantissaAndAccuracy, bitWeight]
      constructor <;> linarith

/-- A quotient has enough digits to be rounded. -/
theorem wide_quotient {a b : ℕ} {s t : ℤ} (ha : 0 < a) (hb : 0 < b) {u : ℤ} (hu : u ≤ s - t)
    (hu' : u ≤ max ((a.log2 : ℤ) + s - (b.log2 + t) - 53) (-1074)) :
    2 ^ 52 ≤ a * 2 ^ (s - t - u).toNat / b ∨ u ≤ -1074 := by
  by_cases hleast : u ≤ -1074
  · exact .inr hleast
  · refine .inl ((Nat.le_div_iff_mul_le hb).mpr ?_)
    have hshift : 52 + (b.log2 + 1) ≤ a.log2 + (s - t - u).toNat := by omega
    calc 2 ^ 52 * b ≤ 2 ^ 52 * 2 ^ (b.log2 + 1) := Nat.mul_le_mul_left _ Nat.lt_log2_self.le
      _ = 2 ^ (52 + (b.log2 + 1)) := (pow_add ..).symm
      _ ≤ 2 ^ (a.log2 + (s - t - u).toNat) := Nat.pow_le_pow_right two_pos hshift
      _ = 2 ^ a.log2 * 2 ^ (s - t - u).toNat := pow_add ..
      _ ≤ a * 2 ^ (s - t - u).toNat := Nat.mul_le_mul_right _ (Nat.log2_self_le ha.ne')

/-- The quotient of two doubles is rounded from a mantissa with enough digits, at which it stands. -/
theorem exists_div (σ τ : Sign) {a b : ℕ} (ha : 0 < a) (hb : 0 < b) (s t : ℤ) :
    ∃ q u accuracy,
      UnpackedFloat.div Format.binary64 (.finite σ a s ha) (.finite τ b t hb) =
        roundWithAccuracy Format.binary64 (σ / τ) q u accuracy ∧
      (2 ^ 52 ≤ q ∨ u ≤ -1074) ∧
      StandsAt (a * 2 ^ s / (b * 2 ^ t) / 2 ^ u) (.ofMantissaAndAccuracy q accuracy) := by
  obtain ⟨u, hu⟩ : ∃ u, min (s - t)
      (Format.binary64.targetExponent (totalExponent a s - totalExponent b t)) = u := ⟨_, rfl⟩
  have hle : u ≤ s - t := hu.symm.trans_le (min_le_left _ _)
  have hle' : u ≤ max ((a.log2 : ℤ) + s - (b.log2 + t) - 53) (-1074) := by
    refine (hu.symm.trans_le (min_le_right _ _)).trans_eq ?_
    rw [targetExponent_eq, totalExponent, totalExponent]
    congr 2
    ring
  have hvalue : (a : ℚ) * 2 ^ s / (b * 2 ^ t) / 2 ^ u =
      ((a * 2 ^ (s - t - u).toNat : ℕ) : ℚ) / b := by
    have hshift : (2 : ℚ) ^ (s - t - u).toNat = 2 ^ s / 2 ^ t / 2 ^ u := by
      rw [← zpow_natCast, Int.toNat_of_nonneg (by omega), zpow_sub₀ two_ne_zero,
        zpow_sub₀ two_ne_zero]
    push_cast
    rw [hshift]
    field_simp
  refine ⟨_, u, _, ?_, wide_quotient ha hb hle hle', hvalue ▸ standsAt_fraction _ hb⟩
  unfold UnpackedFloat.div divCore
  dsimp only
  rw [hu, Nat.shiftLeft_eq]

end Scalar
end FeatureSynth
