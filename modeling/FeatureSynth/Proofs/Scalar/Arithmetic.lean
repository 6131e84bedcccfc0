/-
# Arithmetic on doubles

The sum, the product and the quotient of two finite doubles are the exact results,
rounded (`rounds_add`, `rounds_mul`, `rounds_div`).  An infinite operand makes the
result infinite or NaN, so a finite sum has finite terms.
-/
import Mathlib.Tactic.FieldSimp
import FeatureSynth.Proofs.Scalar.Rounds

namespace FeatureSynth

namespace Scalar

open Float.Model Float.Model.UnpackedFloat

variable {x y : Float} {a b : ℕ} {s t : ℤ}

/-! ## Signs -/

theorem withSign_mul (σ τ : Sign) (p q : ℚ) :
    withSign (σ * τ) (p * q) = withSign σ p * withSign τ q := by
  cases σ <;> cases τ
  · exact (neg_mul_neg p q).symm
  · exact (neg_mul p q).symm
  · exact (mul_neg p q).symm
  · rfl

theorem withSign_div (σ τ : Sign) (p q : ℚ) :
    withSign (σ / τ) (p / q) = withSign σ p / withSign τ q := by
  cases σ <;> cases τ
  · exact (neg_div_neg_eq p q).symm
  · exact (neg_div q p).symm
  · exact (div_neg p).symm
  · rfl

theorem withSign_neg (σ : Sign) (q : ℚ) : withSign (-σ) q = -withSign σ q := by
  cases σ with
  | positive => rfl
  | negative => exact (neg_neg q).symm

theorem withSign_add (σ : Sign) (p q : ℚ) : withSign σ (p + q) = withSign σ p + withSign σ q := by
  cases σ with
  | positive => rfl
  | negative => exact neg_add p q

theorem withSign_apply (σ : Sign) (n : ℤ) (q : ℚ) :
    ((σ.apply n : ℤ) : ℚ) * q = withSign σ (n * q) := by
  cases σ with
  | positive => rfl
  | negative =>
    show ((-n : ℤ) : ℚ) * q = -(n * q)
    rw [Int.cast_neg, neg_mul]

/-! ## Rounding with enough digits -/

/-- A whole number of steps stands at itself. -/
theorem standsAt_exact (a : ℕ) : StandsAt a (.ofMantissaAndAccuracy a .exact) := by
  simp [StandsAt, ExtendedMantissa.ofMantissaAndAccuracy, bitWeight]

/-- A mantissa with an exponent is rounded, whatever its digits. -/
theorem rounds_round (σ : Sign) (ha : 0 < a) :
    Rounds (withSign σ (a * 2 ^ t)) (.ofModel (.pack (UnpackedFloat.round Format.binary64 σ a t))) := by
  obtain ⟨u, hu⟩ : ∃ u, max (totalExponent a t - 53) (-1074) = u := ⟨_, rfl⟩
  rw [totalExponent] at hu
  obtain ⟨k, hk⟩ : ∃ k, (t - u).toNat = k := ⟨_, rfl⟩
  have hwide : 2 ^ 52 ≤ a * 2 ^ k ∨ t - k ≤ -1074 := by
    refine or_iff_not_imp_right.mpr fun hlt => ?_
    calc 2 ^ 52 ≤ 2 ^ (a.log2 + k) := Nat.pow_le_pow_right two_pos (by omega)
      _ = 2 ^ a.log2 * 2 ^ k := pow_add ..
      _ ≤ a * 2 ^ k := Nat.mul_le_mul_right _ (Nat.log2_self_le ha.ne')
  have hvalue : ((a * 2 ^ k : ℕ) : ℚ) = a * 2 ^ t / 2 ^ (t - k) := by
    rw [zpow_sub₀ two_ne_zero, zpow_natCast]
    push_cast
    field_simp
  have hround : UnpackedFloat.round Format.binary64 σ a t =
      roundWithAccuracy Format.binary64 σ (a * 2 ^ k) (t - k) .exact := by
    rw [UnpackedFloat.round, targetExponent_eq, totalExponent, hu, decreaseExponent, hk]
    simp only [Nat.shiftLeft_eq]
  rw [hround]
  refine rounds_roundWithAccuracy σ (by positivity) hwide ?_
  rw [← hvalue]
  exact standsAt_exact _

/-- A whole number with an exponent is rounded. -/
theorem rounds_normalize (n : ℤ) (t : ℤ) (zeroSign : Sign) :
    Rounds (n * 2 ^ t) (.ofModel (.pack (UnpackedFloat.normalize Format.binary64 n t zeroSign))) := by
  rcases lt_trichotomy n 0 with hn | rfl | hn
  · have hvalue : (n : ℚ) * 2 ^ t = withSign .negative ((-n).toNat * 2 ^ t) := by
      have hcast : (((-n).toNat : ℤ) : ℚ) = ((-n : ℤ) : ℚ) := by rw [Int.toNat_of_nonneg (by omega)]
      rw [withSign, ← Int.cast_natCast, hcast, Int.cast_neg, neg_mul, neg_neg]
    rw [UnpackedFloat.normalize, Int.compare_eq_lt.mpr hn, hvalue]
    exact rounds_round .negative (by omega)
  · rw [Int.cast_zero, zero_mul]
    exact .zero zeroSign
  · have hvalue : (n : ℚ) * 2 ^ t = withSign .positive (n.toNat * 2 ^ t) := by
      have hcast : ((n.toNat : ℤ) : ℚ) = (n : ℚ) := by rw [Int.toNat_of_nonneg (by omega)]
      rw [withSign, ← Int.cast_natCast, hcast]
    rw [UnpackedFloat.normalize, Int.compare_eq_gt.mpr hn, hvalue]
    exact rounds_round .positive (by omega)

/-! ## Sums, products and quotients -/

/-- A mantissa in smaller steps is the same number. -/
theorem decreaseExponent_value (σ : Sign) (a : ℕ) (hst : s ≤ t) :
    ((σ.apply ((decreaseExponent a t s).1 : ℤ) : ℤ) : ℚ) * 2 ^ s = withSign σ (a * 2 ^ t) := by
  have hvalue : (((decreaseExponent a t s).1 : ℤ) : ℚ) * 2 ^ s = a * 2 ^ t := by
    show ((a <<< (t - s).toNat : ℕ) : ℚ) * 2 ^ s = _
    rw [Nat.shiftLeft_eq]
    push_cast
    rw [mul_assoc, ← zpow_natCast, ← zpow_add₀ two_ne_zero, Int.toNat_of_nonneg (by omega),
      sub_add_cancel]
  rw [withSign_apply, hvalue]

theorem number_of_zero {σ : Sign} (hx : x.toModel.unpack = .zero σ) : number x = 0 := by
  rw [number, hx, numberOf_zero]

/-- The sum of two finite doubles is the exact one, rounded. -/
theorem rounds_add (hx : isFinite x = true) (hy : isFinite y = true) :
    Rounds (number x + number y) (x + y) := by
  have hadd : x + y =
    .ofModel (.pack (UnpackedFloat.add Format.binary64 x.toModel.unpack y.toModel.unpack)) := rfl
  obtain ⟨σ, hx'⟩ | ⟨σ, m, e, hc, -, hx'⟩ := unpack_of_isFinite hx
  · obtain ⟨τ, hy'⟩ | ⟨τ, m, e, hc, -, hy'⟩ := unpack_of_isFinite hy
    · rw [number_of_zero hx', number_of_zero hy', add_zero, hadd, hx', hy']
      cases σ <;> cases τ <;> exact .zero _
    · have heq : x + y = y := by
        rw [hadd, hx', hy']
        exact (congrArg _ (congrArg _ hy'.symm)).trans (pack_unpack y)
      rw [number_of_zero hx', zero_add, heq]
      exact .self hy
  · obtain ⟨τ, hy'⟩ | ⟨τ, m', e', hc', -, hy'⟩ := unpack_of_isFinite hy
    · have heq : x + y = x := by
        rw [hadd, hx', hy']
        exact (congrArg _ (congrArg _ hx'.symm)).trans (pack_unpack x)
      rw [number_of_zero hy', add_zero, heq]
      exact .self hx
    · have hsum := rounds_normalize
        (σ.apply (decreaseExponent m e (min e e')).1 + τ.apply (decreaseExponent m' e' (min e e')).1)
        (min e e') .positive
      rw [Int.cast_add, add_mul, decreaseExponent_value σ m (min_le_left e e'),
        decreaseExponent_value τ m' (min_le_right e e')] at hsum
      rw [number, number, hx', hy', hadd, hx', hy']
      exact hsum

/-- The product of two finite doubles is the exact one, rounded. -/
theorem rounds_mul (hx : isFinite x = true) (hy : isFinite y = true) :
    Rounds (number x * number y) (x * y) := by
  have hmul : x * y =
    .ofModel (.pack (UnpackedFloat.mul Format.binary64 x.toModel.unpack y.toModel.unpack)) := rfl
  obtain ⟨σ, hx'⟩ | ⟨σ, m, e, hc, -, hx'⟩ := unpack_of_isFinite hx
  · rw [number_of_zero hx', zero_mul, hmul, hx']
    obtain ⟨τ, hy'⟩ | ⟨τ, m, e, hc, -, hy'⟩ := unpack_of_isFinite hy
    all_goals
      rw [hy']
      exact .zero _
  · obtain ⟨τ, hy'⟩ | ⟨τ, m', e', hc', -, hy'⟩ := unpack_of_isFinite hy
    · rw [number_of_zero hy', mul_zero, hmul, hx', hy']
      exact .zero _
    · have hwide : 2 ^ 52 ≤ m * m' ∨ e + e' ≤ -1074 := by
        obtain hm | rfl := hc.normal
        · exact .inl (hm.trans (Nat.le_mul_of_pos_right m hc'.pos))
        obtain hm' | rfl := hc'.normal
        · exact .inl (hm'.trans (Nat.le_mul_of_pos_left m' hc.pos))
        · exact .inr (by norm_num)
      have hvalue : ((m * m' : ℕ) : ℚ) = m * 2 ^ e * (m' * 2 ^ e') / 2 ^ (e + e') := by
        rw [mul_mul_mul_comm, ← zpow_add₀ two_ne_zero, mul_div_cancel_right₀ _ (by positivity),
          Nat.cast_mul]
      have hproduct := rounds_roundWithAccuracy (σ * τ) (by positivity) hwide (hvalue ▸ standsAt_exact _)
      rw [withSign_mul] at hproduct
      rw [number, number, hx', hy', hmul, hx', hy']
      exact hproduct

/-- The quotient of two finite doubles is the exact one, rounded. -/
theorem rounds_div (hx : isFinite x = true) (hy : isFinite y = true) (hzero : number y ≠ 0) :
    Rounds (number x / number y) (x / y) := by
  have hdiv : x / y =
    .ofModel (.pack (UnpackedFloat.div Format.binary64 x.toModel.unpack y.toModel.unpack)) := rfl
  obtain ⟨τ, hy'⟩ | ⟨τ, m', e', hc', -, hy'⟩ := unpack_of_isFinite hy
  · exact absurd (number_of_zero hy') hzero
  obtain ⟨σ, hx'⟩ | ⟨σ, m, e, hc, -, hx'⟩ := unpack_of_isFinite hx
  · rw [number_of_zero hx', zero_div, hdiv, hx', hy']
    exact .zero _
  · obtain ⟨q, u, accuracy, hmodel, hwide, hstands⟩ := exists_div σ τ hc.pos hc'.pos e e'
    have hquotient := rounds_roundWithAccuracy (σ / τ) (by positivity) hwide hstands
    rw [withSign_div] at hquotient
    rw [number, number, hx', hy', hdiv, hx', hy', hmodel]
    exact hquotient

/-! ## Infinite operands -/

variable {σ : Sign}

theorem unpack_pack_infinity (σ : Sign) :
    (Float.Model.pack (.infinity σ)).unpack = .infinity σ := by
  cases σ <;> rfl

theorem unpack_add (x y : Float) : (x + y).toModel.unpack =
    (Float.Model.pack (UnpackedFloat.add Format.binary64 x.toModel.unpack y.toModel.unpack)).unpack :=
  rfl

theorem unpack_div (x y : Float) : (x / y).toModel.unpack =
    (Float.Model.pack (UnpackedFloat.div Format.binary64 x.toModel.unpack y.toModel.unpack)).unpack :=
  rfl

/-- Infinity absorbs all numbers but its opposite. -/
theorem add_infinity (hx : x.toModel.unpack = .infinity σ) (hy : isNaN y = false)
    (hne : y.toModel.unpack ≠ .infinity (-σ)) :
    (x + y).toModel.unpack = .infinity σ ∧ (y + x).toModel.unpack = .infinity σ := by
  rw [← isNaN_unpack] at hy
  rw [unpack_add, unpack_add, hx]
  cases hunpack : y.toModel.unpack with
  | notANumber => rw [hunpack] at hy; cases hy
  | infinity τ =>
    rw [hunpack] at hne
    cases σ <;> cases τ <;> first | exact absurd rfl hne | exact ⟨rfl, rfl⟩
  | zero | finite => exact ⟨unpack_pack_infinity σ, unpack_pack_infinity σ⟩

theorem isFinite_of_pack {u : UnpackedFloat} (h : (Float.Model.pack u).unpack.isFinite = true) :
    u.isFinite = true := by
  cases u with
  | notANumber => exact absurd h (by decide)
  | infinity σ =>
    rw [unpack_pack_infinity] at h
    exact h
  | zero | finite => rfl

/-- A finite sum has finite terms. -/
theorem isFinite_of_add (h : isFinite (x + y) = true) : isFinite x = true ∧ isFinite y = true := by
  rw [← isFinite_unpack] at h
  have hsum := isFinite_of_pack h
  rw [← isFinite_unpack, ← isFinite_unpack]
  match hx : x.toModel.unpack, hy : y.toModel.unpack with
  | .zero _, .zero _ | .zero _, .finite .. | .finite .., .zero _ | .finite .., .finite .. =>
    exact ⟨rfl, rfl⟩
  | .infinity σ, .infinity τ =>
    rw [hx, hy] at hsum
    cases σ <;> cases τ <;> cases hsum
  | .infinity _, .zero _ | .infinity _, .finite .. | .infinity _, .notANumber | .zero _, .infinity _
  | .zero _, .notANumber | .finite .., .infinity _ | .finite .., .notANumber =>
    rw [hx, hy] at hsum
    cases hsum
  | .notANumber, _ =>
    rw [hx] at hsum
    cases hsum

/-- A finite quotient by a finite number has a finite numerator. -/
theorem isFinite_of_div (h : isFinite (x / y) = true) (hy : isFinite y = true) :
    isFinite x = true := by
  rw [← isFinite_unpack] at h hy
  have hquotient := isFinite_of_pack h
  rw [← isFinite_unpack]
  match hx : x.toModel.unpack, hy' : y.toModel.unpack with
  | .zero _, _ | .finite .., _ => rfl
  | .infinity _, .zero _ | .infinity _, .finite .. | .notANumber, _ =>
    rw [hx] at hquotient
    first | cases hquotient | (rw [hy'] at hquotient; cases hquotient)
  | _, .infinity _ | _, .notANumber =>
    rw [hy'] at hy
    cases hy

theorem isFinite_of_unpack_infinity (hx : x.toModel.unpack = .infinity σ) : isFinite x = false := by
  rw [← isFinite_unpack, hx]
  rfl

theorem isNaN_of_unpack_infinity (hx : x.toModel.unpack = .infinity σ) : isNaN x = false := by
  rw [← isNaN_unpack, hx]
  rfl

/-- A positive finite double has a mantissa. -/
theorem unpack_of_pos (hx : isFinite x = true) (hpos : 0 < number x) :
    ∃ m e, ∃ hc : Canonical m e, x.toModel.unpack = .finite .positive m e hc.pos := by
  obtain ⟨τ, hx'⟩ | ⟨τ, m, e, hc, -, hx'⟩ := unpack_of_isFinite hx
  · exact absurd (number_of_zero hx') hpos.ne'
  · cases τ with
    | negative =>
      rw [number, hx', numberOf_finite, withSign] at hpos
      exact absurd hpos (not_lt.mpr (neg_nonpos.mpr hc.value_pos.le))
    | positive => exact ⟨m, e, hc, hx'⟩

/-- Infinity over a positive number is infinity. -/
theorem infinity_div (hx : x.toModel.unpack = .infinity σ) (hy : isFinite y = true)
    (hpos : 0 < number y) : (x / y).toModel.unpack = .infinity σ := by
  obtain ⟨m, e, hc, hy'⟩ := unpack_of_pos hy hpos
  rw [unpack_div, hx, hy']
  cases σ <;> exact unpack_pack_infinity _

theorem isNaN_of_div (h : isNaN (x / y) = false) : isNaN x = false := by
  rw [← isNaN_unpack, unpack_div, isNaN_pack] at h
  rw [← isNaN_unpack]
  cases hunpack : x.toModel.unpack with
  | notANumber => rw [hunpack] at h; cases h
  | _ => rfl

/-- A quotient by a number not below one is infinite only if the numerator is. -/
theorem infinity_of_div (h : (x / y).toModel.unpack = .infinity σ) (hy : isFinite y = true)
    (hone : 1 ≤ number y) : x.toModel.unpack = .infinity σ := by
  have hpos : 0 < number y := one_pos.trans_le hone
  have hnan : isNaN x = false := isNaN_of_div (isNaN_of_unpack_infinity h)
  obtain hx | ⟨τ, hx⟩ := isFinite_or_infinity hnan
  · -- a finite numerator is divided by no less than one
    have hself := (Rounds.self hx).roundsTo hx
    have hlt := (isFinite_iff_number hnan).mp hx
    have habs : |number x / number y| ≤ |number x| := by
      rw [abs_div, abs_of_pos hpos]
      exact div_le_self (abs_nonneg _) hone
    obtain ⟨hfinite, -⟩ := (rounds_div hx hy hpos.ne').isFinite_of_abs_le hself.abs hlt habs
    rw [isFinite_of_unpack_infinity h] at hfinite
    cases hfinite
  · rw [hx, ← infinity_div hx hy hpos, h]

theorem neg_sign_ne (σ : Sign) : -σ ≠ σ := by
  cases σ <;> exact nofun

theorem isNaN_of_add (h : isNaN (x + y) = false) : isNaN x = false ∧ isNaN y = false := by
  rw [← isNaN_unpack, unpack_add, isNaN_pack] at h
  rw [← isNaN_unpack, ← isNaN_unpack]
  match hx : x.toModel.unpack, hy : y.toModel.unpack with
  | .notANumber, _ =>
    rw [hx] at h
    cases h
  | .infinity _, .notANumber | .zero _, .notANumber | .finite .., .notANumber =>
    rw [hx, hy] at h
    cases h
  | .infinity _, .infinity _ | .infinity _, .zero _ | .infinity _, .finite .. | .zero _, .infinity _
  | .zero _, .zero _ | .zero _, .finite .. | .finite .., .infinity _ | .finite .., .zero _
  | .finite .., .finite .. => exact ⟨rfl, rfl⟩

/-- A sum is infinite on the side of its infinite terms. -/
theorem infinity_of_add {τ : Sign}
    (h : (x + y).toModel.unpack = .infinity σ ∨ (y + x).toModel.unpack = .infinity σ)
    (hx : x.toModel.unpack = .infinity τ) : τ = σ := by
  have hy : isNaN y = false :=
    h.elim (fun h => (isNaN_of_add (isNaN_of_unpack_infinity h)).2)
      fun h => (isNaN_of_add (isNaN_of_unpack_infinity h)).1
  by_cases hne : y.toModel.unpack = .infinity (-τ)
  · -- opposite infinities add up to NaN
    have hnan : (x + y).toModel.unpack.isNaN = true ∧ (y + x).toModel.unpack.isNaN = true := by
      rw [unpack_add, unpack_add, isNaN_pack, isNaN_pack, hx, hne]
      cases τ <;> exact ⟨rfl, rfl⟩
    obtain h | h := h
    · rw [h] at hnan
      cases hnan.1
    · rw [h] at hnan
      cases hnan.2
  · obtain ⟨hleft, hright⟩ := add_infinity hx hy hne
    obtain h | h := h
    · exact UnpackedFloat.infinity.inj (hleft.symm.trans h)
    · exact UnpackedFloat.infinity.inj (hright.symm.trans h)

/-- Infinity absorbs a term unless the sum is NaN. -/
theorem infinity_of_isNaN_add (hx : x.toModel.unpack = .infinity σ) (h : isNaN (y + x) = false) :
    (y + x).toModel.unpack = .infinity σ := by
  obtain hfinite | ⟨τ, hsum⟩ := isFinite_or_infinity h
  · have hterm := (isFinite_of_add hfinite).2
    rw [isFinite_of_unpack_infinity hx] at hterm
    cases hterm
  · rwa [infinity_of_add (.inr hsum) hx]

/-- The sum of two rounded numbers is infinite only on the side of the exact sum. -/
theorem add_ne_infinity {p q : ℚ} (hx : Rounds p x) (hy : Rounds q y) (h : withSign σ (p + q) ≤ 0) :
    (x + y).toModel.unpack ≠ .infinity σ := by
  intro hsum
  have hlimit : (0 : ℚ) < 2 ^ 1024 := by positivity
  rw [withSign_add] at h
  have hle := hx.withSign_add_nonpos hy h
  -- no term is infinite on the other side, so none is infinite at all
  have hbound {z : Float} (hz : isNaN z = false)
      (hside : ∀ τ, z.toModel.unpack = .infinity τ → τ = σ) : -2 ^ 1024 < withSign σ (number z) := by
    have habs := abs_number_le z
    rw [← abs_withSign σ] at habs
    refine lt_of_le_of_ne (abs_le.mp habs).1 fun heq => neg_sign_ne σ (hside _ ?_)
    rw [unpack_infinity_iff hz, withSign_neg, ← withSign_withSign σ (number z), ← heq]
    cases σ <;> rfl
  have hxlow := hbound hx.isNaN fun τ hτ => infinity_of_add (.inl hsum) hτ
  have hylow := hbound hy.isNaN fun τ hτ => infinity_of_add (.inr hsum) hτ
  have hxfinite : isFinite x = true := by
    rw [isFinite_iff_number hx.isNaN, ← abs_withSign σ]
    exact abs_lt.mpr ⟨hxlow, (le_neg_iff_add_nonpos_right.mpr hle).trans_lt (neg_lt.mp hylow)⟩
  have hyfinite : isFinite y = true := by
    rw [isFinite_iff_number hy.isNaN, ← abs_withSign σ]
    exact abs_lt.mpr ⟨hylow, (le_neg_iff_add_nonpos_left.mpr hle).trans_lt (neg_lt.mp hxlow)⟩
  have hrounds := rounds_add hxfinite hyfinite
  rw [← withSign_add] at hle
  have hresult := hrounds.withSign_nonpos hle
  rw [(unpack_infinity_iff hrounds.isNaN σ).mp hsum, withSign_withSign] at hresult
  exact absurd hlimit (not_lt.mpr hresult)

theorem infinity_mul (hx : x.toModel.unpack = .infinity σ) (hy : isFinite y = true)
    (hpos : 0 < number y) : (y * x).toModel.unpack = .infinity σ := by
  have hmul : (y * x).toModel.unpack =
    (Float.Model.pack (UnpackedFloat.mul Format.binary64 y.toModel.unpack x.toModel.unpack)).unpack := rfl
  obtain ⟨m, e, hc, hy'⟩ := unpack_of_pos hy hpos
  rw [hmul, hx, hy']
  cases σ <;> exact unpack_pack_infinity _

/-! ## Whole numbers -/

/-- A count is converted by rounding. -/
theorem rounds_ofUInt64 (n : UInt64) : Rounds n.toNat n.toFloat := by
  have hround := rounds_normalize n.toNat 0 .positive
  rw [zpow_zero, mul_one] at hround
  exact_mod_cast hround

theorem isFinite_ofUInt64 (n : UInt64) : isFinite n.toFloat = true := by
  have hmost : |(n.toNat : ℚ)| ≤ 2 ^ (64 : ℤ) := by
    rw [abs_of_nonneg (by positivity)]
    exact_mod_cast n.toNat_lt.le
  exact ((rounds_ofUInt64 n).isFinite_of_abs_le (.two_zpow (by norm_num))
    (two_zpow_lt_limit (by norm_num)) hmost).1

end Scalar
end FeatureSynth
