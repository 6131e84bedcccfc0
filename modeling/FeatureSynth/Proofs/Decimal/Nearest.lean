/-
# Reading a decimal

The number of a numeral is `digits · 10 ^ exponent`, and reading it rounds that to a
double: with whole numbers of 53 binary digits and exact powers of ten by one
product or quotient of doubles, otherwise by one of longer mantissas.  In each case
what is rounded is the exact number, so a decimal in the interval of a double is read
as that double.  The guards against numbers out of range are never met there.
Whatever its digits, a numeral never stands for NaN.
-/
import Mathlib.Algebra.Order.Field.Basic
import Mathlib.Tactic.FieldSimp
import Mathlib.Tactic.GCongr
import FeatureSynth.Proofs.Scalar.Order
import FeatureSynth.Formula.Token

namespace FeatureSynth

open Float.Model Float.Model.UnpackedFloat

namespace Scalar

variable {m a b : ℕ} {e s t : ℤ} {y : ℚ}

/-! ## Products and quotients -/

theorem near_self (m : ℕ) (e : ℤ) : Near m e m := by
  have hbelow : 0 < below m e := by
    unfold below
    split <;> norm_num
  exact .inl ⟨by linarith, by linarith⟩

/-- A product that rounds to a double is that double. -/
theorem mul_eq (ha : 0 < a) (hb : 0 < b) (hwide : 2 ^ 52 ≤ a * b) (hc : Canonical m e)
    (h : Near m e y) (hy : y * 2 ^ e = a * 2 ^ s * (b * 2 ^ t)) :
    UnpackedFloat.mul Format.binary64 (.finite .positive a s ha) (.finite .positive b t hb) =
      .finite .positive m e hc.pos := by
  have hstands : StandsAt (y * 2 ^ e / 2 ^ (s + t)) (.ofMantissaAndAccuracy (a * b) .exact) := by
    rw [hy, mul_mul_mul_comm, ← zpow_add₀ two_ne_zero, mul_div_cancel_right₀ _ (by positivity)]
    simp [StandsAt, ExtendedMantissa.ofMantissaAndAccuracy, bitWeight]
  exact roundWithAccuracy_eq .positive (.inl hwide) hc h hstands

/-- A quotient that rounds to a double is that double. -/
theorem div_eq (ha : 0 < a) (hb : 0 < b) (hc : Canonical m e)
    (h : Near m e y) (hy : y * 2 ^ e = a * 2 ^ s / (b * 2 ^ t)) :
    UnpackedFloat.div Format.binary64 (.finite .positive a s ha) (.finite .positive b t hb) =
      .finite .positive m e hc.pos := by
  obtain ⟨q, u, accuracy, hmodel, hwide, hstands⟩ := exists_div .positive .positive ha hb s t
  rw [hmodel]
  exact roundWithAccuracy_eq .positive hwide hc h (hy ▸ hstands)

/-! ## Decimals as doubles -/

/-- The double of a mantissa and an exponent. -/
def double (hc : Canonical m e) : Float := .ofModel (.pack (.finite .positive m e hc.pos))

theorem unpack_double (hc : Canonical m e) (he : e ≤ 971) :
    (double hc).toModel.unpack = .finite .positive m e hc.pos := unpack_pack .positive hc he

/-- Whole numbers of 53 binary digits are doubles, with some digits shifted in. -/
theorem toFloat_eq {n : ℕ} (hn : 0 < n) (hlt : n < 2 ^ 53) :
    ∃ a s ha, n.toUInt64.toFloat.toModel.unpack = .finite .positive a s ha ∧ 2 ^ 52 ≤ a ∧
      (a : ℚ) * 2 ^ s = n := by
  have hlog : n.log2 ≤ 52 := Nat.lt_succ_iff.mp ((Nat.log2_lt hn.ne').mpr hlt)
  have hwide : 2 ^ 52 ≤ n * 2 ^ (52 - n.log2) := by
    calc 2 ^ 52 = 2 ^ n.log2 * 2 ^ (52 - n.log2) := by rw [← pow_add, Nat.add_sub_cancel' hlog]
      _ ≤ n * 2 ^ (52 - n.log2) := Nat.mul_le_mul_right _ (Nat.log2_self_le hn.ne')
  have hlt' : n * 2 ^ (52 - n.log2) < 2 ^ 53 := by
    calc n * 2 ^ (52 - n.log2) < 2 ^ (n.log2 + 1) * 2 ^ (52 - n.log2) :=
          Nat.mul_lt_mul_of_pos_right Nat.lt_log2_self (by positivity)
      _ = 2 ^ 53 := by
        rw [← pow_add]
        congr 1
        omega
  have hc : Canonical (n * 2 ^ (52 - n.log2)) (-(52 - n.log2 : ℕ)) :=
    ⟨by omega, hlt', by omega, .inl hwide⟩
  have hvalue : ((n * 2 ^ (52 - n.log2) : ℕ) : ℚ) * 2 ^ (-(52 - n.log2 : ℕ) : ℤ) = n := by
    push_cast
    rw [mul_assoc, ← zpow_natCast, ← zpow_add₀ two_ne_zero, add_neg_cancel, zpow_zero, mul_one]
  have hround : UnpackedFloat.round Format.binary64 .positive n 0 =
      .finite .positive (n * 2 ^ (52 - n.log2)) (-(52 - n.log2 : ℕ)) hc.pos := by
    have hstands : StandsAt ((n * 2 ^ (52 - n.log2) : ℕ) * 2 ^ (-(52 - n.log2 : ℕ) : ℤ) /
        2 ^ (-(52 - n.log2 : ℕ) : ℤ)) (.ofMantissaAndAccuracy (n * 2 ^ (52 - n.log2)) .exact) := by
      rw [mul_div_cancel_right₀ _ (by positivity)]
      simp [StandsAt, ExtendedMantissa.ofMantissaAndAccuracy, bitWeight]
    have htarget : max (totalExponent n 0 - 53) (-1074) = -(52 - n.log2 : ℕ) := by
      rw [totalExponent]
      omega
    rw [← roundWithAccuracy_eq .positive (.inl hwide) hc (near_self _ _) hstands, UnpackedFloat.round,
      targetExponent_eq, htarget, decreaseExponent]
    simp only [zero_sub, neg_neg, Int.toNat_natCast, Nat.shiftLeft_eq]
  have hnat : n.toUInt64.toNat = n := by
    rw [Nat.toUInt64, UInt64.toNat_ofNat', Nat.mod_eq_of_lt (by omega)]
  have hconvert : UnpackedFloat.ofUInt64 Format.binary64 n.toUInt64 =
      UnpackedFloat.round Format.binary64 .positive n 0 := by
    rw [UnpackedFloat.ofUInt64, UnpackedFloat.ofNat, UnpackedFloat.ofInt, UnpackedFloat.normalize, hnat,
      Int.compare_eq_gt.mpr (by omega)]
    rfl
  refine ⟨_, _, hc.pos, ?_, hwide, hvalue⟩
  show (Float.Model.pack (UnpackedFloat.ofUInt64 _ _)).unpack = _
  rw [hconvert, hround]
  exact unpack_pack .positive hc (by omega)

/-- A reading is that of a power of ten, exactly. -/
def readsPowerOfTen (k : ℕ) : Binary → Bool
  | .finite false b t =>
    2 ^ 52 ≤ b ∧ -52 ≤ t ∧ b * Nat.pow 2 (t + 52).toNat = Nat.pow 10 k * Nat.pow 2 52
  | _ => false

theorem of_readsPowerOfTen {k : ℕ} {x : Binary} (h : readsPowerOfTen k x = true) :
    ∃ b t, x = .finite false b t ∧
      2 ^ 52 ≤ b ∧ -52 ≤ t ∧ b * Nat.pow 2 (t + 52).toNat = Nat.pow 10 k * Nat.pow 2 52 := by
  unfold readsPowerOfTen at h
  split at h
  · exact ⟨_, _, rfl, of_decide_eq_true h⟩
  · cases h

theorem powersOfTen_read : ∀ k : Fin Float.exactlyRepresentablePowersOfTen.size,
    readsPowerOfTen k (decode Float.exactlyRepresentablePowersOfTen[k]) = true := by
  decide +kernel

/-- The powers of ten in the table are exact. -/
theorem powerOfTen_eq {k : ℕ} (hk : k < Float.exactlyRepresentablePowersOfTen.size) :
    ∃ b t hb, Float.exactlyRepresentablePowersOfTen[k].toModel.unpack = .finite .positive b t hb ∧
      2 ^ 52 ≤ b ∧ (b : ℚ) * 2 ^ t = 10 ^ k := by
  obtain ⟨b, t, hdecode, hwide, hleast, hvalue⟩ := of_readsPowerOfTen (powersOfTen_read ⟨k, hk⟩)
  have hb : 0 < b := by omega
  refine ⟨b, t, hb, ?_, hwide, ?_⟩
  · rw [Fin.getElem_fin] at hdecode
    rw [unpack_eq_decode, hdecode, Binary.unpacked, dif_pos hb]
    rfl
  · have hvalue' : (b : ℚ) * 2 ^ (t + 52).toNat = 10 ^ k * 2 ^ 52 := by exact_mod_cast hvalue
    rw [← zpow_natCast, Int.toNat_of_nonneg (by omega), zpow_add₀ two_ne_zero, ← mul_assoc] at hvalue'
    exact mul_right_cancel₀ (by positivity) hvalue'

theorem lt_size_powersOfTen {k : ℕ} (h : k ≤ 22) :
    k < Float.exactlyRepresentablePowersOfTen.size := Nat.lt_succ_of_le h

/-- A whole number times a power of ten is read as the double it rounds to. -/
theorem ofScientific_mul {c k : ℕ} (hpos : 0 < c) (hk : k ≤ 2048) (hc : Canonical m e)
    (h : Near m e y) (hy : y * 2 ^ e = c * 10 ^ k) : Float.ofScientific c false k = double hc := by
  unfold Float.ofScientific
  split
  · rename_i hfast
    obtain ⟨a, s, ha, hunpack, hawide, hvalue⟩ := toFloat_eq hpos hfast.1
    obtain ⟨b, t, hb, hpower, hbwide, hvalue'⟩ := powerOfTen_eq (lt_size_powersOfTen hfast.2)
    have hwide : 2 ^ 52 ≤ a * b := hawide.trans (Nat.le_mul_of_pos_right a hb)
    have hmul := mul_eq ha hb hwide hc h (by rw [hvalue, hvalue', hy])
    show Float.ofModel (Float.Model.pack (UnpackedFloat.mul _ _ _)) = _
    rw [hunpack, hpower, hmul]
    rfl
  · have hc' : 0 < c <<< 53 := by
      rw [Nat.shiftLeft_eq]
      positivity
    have hten : 0 < 10 ^ k := Nat.pow_pos (by decide)
    have hwide : 2 ^ 52 ≤ c <<< 53 * 10 ^ k := by
      rw [Nat.shiftLeft_eq]
      calc 2 ^ 52 ≤ 1 * 2 ^ 53 * 1 := by norm_num
        _ ≤ c * 2 ^ 53 * 10 ^ k := Nat.mul_le_mul (Nat.mul_le_mul_right _ hpos) hten
    have hvalue : y * (2 : ℚ) ^ e =
        ((c <<< 53 : ℕ) : ℚ) * 2 ^ (-53 : ℤ) * (((10 ^ k : ℕ) : ℚ) * 2 ^ (0 : ℤ)) := by
      rw [hy, Nat.shiftLeft_eq]
      push_cast
      norm_num
      ring
    have hslow : UnpackedFloat.ofScientific Format.binary64 c k = .finite .positive m e hc.pos := by
      rw [← mul_eq hc' hten hwide hc h hvalue, UnpackedFloat.ofScientific, dif_neg hpos.ne',
        if_neg (by norm_num; omega), if_neg (by norm_num; omega), if_pos (Int.natCast_nonneg k)]
      rfl
    show Float.ofModel (Float.Model.pack (UnpackedFloat.ofScientific Format.binary64 c k)) = _
    rw [hslow]
    rfl

/-- A whole number over a power of ten is read as the double it rounds to. -/
theorem ofScientific_div {c k : ℕ} (hpos : 0 < c) (hk : 0 < k) (hk' : k ≤ 2048 + c.log2)
    (hc : Canonical m e) (h : Near m e y) (hy : y * 2 ^ e = c / 10 ^ k) :
    Float.ofScientific c true k = double hc := by
  unfold Float.ofScientific
  split
  · rename_i hfast
    obtain ⟨a, s, ha, hunpack, hawide, hvalue⟩ := toFloat_eq hpos hfast.1
    obtain ⟨b, t, hb, hpower, hbwide, hvalue'⟩ := powerOfTen_eq (lt_size_powersOfTen hfast.2)
    have hdiv := div_eq ha hb hc h (by rw [hvalue, hvalue', hy])
    show Float.ofModel (Float.Model.pack (UnpackedFloat.div _ _ _)) = _
    rw [hunpack, hpower, hdiv]
    rfl
  · have hten : 0 < 10 ^ k := Nat.pow_pos (by decide)
    have hvalue : y * 2 ^ e = (c : ℕ) * 2 ^ (0 : ℤ) / ((10 ^ k : ℕ) * 2 ^ (0 : ℤ)) := by
      rw [hy]
      push_cast
      rw [mul_one, mul_one]
    have hslow : UnpackedFloat.ofScientific Format.binary64 c (-(k : ℤ)) = .finite .positive m e hc.pos := by
      rw [← div_eq hpos hten hc h hvalue, UnpackedFloat.ofScientific, dif_neg hpos.ne',
        if_neg (by norm_num), if_neg (by norm_num; omega), if_neg (by omega)]
      exact congrArg (UnpackedFloat.div _ _)
        (finite_congr (congrArg (10 ^ ·) (by rw [neg_neg, Int.toNat_natCast])) rfl)
    show Float.ofModel (Float.Model.pack (UnpackedFloat.ofScientific Format.binary64 c (-(k : ℤ)))) = _
    rw [hslow]
    rfl

/-- The size of the numbers that round to a double. -/
theorem bounds_of_near (hc : Canonical m e) (he : e ≤ 971) (h : Near m e y) :
    (2 : ℚ) ^ (-1075 : ℤ) ≤ y * 2 ^ e ∧ y * 2 ^ e < 2 ^ (1024 : ℤ) := by
  have hm : (1 : ℚ) ≤ m := by exact_mod_cast hc.pos
  have hlow : (1 : ℚ) / 2 ≤ y := by linarith [h.le.1, below_le m e]
  constructor
  · calc (2 : ℚ) ^ (-1075 : ℤ) = 1 / 2 * 2 ^ (-1074 : ℤ) := by
          rw [show (-1075 : ℤ) = -1 + -1074 by norm_num, zpow_add₀ two_ne_zero]
          norm_num
      _ ≤ 1 / 2 * 2 ^ e := by
          have := zpow_le_zpow_right₀ (one_le_two (α := ℚ)) hc.least
          linarith
      _ ≤ y * 2 ^ e := by gcongr
  · calc y * 2 ^ e < 2 ^ (53 : ℤ) * 2 ^ e := by
          gcongr
          exact_mod_cast h.lt hc
      _ ≤ 2 ^ (53 : ℤ) * 2 ^ (971 : ℤ) := by gcongr; norm_num
      _ = 2 ^ (1024 : ℤ) := by rw [← zpow_add₀ two_ne_zero]; norm_num

end Scalar

namespace Decimal

variable {n : ℕ}

/-- The digits of a number say between which powers of ten it is. -/
theorem digitCount_bounds (hn : 0 < n) :
    0 < digitCount n ∧ 10 ^ (digitCount n - 1) ≤ n ∧ n < 10 ^ digitCount n := by
  have hpos : 0 < digitCount n := Nat.length_toDigits_pos
  refine ⟨hpos, ?_, (Nat.length_toDigits_le_iff (by decide) hpos).mp le_rfl⟩
  by_contra hlt
  obtain h1 | h1 : digitCount n = 1 ∨ 0 < digitCount n - 1 := by omega
  · rw [h1] at hlt
    exact hlt hn
  · have := (Nat.length_toDigits_le_iff (by decide) h1).mpr (not_le.mp hlt)
    have hle : digitCount n ≤ digitCount n - 1 := this
    omega

theorem digitCount_le_log2 (n : ℕ) : digitCount n ≤ n.log2 + 1 := by
  refine (Nat.length_toDigits_le_iff (by decide) (Nat.succ_pos _)).mpr ?_
  exact Nat.lt_log2_self.trans_le (Nat.pow_le_pow_left (by decide) _)

end Decimal

namespace Numeral

open Scalar

variable {m c : ℕ} {e p : ℤ} {y : ℚ}

/-- A decimal that rounds to a double is read as that double. -/
theorem nearest_eq (hc : Canonical m e) (he : e ≤ 971) (h : Near m e y)
    (hy : y * 2 ^ e = c * (10 : ℚ) ^ p) : nearest c p = double hc := by
  obtain ⟨hlow, hhigh⟩ := bounds_of_near hc he h
  rw [hy] at hlow hhigh
  have hpos : 0 < c := by
    refine Nat.pos_of_ne_zero ?_
    rintro rfl
    rw [Nat.cast_zero, zero_mul] at hlow
    exact absurd hlow (not_le.mpr (by positivity))
  obtain ⟨hcount, hleast, hmost⟩ := Decimal.digitCount_bounds hpos
  have hlog := Decimal.digitCount_le_log2 c
  have hten : (0 : ℚ) < 10 ^ p := by positivity
  have hmagnitude : -330 < (Decimal.digitCount c : ℤ) + p := by
    have hmost' : (c : ℚ) < 10 ^ (Decimal.digitCount c : ℤ) := by exact_mod_cast hmost
    refine (zpow_lt_zpow_iff_right₀ (by norm_num : (1 : ℚ) < 10)).mp ?_
    calc (10 : ℚ) ^ (-330 : ℤ) ≤ 2 ^ (-1075 : ℤ) := by
          have hpow : 2 ^ 1075 ≤ 10 ^ 330 := by decide +kernel
          rw [zpow_neg, zpow_neg]
          exact inv_anti₀ (by positivity) (by exact_mod_cast hpow)
      _ ≤ c * 10 ^ p := hlow
      _ < 10 ^ (Decimal.digitCount c : ℤ) * 10 ^ p := by gcongr
      _ = 10 ^ ((Decimal.digitCount c : ℤ) + p) := (zpow_add₀ (by norm_num) _ _).symm
  have hmagnitude' : ((Decimal.digitCount c - 1 : ℕ) : ℤ) + p < 310 := by
    have hleast' : 10 ^ ((Decimal.digitCount c - 1 : ℕ) : ℤ) ≤ (c : ℚ) := by exact_mod_cast hleast
    refine (zpow_lt_zpow_iff_right₀ (by norm_num : (1 : ℚ) < 10)).mp ?_
    calc (10 : ℚ) ^ (((Decimal.digitCount c - 1 : ℕ) : ℤ) + p) =
          10 ^ ((Decimal.digitCount c - 1 : ℕ) : ℤ) * 10 ^ p := zpow_add₀ (by norm_num) _ _
      _ ≤ c * 10 ^ p := by gcongr
      _ < 2 ^ (1024 : ℤ) := hhigh
      _ ≤ 10 ^ (310 : ℤ) := by
          have hpow : 2 ^ 1024 ≤ 10 ^ 310 := by decide +kernel
          exact_mod_cast hpow
  unfold nearest
  dsimp only
  rw [if_neg (by omega), if_neg (by omega)]
  split
  · rename_i hp
    refine ofScientific_mul hpos (by omega) hc h ?_
    rw [hy, ← zpow_natCast, Int.toNat_of_nonneg hp]
  · rename_i hp
    refine ofScientific_div hpos (by omega) (by omega) hc h ?_
    rw [hy, ← zpow_natCast, Int.toNat_of_nonneg (by omega), zpow_neg, div_inv_eq_mul]

end Numeral

/-! ## Numerals are numbers -/

namespace Scalar

open Float.Model Float.Model.UnpackedFloat

theorem isNaN_ofScientific {c : ℕ} (hc : 0 < c) (divided : Bool) (k : ℕ) :
    isNaN (Float.ofScientific c divided k) = false := by
  unfold Float.ofScientific
  split
  · rename_i hfast
    obtain ⟨a, s, ha, hunpack, -⟩ := toFloat_eq hc hfast.1
    obtain ⟨b, t, hb, hpower, -⟩ := powerOfTen_eq (lt_size_powersOfTen hfast.2)
    cases divided with
    | true =>
      show isNaN (.ofModel (.pack (UnpackedFloat.div _ _ _))) = _
      rw [isNaN_ofModel_pack, hunpack, hpower]
      exact isNaN_roundWithAccuracy ..
    | false =>
      show isNaN (.ofModel (.pack (UnpackedFloat.mul _ _ _))) = _
      rw [isNaN_ofModel_pack, hunpack, hpower]
      exact isNaN_roundWithAccuracy ..
  · show isNaN (.ofModel (.pack (UnpackedFloat.ofScientific _ _ _))) = _
    rw [isNaN_ofModel_pack]
    generalize (if divided = true then Int.negOfNat k else Int.ofNat k) = e
    -- zero, infinity and zero are no NaN, and neither is what is rounded
    exact isNaN_dite (fun _ => rfl) fun _ => isNaN_ite rfl <| isNaN_ite rfl <|
      isNaN_ite (isNaN_roundWithAccuracy ..) (isNaN_roundWithAccuracy ..)

end Scalar

namespace Numeral

theorem isNaN_nearest (c : ℕ) (p : ℤ) : Scalar.isNaN (nearest c p) = false := by
  unfold nearest
  dsimp only
  split
  · decide +kernel
  · rename_i hdigits
    have hc : 0 < c := Nat.pos_of_ne_zero fun h => hdigits (.inl h)
    split
    · decide +kernel
    · split <;> exact Scalar.isNaN_ofScientific hc ..

theorem isNaN_signed (negative : Bool) (c : ℕ) (p : ℤ) :
    Scalar.isNaN (if negative then -nearest c p else nearest c p) = false := by
  cases negative with
  | true => exact (Scalar.isNaN_neg _).trans (isNaN_nearest c p)
  | false => exact isNaN_nearest c p

/-- The value of a numeral is a number. -/
theorem isNaN_value {n : Numeral} {x : Float} (h : n.value? = some x) : Scalar.isNaN x = false := by
  obtain ⟨digits, -, h⟩ := Option.bind_eq_some_iff.mp h
  dsimp only at h
  split at h
  · cases h
    exact isNaN_signed ..
  · obtain ⟨exponent, -, h⟩ := Option.bind_eq_some_iff.mp h
    cases h
    exact isNaN_signed ..

end Numeral

end FeatureSynth
