/-
# Ranks of doubles

`Scalar.rank` places a double by its bits.  The rank is that of the pattern of bits
(`rankOfBits`), and different patterns have different ranks.  Where it is not NaN
that the patterns stand for, ranks are in the order of numbers: below its sign bit a
double has its exponent above its mantissa, so magnitudes grow with the pattern
(`abs_number_le_of_magnitude`), and a negative double has the opposite rank.
-/
import FeatureSynth.Proofs.Scalar.Number

namespace FeatureSynth

namespace Scalar

/-! ## Patterns -/

/-- Rank of a pattern of 64 bits: those with the sign bit in reverse order, the others above them. -/
def rankOfBits (bits : UInt64) : Nat :=
  if bits.toNat < Nat.pow 2 63 then bits.toNat + Nat.pow 2 63 else Nat.pow 2 64 - 1 - bits.toNat

theorem rankOfBits_inj {a b : UInt64} : rankOfBits a = rankOfBits b ↔ a = b := by
  constructor
  · intro h
    have ha := a.toNat_lt
    have hb := b.toNat_lt
    rw [← UInt64.toNat_inj]
    simp only [rankOfBits, Nat.pow_eq] at h
    split at h <;> split at h <;> omega
  · rintro rfl; rfl

theorem toBits_inj {x y : Float} : x.toBits = y.toBits ↔ x = y := by
  constructor
  · intro h
    obtain ⟨⟨bits, _⟩⟩ := x
    obtain ⟨⟨bits', _⟩⟩ := y
    obtain rfl : bits = bits' := h
    rfl
  · rintro rfl; rfl

/-! ## Magnitudes -/

/-- The bits of a double below its sign. -/
def magnitude (x : Float) : Nat := x.toBits.toNat % Nat.pow 2 63

variable {x y : Float} {m m' : ℕ} {e e' : ℤ} {negative negative' : Bool}

/-- What the magnitude of a finite double is made of. -/
theorem magnitude_of_decode (h : decode x = .finite negative m e) :
    magnitude x / 2 ^ 52 = 0 ∧ m = magnitude x % 2 ^ 52 ∧ e = -1074 ∨
      0 < magnitude x / 2 ^ 52 ∧ m = 2 ^ 52 + magnitude x % 2 ^ 52 ∧
        e = (magnitude x / 2 ^ 52 : ℕ) - 1075 := by
  have hlt := x.toBits.toNat_lt
  unfold decode at h
  dsimp only at h
  unfold magnitude
  simp only [Nat.pow_eq] at h ⊢
  split at h
  · split at h <;> cases h
  · split at h
    · cases h
      omega
    · cases h
      omega

theorem isFinite_iff_magnitude (x : Float) : isFinite x = true ↔ magnitude x / 2 ^ 52 ≠ 2047 := by
  have hlt := x.toBits.toNat_lt
  unfold isFinite decode magnitude
  dsimp only
  simp only [Nat.pow_eq]
  split
  · rename_i h
    split at h
    · split at h <;> cases h
    · split at h <;> exact iff_of_true rfl (by omega)
  · rename_i h
    split at h
    · exact iff_of_false Bool.false_ne_true (by omega)
    · split at h <;> exact absurd rfl (h _ _ _)

/-- Of two finite doubles the one with the smaller magnitude has the smaller number, up to sign. -/
theorem value_le_of_magnitude (hx : decode x = .finite negative m e)
    (hy : decode y = .finite negative' m' e') (h : magnitude x ≤ magnitude y) :
    (m : ℚ) * 2 ^ e ≤ m' * 2 ^ e' := by
  have hxfields := magnitude_of_decode hx
  have hyfields := magnitude_of_decode hy
  obtain rfl | hm := Nat.eq_zero_or_pos m
  · rw [Nat.cast_zero, zero_mul]
    positivity
  · have hlex : e < e' ∨ e = e' ∧ m ≤ m' := by omega
    have hpos : 0 < m' := by omega
    obtain he | ⟨rfl, hle⟩ := hlex
    · exact ((canonical_of_decode hx hm).1.value_lt_value (canonical_of_decode hy hpos).1
        (.inl he)).le
    · gcongr

theorem exists_decode (hx : isFinite x = true) :
    ∃ negative m e, decode x = .finite negative m e := by
  rw [isFinite] at hx
  split at hx
  · rename_i negative m e h
    exact ⟨negative, m, e, h⟩
  · cases hx

theorem abs_number_of_decode (h : decode x = .finite negative m e) : |number x| = m * 2 ^ e := by
  rw [number_of_decode h, abs_withSign]
  exact abs_of_nonneg (by positivity)

/-- Magnitudes are in the order of absolute values. -/
theorem abs_number_le_of_magnitude (hy : isNaN y = false) (h : magnitude x ≤ magnitude y) :
    |number x| ≤ |number y| := by
  obtain hyfinite | ⟨s, hs⟩ := isFinite_or_infinity hy
  · have hxfinite : isFinite x = true := by
      have hlt : magnitude y < 2 ^ 63 := Nat.mod_lt _ (by decide)
      have hne := (isFinite_iff_magnitude y).mp hyfinite
      rw [isFinite_iff_magnitude]
      omega
    obtain ⟨_, _, _, hxdecode⟩ := exists_decode hxfinite
    obtain ⟨_, _, _, hydecode⟩ := exists_decode hyfinite
    rw [abs_number_of_decode hxdecode, abs_number_of_decode hydecode]
    exact value_le_of_magnitude hxdecode hydecode h
  · have hlimit : (0 : ℚ) < 2 ^ 1024 := by positivity
    rw [(unpack_infinity_iff hy s).mp hs, abs_withSign, abs_of_pos hlimit]
    exact abs_number_le x

/-! ## Signs -/

/-- The sign of a double is its first bit. -/
theorem number_eq_withSign (x : Float) :
    number x = withSign (Binary.sign (x.toBits.toNat / Nat.pow 2 63 == 1)) |number x| := by
  have hsign : ∀ negative, (∃ m e, decode x = .finite negative m e) ∨ decode x = .infinite negative →
      negative = (x.toBits.toNat / Nat.pow 2 63 == 1) := by
    intro negative h
    unfold decode at h
    dsimp only at h
    split at h
    · split at h
      · obtain ⟨_, _, h⟩ | h := h
        · cases h
        · cases h
          rfl
      · obtain ⟨_, _, h⟩ | h := h <;> cases h
    · split at h
      all_goals
        obtain ⟨_, _, h⟩ | h := h
        · cases h
          rfl
        · cases h
  cases hdecode : decode x with
  | nan =>
    have hzero : number x = 0 := by
      rw [number, unpack_eq_decode, hdecode]
      rfl
    rw [hzero, abs_zero, withSign_zero]
  | infinite negative =>
    have hnumber : number x = withSign (Binary.sign negative) (2 ^ 1024) := by
      rw [number, unpack_eq_decode, hdecode]
      rfl
    rw [← hsign negative (.inr hdecode), hnumber, abs_withSign, abs_of_pos (by positivity)]
  | finite negative m e =>
    rw [← hsign negative (.inl ⟨m, e, hdecode⟩), abs_number_of_decode hdecode,
      number_of_decode hdecode]

theorem number_of_lt (h : x.toBits.toNat < 2 ^ 63) : number x = |number x| := by
  have hsign : (x.toBits.toNat / Nat.pow 2 63 == 1) = false := by
    rw [Nat.pow_eq, Nat.div_eq_of_lt h]
    rfl
  have hnumber := number_eq_withSign x
  rw [hsign] at hnumber
  exact hnumber

theorem number_of_le (h : 2 ^ 63 ≤ x.toBits.toNat) : number x = -|number x| := by
  have hlt := x.toBits.toNat_lt
  have hsign : (x.toBits.toNat / Nat.pow 2 63 == 1) = true := by
    rw [beq_iff_eq, Nat.pow_eq]
    omega
  have hnumber := number_eq_withSign x
  rw [hsign] at hnumber
  exact hnumber

/-- Ranks are in the order of numbers. -/
theorem number_le_of_rank (hx : isNaN x = false) (hy : isNaN y = false) (h : rank x ≤ rank y) :
    number x ≤ number y := by
  have hxlt := x.toBits.toNat_lt
  have hylt := y.toBits.toNat_lt
  simp only [rank, Nat.pow_eq] at h
  obtain hxsign | hxsign := Nat.lt_or_ge x.toBits.toNat (2 ^ 63)
  · have hysign : y.toBits.toNat < 2 ^ 63 := by
      by_contra hge
      rw [if_pos hxsign, if_neg hge] at h
      omega
    rw [if_pos hxsign, if_pos hysign] at h
    have hmagnitude : magnitude x ≤ magnitude y := by
      simp only [magnitude, Nat.pow_eq]
      omega
    rw [number_of_lt hxsign, number_of_lt hysign]
    exact abs_number_le_of_magnitude hy hmagnitude
  · obtain hysign | hysign := Nat.lt_or_ge y.toBits.toNat (2 ^ 63)
    · rw [number_of_le hxsign, number_of_lt hysign]
      exact (neg_nonpos.mpr (abs_nonneg _)).trans (abs_nonneg _)
    · rw [if_neg hxsign.not_gt, if_neg hysign.not_gt] at h
      have hmagnitude : magnitude y ≤ magnitude x := by
        simp only [magnitude, Nat.pow_eq]
        omega
      rw [number_of_le hxsign, number_of_le hysign]
      exact neg_le_neg (abs_number_le_of_magnitude hx hmagnitude)

end Scalar

end FeatureSynth
