/-
# The shortest decimal is read back

The search for the shortest decimal compares quotients of whole numbers.  As rational
numbers they say what they should: a decimal is in the rounding interval of a double
exactly if it rounds to that double (`holds_iff`).  So whatever grid the search stops
at, its decimal is read back, if it stops at a point of the interval.  It does at
seventeen digits at the latest: one step of that grid is less than a step of the
double, and at a power of two less than half of one, so one of the two neighbours of
the value lies in the interval.
-/
import Mathlib.Data.Nat.Cast.Order.Field
import FeatureSynth.Decimal.Shortest
import FeatureSynth.Proofs.Decimal.Nearest

namespace FeatureSynth

namespace Decimal

open Scalar

/-! ## Quotients -/

namespace Ratio

variable {a b : Ratio}

/-- The number of a quotient. -/
def value (a : Ratio) : ℚ := a.num / a.den

theorem value_ofBinary (m : ℕ) (e : ℤ) : (ofBinary m e).value = m * 2 ^ e := by
  unfold ofBinary value
  split
  · rename_i he
    obtain ⟨k, rfl⟩ := Int.eq_ofNat_of_zero_le he
    simp
  · rename_i he
    obtain ⟨k, hk⟩ := Int.eq_ofNat_of_zero_le (by omega : 0 ≤ -e)
    obtain rfl : e = -k := by omega
    simp [div_eq_mul_inv]

theorem value_ofDecimal (c : ℕ) (p : ℤ) : (ofDecimal c p).value = c * 10 ^ p := by
  unfold ofDecimal value
  split
  · rename_i hp
    obtain ⟨k, rfl⟩ := Int.eq_ofNat_of_zero_le hp
    simp
  · rename_i hp
    obtain ⟨k, hk⟩ := Int.eq_ofNat_of_zero_le (by omega : 0 ≤ -p)
    obtain rfl : p = -k := by omega
    simp [div_eq_mul_inv]

theorem den_ofBinary (m : ℕ) (e : ℤ) : 0 < (ofBinary m e).den := by
  unfold ofBinary
  split <;> simp

theorem den_ofDecimal (c : ℕ) (p : ℤ) : 0 < (ofDecimal c p).den := by
  unfold ofDecimal
  split <;> simp

theorem lt_iff (ha : 0 < a.den) (hb : 0 < b.den) : a.lt b = true ↔ a.value < b.value := by
  rw [lt, decide_eq_true_iff, value, value, div_lt_div_iff₀ (by exact_mod_cast ha) (by exact_mod_cast hb)]
  exact_mod_cast Iff.rfl

theorem le_iff (ha : 0 < a.den) (hb : 0 < b.den) : a.le b = true ↔ a.value ≤ b.value := by
  rw [le, decide_eq_true_iff, value, value, div_le_div_iff₀ (by exact_mod_cast ha) (by exact_mod_cast hb)]
  exact_mod_cast Iff.rfl

/-- How often one quotient goes into another. -/
theorem floor_div (ha : 0 < a.den) (hb : 0 < b.den) (hb' : 0 < b.num) :
    ((a.num * b.den / (a.den * b.num) : ℕ) : ℚ) * b.value ≤ a.value ∧
      a.value < ((a.num * b.den / (a.den * b.num) : ℕ) + 1) * b.value := by
  have ha' : (0 : ℚ) < a.den := by exact_mod_cast ha
  have hbd : (0 : ℚ) < b.den := by exact_mod_cast hb
  have hd : 0 < a.den * b.num := Nat.mul_pos ha hb'
  have hlow := Nat.div_mul_le_self (a.num * b.den) (a.den * b.num)
  have hhigh := Nat.lt_mul_div_succ (a.num * b.den) hd
  generalize a.num * b.den / (a.den * b.num) = q at *
  unfold value
  constructor
  · rw [mul_div_assoc', div_le_div_iff₀ hbd ha']
    exact_mod_cast (by linarith : q * b.num * a.den ≤ a.num * b.den)
  · rw [mul_div_assoc', div_lt_div_iff₀ ha' hbd]
    exact_mod_cast (by linarith : a.num * b.den < (q + 1) * b.num * a.den)

end Ratio

/-! ## The interval of a double -/

variable {m c : ℕ} {e p : ℤ}

theorem value_low (hm : 0 < m) (e : ℤ) :
    (Rounding.ofBinary m e).low.value = (m - below m e) * 2 ^ e := by
  show (Ratio.ofBinary (4 * m - if m = 2 ^ 52 ∧ -1074 < e then 1 else 2) (e - 2)).value = _
  rw [Ratio.value_ofBinary, zpow_sub₀ two_ne_zero, below]
  split
  · push_cast [show 1 ≤ 4 * m by omega]
    ring
  · push_cast [show 2 ≤ 4 * m by omega]
    ring

theorem value_high (m : ℕ) (e : ℤ) :
    (Rounding.ofBinary m e).high.value = (m + 1 / 2) * 2 ^ e := by
  show (Ratio.ofBinary (4 * m + 2) (e - 2)).value = _
  rw [Ratio.value_ofBinary, zpow_sub₀ two_ne_zero]
  push_cast
  ring

/-- The interval around a double holds the decimals that round to it. -/
theorem holds_iff (hm : 0 < m) :
    (Rounding.ofBinary m e).holds c p = true ↔ Near m e (c * 10 ^ p / 2 ^ e) := by
  have hstep : (0 : ℚ) < 2 ^ e := by positivity
  have hlow : 0 < (Rounding.ofBinary m e).low.den := Ratio.den_ofBinary _ _
  have hhigh : 0 < (Rounding.ofBinary m e).high.den := Ratio.den_ofBinary _ _
  have hden := Ratio.den_ofDecimal c p
  have hclosed : (Rounding.ofBinary m e).closed = true ↔ m % 2 = 0 := beq_iff_eq
  unfold Rounding.holds Near
  dsimp only
  rw [lt_div_iff₀ hstep, div_lt_iff₀ hstep, le_div_iff₀ hstep, div_le_iff₀ hstep]
  split
  · rename_i h
    rw [Bool.and_eq_true, Ratio.le_iff hlow hden, Ratio.le_iff hden hhigh, value_low hm, value_high,
      Ratio.value_ofDecimal]
    refine ⟨fun h' => .inr ⟨hclosed.mp h, h'⟩, ?_⟩
    rintro (⟨h1, h2⟩ | ⟨-, h'⟩)
    · exact ⟨h1.le, h2.le⟩
    · exact h'
  · rename_i h
    rw [Bool.and_eq_true, Ratio.lt_iff hlow hden, Ratio.lt_iff hden hhigh, value_low hm, value_high,
      Ratio.value_ofDecimal]
    refine ⟨.inl, ?_⟩
    rintro (h' | ⟨h', -⟩)
    · exact h'
    · exact absurd (hclosed.mpr h') h

/-! ## Grids -/

theorem onGrid_holds {r : Rounding} (h : r.onGrid? p = some c) : r.holds c p = true := by
  unfold Rounding.onGrid? at h
  dsimp only at h
  split at h
  · cases h
  · cases h
    assumption
  · cases h
    assumption
  · split at h
    all_goals
      cases h
      assumption

/-- On a grid fine enough a neighbour of the double lies in its interval. -/
theorem exists_onGrid (hc : Canonical m e) (hp : (10 : ℚ) ^ p * 10 ^ 16 ≤ m * 2 ^ e) :
    ∃ c, (Rounding.ofBinary m e).onGrid? p = some c := by
  have hunit : 0 < (Ratio.ofDecimal 1 p).num := by
    unfold Ratio.ofDecimal
    split <;> simp
  obtain ⟨hlow, hhigh⟩ := Ratio.floor_div (Ratio.den_ofBinary m e) (Ratio.den_ofDecimal 1 p) hunit
  obtain ⟨low, hfloor⟩ : ∃ low, low = (Ratio.ofBinary m e).num * (Ratio.ofDecimal 1 p).den /
    ((Ratio.ofBinary m e).den * (Ratio.ofDecimal 1 p).num) := ⟨_, rfl⟩
  rw [← hfloor, Ratio.value_ofBinary, Ratio.value_ofDecimal, Nat.cast_one, one_mul] at hlow hhigh
  have hstep : (0 : ℚ) < 2 ^ e := by positivity
  -- distances in steps of the double
  obtain ⟨g, hg⟩ : ∃ g : ℚ, g = 10 ^ p / 2 ^ e := ⟨_, rfl⟩
  have hpoint : ∀ c : ℕ, (c : ℚ) * 10 ^ p / 2 ^ e = c * g := fun c => by rw [hg, mul_div_assoc]
  have hlow' : low * g ≤ m := by
    rwa [← hpoint, div_le_iff₀ hstep]
  have hhigh' : m < (low + 1) * g := by
    rw [hg, mul_div_assoc', lt_div_iff₀ hstep]
    exact hhigh
  have hfine : g * 10 ^ 16 ≤ m := by
    rwa [hg, div_mul_eq_mul_div, div_le_iff₀ hstep]
  have hm : (m : ℚ) < 2 ^ 53 := by exact_mod_cast hc.lt
  have hnear : Near m e (low * g) ∨ Near m e ((low + 1 : ℕ) * g) := by
    push_cast
    unfold Near below
    split
    · rename_i h
      have hm : (m : ℚ) = 2 ^ 52 := by exact_mod_cast h.1
      refine .inr (.inl ⟨by linarith, ?_⟩)
      linarith
    · obtain hnear | hfar := lt_or_ge ((m : ℚ) - 1 / 2) (low * g)
      · exact .inl (.inl ⟨hnear, by linarith⟩)
      · refine .inr (.inl ⟨by linarith, ?_⟩)
        linarith
  rw [← hpoint, ← hpoint, ← holds_iff hc.pos, ← holds_iff hc.pos] at hnear
  have hvalue : (Rounding.ofBinary m e).value = Ratio.ofBinary m e := rfl
  rw [Rounding.onGrid?, hvalue, ← hfloor]
  cases hl : (Rounding.ofBinary m e).holds low p with
  | true =>
    cases (Rounding.ofBinary m e).holds (low + 1) p with
    | true =>
      dsimp only
      split
      · exact ⟨_, rfl⟩
      · exact ⟨_, rfl⟩
    | false => exact ⟨low, rfl⟩
  | false =>
    have hh := hnear.resolve_left (by rw [hl]; exact Bool.false_ne_true)
    rw [hh]
    exact ⟨low + 1, rfl⟩

/-- Scaled up to digits before the point, a quotient is as large as its digits say. -/
theorem scaled_le {a : Ratio} (k : ℕ) (ha : 0 < a.den) (h : (10 : ℚ) ^ (-k : ℤ) ≤ a.value) :
    (10 : ℚ) ^ ((digitCount (a.num * Nat.pow 10 k / a.den) : ℤ) - (k + 1)) ≤ a.value := by
  have hden : (0 : ℚ) < a.den := by exact_mod_cast ha
  have hscale : (0 : ℚ) < 10 ^ (k : ℤ) := by positivity
  have hscaled : ((a.num * Nat.pow 10 k : ℕ) : ℚ) / a.den = a.value * 10 ^ (k : ℤ) := by
    rw [Ratio.value, div_mul_eq_mul_div, Nat.pow_eq, Nat.cast_mul, Nat.cast_pow, zpow_natCast]
    rfl
  have hpos : 0 < a.num * Nat.pow 10 k / a.den := by
    refine Nat.div_pos ?_ ha
    have hone : (1 : ℚ) ≤ ((a.num * Nat.pow 10 k : ℕ) : ℚ) / a.den := by
      rw [zpow_neg, inv_le_iff_one_le_mul₀ hscale] at h
      rwa [hscaled]
    rw [le_div_iff₀ hden, one_mul] at hone
    exact Nat.cast_le.mp hone
  have hfloor : ((a.num * Nat.pow 10 k / a.den : ℕ) : ℚ) ≤ a.value * 10 ^ (k : ℤ) :=
    Nat.cast_div_le.trans_eq hscaled
  obtain ⟨hcount, hleast, -⟩ := digitCount_bounds hpos
  generalize a.num * Nat.pow 10 k / a.den = q at *
  have hleast' : (10 : ℚ) ^ ((digitCount q : ℤ) - 1) ≤ q := by
    rw [show (digitCount q : ℤ) - 1 = (digitCount q - 1 : ℕ) by omega, zpow_natCast]
    exact_mod_cast hleast
  rw [add_comm (k : ℤ), ← sub_sub, zpow_sub₀ (by norm_num), div_le_iff₀ hscale]
  exact hleast'.trans hfloor

/-- The magnitude of a quotient is not too large. -/
theorem magnitude_le {a : Ratio} (ha : 0 < a.den) (h : (10 : ℚ) ^ (-(400 : ℕ) : ℤ) ≤ a.value) :
    (10 : ℚ) ^ a.magnitude ≤ a.value := by
  have hplaces : (401 : ℤ) = (400 : ℕ) + 1 := rfl
  rw [Ratio.magnitude, hplaces]
  generalize 400 = k at h ⊢
  exact scaled_le k ha h

/-- The search finds a decimal in the interval. -/
theorem search_holds (hc : Canonical m e) {magnitude : ℤ} (h : (10 : ℚ) ^ magnitude ≤ m * 2 ^ e) :
    ∀ fuel n, 17 ≤ n + fuel → (Rounding.ofBinary m e).holds
      ((Rounding.ofBinary m e).search magnitude fuel n).digits
      ((Rounding.ofBinary m e).search magnitude fuel n).exponent = true := by
  intro fuel
  induction fuel with
  | zero =>
    intro n hn
    have hp : (10 : ℚ) ^ (magnitude - n + 1) * 10 ^ 16 ≤ m * 2 ^ e := by
      refine le_trans ?_ h
      rw [← zpow_natCast, ← zpow_add₀ (by norm_num)]
      exact zpow_le_zpow_right₀ (by norm_num) (by push_cast; omega)
    obtain ⟨c, hc'⟩ := exists_onGrid hc hp
    rw [Rounding.search, hc']
    exact onGrid_holds hc'
  | succ fuel ih =>
    intro n hn
    rw [Rounding.search]
    split
    · rename_i c hc'
      exact onGrid_holds hc'
    · exact ih (n + 1) (by omega)

theorem trim_value : ∀ (fuel : ℕ) (d : Decimal),
    ((trim fuel d).digits : ℚ) * 10 ^ (trim fuel d).exponent = d.digits * 10 ^ d.exponent
  | 0, d => rfl
  | fuel + 1, d => by
      rw [trim]
      split
      · rename_i h
        rw [trim_value fuel]
        have hd : (d.digits : ℚ) = 10 * (d.digits / 10 : ℕ) := by
          exact_mod_cast (Nat.mul_div_cancel' (Nat.dvd_of_mod_eq_zero h.2)).symm
        rw [hd, zpow_add_one₀ (by norm_num)]
        push_cast
        ring
      · rfl

/-- The shortest decimal rounds to its double. -/
theorem shortest_near (hc : Canonical m e) :
    Near m e ((shortest m e).digits * 10 ^ (shortest m e).exponent / 2 ^ e) := by
  rw [shortest, trim_value, ← holds_iff hc.pos]
  have hvalue : (Rounding.ofBinary m e).value = Ratio.ofBinary m e := rfl
  refine search_holds hc ?_ 16 1 le_rfl
  rw [hvalue, ← Ratio.value_ofBinary]
  refine magnitude_le (Ratio.den_ofBinary m e) ?_
  rw [Ratio.value_ofBinary]
  have hm : (1 : ℚ) ≤ m := by exact_mod_cast hc.pos
  calc (10 : ℚ) ^ (-(400 : ℕ) : ℤ) ≤ 2 ^ (-1074 : ℤ) := by
        have hpow : 2 ^ 1074 ≤ 10 ^ 400 := by decide +kernel
        rw [zpow_neg, zpow_neg]
        exact inv_anti₀ (by positivity) (by exact_mod_cast hpow)
    _ ≤ 2 ^ e := zpow_le_zpow_right₀ one_le_two hc.least
    _ ≤ m * 2 ^ e := le_mul_of_one_le_left (by positivity) hm

end Decimal

end FeatureSynth
