/-
# Rounding as a function of numbers

What a double is rounded to depends on the exact number alone: `RoundsTo` is that
relation, the whole number of steps nearest to the number, the even one of two
equally near, in steps as wide as 53 binary digits need or as the least exponent
allows.  It keeps the order of numbers, and a multiple of the least step moves by at
most one part in `2 ^ 53`.

The rounding of the float model computes this (`number_roundWithAccuracy`).  It stops at
infinity, whose number is the limit of the finite ones, so `Rounds` says of a double
that it is a number rounded and held between the limits.
-/
import Mathlib.Algebra.Order.Field.Basic
import Mathlib.Tactic.GCongr
import FeatureSynth.Proofs.Scalar.Number

namespace FeatureSynth

namespace Scalar

open Float.Model Float.Model.UnpackedFloat

/-! ## The nearest whole number -/

/-- A whole number is the one nearest to a number, the even one of two equally near. -/
def NearestInt (n : ℤ) (y : ℚ) : Prop :=
  |y - n| < 1 / 2 ∨ n % 2 = 0 ∧ |y - n| ≤ 1 / 2

namespace NearestInt

variable {n n' : ℤ} {y y' : ℚ}

theorem le (h : NearestInt n y) : |y - n| ≤ 1 / 2 := by
  obtain h | ⟨-, h⟩ := h
  · exact h.le
  · exact h

theorem self (n : ℤ) : NearestInt n n := by
  refine .inl ?_
  rw [sub_self, abs_zero]
  norm_num

theorem neg (h : NearestInt n y) : NearestInt (-n) (-y) := by
  have habs : |-y - (-n : ℤ)| = |y - n| := by
    rw [← abs_neg]
    push_cast
    ring_nf
  rw [NearestInt, habs]
  exact h.imp_right (.imp_left (by omega))

/-- Two numbers as near as that to different whole numbers are in their order. -/
theorem mono (h : NearestInt n y) (h' : NearestInt n' y') (hy : y ≤ y') : n ≤ n' := by
  by_contra hlt
  have hstep : (n' : ℚ) + 1 ≤ n := by exact_mod_cast not_le.mp hlt
  have hlow := (abs_le.mp h.le).1
  have hhigh := (abs_le.mp h'.le).2
  -- both numbers stand halfway between, and then both whole numbers would be even
  obtain h | ⟨heven, -⟩ := h
  · linarith [(abs_lt.mp h).1]
  obtain h' | ⟨heven', -⟩ := h'
  · linarith [(abs_lt.mp h').2]
  have heq : (n : ℚ) = n' + 1 := by linarith
  have heq' : n = n' + 1 := by exact_mod_cast heq
  omega

end NearestInt

/-- A number is rounded to the whole number nearest to it. -/
theorem StandsAt.nearestInt {y : ℚ} {em : ExtendedMantissa} (h : StandsAt y em) :
    NearestInt em.roundedMantissa y := by
  obtain ⟨m, r, s⟩ := em
  cases r <;> cases s <;> simp only [StandsAt, bitWeight, if_true, if_false, Bool.false_eq_true] at h
  case false.false =>
    rw [h, add_zero]
    exact .self m
  case false.true =>
    refine .inl (abs_lt.mpr ?_)
    show -(1 / 2) < y - ((m : ℤ) : ℚ) ∧ y - ((m : ℤ) : ℚ) < 1 / 2
    push_cast
    constructor <;> linarith
  case true.false =>
    refine .inr ⟨?_, abs_le.mpr ?_⟩
    · show ((m + m % 2 : ℕ) : ℤ) % 2 = 0
      omega
    · show -(1 / 2) ≤ y - ((m + m % 2 : ℕ) : ℤ) ∧ y - ((m + m % 2 : ℕ) : ℤ) ≤ 1 / 2
      obtain hbit | hbit := Nat.mod_two_eq_zero_or_one m
      all_goals
        rw [hbit]
        push_cast
        constructor <;> linarith
  case true.true =>
    refine .inl (abs_lt.mpr ?_)
    show -(1 / 2) < y - ((m + 1 : ℕ) : ℤ) ∧ y - ((m + 1 : ℕ) : ℤ) < 1 / 2
    push_cast
    constructor <;> linarith

/-! ## Rounding -/

/-- The step, as a power of two, in which numbers of a magnitude are rounded. -/
structure StepOf (u : ℤ) (magnitude : ℚ) : Prop where
  least : -1074 ≤ u
  lt : magnitude < 2 ^ (u + 53)
  digits : u = -1074 ∨ 2 ^ (u + 52) ≤ magnitude

/-- A number has at most 53 digits before the point in its step, rounded as well. -/
theorem NearestInt.abs_le_of_step {n u : ℤ} {q : ℚ} (hn : NearestInt n (q / 2 ^ u)) (hstep : StepOf u |q|) :
    |n| ≤ 2 ^ 53 := by
  have hpos : (0 : ℚ) < 2 ^ u := by positivity
  have hq : |q / 2 ^ u| ≤ (2 ^ 53 : ℤ) := by
    rw [abs_div, abs_of_pos hpos, div_le_iff₀ hpos]
    refine hstep.lt.le.trans_eq ?_
    rw [add_comm, zpow_add₀ two_ne_zero]
    norm_num
  obtain ⟨hlow, hhigh⟩ := abs_le.mp hq
  exact abs_le.mpr ⟨(NearestInt.self (-2 ^ 53)).mono hn (by exact_mod_cast hlow),
    hn.mono (.self _) hhigh⟩

/-- A number has its leading digit when it is rounded, too. -/
theorem NearestInt.le_of_step {n u : ℤ} {q : ℚ} (hn : NearestInt n (q / 2 ^ u))
    (hq : 2 ^ (u + 52) ≤ q) : 2 ^ 52 ≤ n := by
  have hpos : (0 : ℚ) < 2 ^ u := by positivity
  have hle : ((2 ^ 52 : ℤ) : ℚ) ≤ q / 2 ^ u := by
    rw [le_div_iff₀ hpos]
    refine le_trans (le_of_eq ?_) hq
    rw [add_comm, zpow_add₀ two_ne_zero]
    norm_num
  exact (NearestInt.self _).mono hn hle

/-- A number is a whole number of the least steps, as doubles and their sums are. -/
def WholeSteps (q : ℚ) : Prop := ∃ k : ℤ, q = k * 2 ^ (-1074 : ℤ)

theorem WholeSteps.add {p q : ℚ} (hp : WholeSteps p) (hq : WholeSteps q) : WholeSteps (p + q) := by
  obtain ⟨k, rfl⟩ := hp
  obtain ⟨l, rfl⟩ := hq
  exact ⟨k + l, by rw [Int.cast_add, add_mul]⟩

theorem WholeSteps.natCast_mul {q : ℚ} (hq : WholeSteps q) (k : ℕ) : WholeSteps (k * q) := by
  obtain ⟨l, rfl⟩ := hq
  exact ⟨k * l, by rw [Int.cast_mul, Int.cast_natCast, mul_assoc]⟩

theorem WholeSteps.withSign {q : ℚ} (hq : WholeSteps q) (s : Sign) : WholeSteps (withSign s q) := by
  cases s with
  | positive => exact hq
  | negative =>
    obtain ⟨k, rfl⟩ := hq
    refine ⟨-k, ?_⟩
    show -((k : ℚ) * 2 ^ (-1074 : ℤ)) = _
    rw [Int.cast_neg, neg_mul]

theorem wholeSteps_number {x : Float} (hx : isFinite x = true) : WholeSteps (number x) := by
  rw [number]
  obtain ⟨s, hunpack⟩ | ⟨s, m, e, hc, -, hunpack⟩ := unpack_of_isFinite hx
  · rw [hunpack, numberOf_zero]
    exact ⟨0, by rw [Int.cast_zero, zero_mul]⟩
  · rw [hunpack, numberOf_finite]
    refine .withSign ⟨m * 2 ^ (e + 1074).toNat, ?_⟩ s
    have hleast := hc.least
    rw [Int.cast_mul, Int.cast_natCast, Int.cast_pow, Int.cast_ofNat, mul_assoc, ← zpow_natCast,
      ← zpow_add₀ two_ne_zero, Int.toNat_of_nonneg (by omega), add_neg_cancel_right]

/-- A number is rounded to `v`. -/
def RoundsTo (q v : ℚ) : Prop :=
  ∃ (n u : ℤ), StepOf u |q| ∧ NearestInt n (q / 2 ^ u) ∧ v = n * 2 ^ u

namespace RoundsTo

variable {q q' v v' : ℚ}

theorem neg (h : RoundsTo q v) : RoundsTo (-q) (-v) := by
  obtain ⟨n, u, hstep, hn, rfl⟩ := h
  refine ⟨-n, u, by rwa [abs_neg], ?_, by push_cast; ring⟩
  rw [neg_div]
  exact hn.neg

/-- Between numbers of different steps there is a power of two. -/
theorem mono_of_step_lt {n u n' u' : ℤ} (hstep : StepOf u |q|) (hn : NearestInt n (q / 2 ^ u))
    (hstep' : StepOf u' |q'|) (hn' : NearestInt n' (q' / 2 ^ u')) (hu : u < u') (h : q ≤ q') :
    (n : ℚ) * 2 ^ u ≤ n' * 2 ^ u' := by
  have hleast := hstep.least
  have hdigits := hstep'.digits.resolve_left (by omega)
  have hlt : |q| < |q'| := by
    refine hstep.lt.trans_le (le_trans ?_ hdigits)
    exact zpow_le_zpow_right₀ one_le_two (by omega)
  have hpos : 0 ≤ q' := by
    by_contra hneg
    rw [abs_of_neg (not_le.mp hneg)] at hlt
    linarith [neg_abs_le q]
  rw [abs_of_nonneg hpos] at hdigits
  have hmost : (n : ℚ) ≤ 2 ^ (53 : ℤ) := by exact_mod_cast (le_abs_self n).trans (hn.abs_le_of_step hstep)
  have hleast' : (2 : ℚ) ^ (52 : ℤ) ≤ n' := by exact_mod_cast hn'.le_of_step hdigits
  calc (n : ℚ) * 2 ^ u ≤ 2 ^ (53 : ℤ) * 2 ^ u := by gcongr
    _ = 2 ^ (53 + u) := (zpow_add₀ two_ne_zero ..).symm
    _ ≤ 2 ^ (52 + u') := zpow_le_zpow_right₀ one_le_two (by omega)
    _ = 2 ^ (52 : ℤ) * 2 ^ u' := zpow_add₀ two_ne_zero ..
    _ ≤ n' * 2 ^ u' := by gcongr

theorem withSign (h : RoundsTo q v) (s : Sign) : RoundsTo (withSign s q) (withSign s v) := by
  cases s with
  | positive => exact h
  | negative => exact h.neg

/-- Rounding keeps the order. -/
theorem mono (h : RoundsTo q v) (h' : RoundsTo q' v') (hq : q ≤ q') : v ≤ v' := by
  obtain ⟨n, u, hstep, hn, rfl⟩ := h
  obtain ⟨n', u', hstep', hn', rfl⟩ := h'
  obtain hu | rfl | hu := lt_trichotomy u u'
  · exact mono_of_step_lt hstep hn hstep' hn' hu hq
  · have hle := hn.mono hn' (by gcongr)
    gcongr
  · have hneg := mono_of_step_lt (by rwa [abs_neg]) (by rw [neg_div]; exact hn'.neg)
      (by rwa [abs_neg]) (by rw [neg_div]; exact hn.neg) hu (neg_le_neg hq)
    push_cast at hneg
    linarith

theorem zero : RoundsTo 0 0 :=
  ⟨0, -1074, ⟨le_rfl, by rw [abs_zero]; positivity, .inl rfl⟩, by
    rw [zero_div]
    exact .self 0, by simp⟩

/-- A double is rounded to itself. -/
theorem of_canonical {m : ℕ} {e : ℤ} (hc : Canonical m e) : RoundsTo (m * 2 ^ e) (m * 2 ^ e) := by
  have habs : |(m : ℚ) * 2 ^ e| = m * 2 ^ e := abs_of_pos hc.value_pos
  refine ⟨m, e, ⟨hc.least, ?_, ?_⟩, ?_, by push_cast; rfl⟩
  · rw [habs]
    exact hc.value_lt le_rfl
  · rw [habs]
    obtain he | he := hc.least.eq_or_lt
    · exact .inl he.symm
    · exact .inr (hc.le_value he)
  · rw [mul_div_cancel_right₀ _ (by positivity)]
    exact .self m

theorem abs (h : RoundsTo q v) : RoundsTo |q| |v| := by
  obtain hq | hq := le_total 0 q
  · rwa [abs_of_nonneg hq, abs_of_nonneg (zero.mono h hq)]
  · rw [abs_of_nonpos hq, abs_of_nonpos (h.mono zero hq)]
    exact h.neg

/-- Powers of two are rounded to themselves. -/
theorem two_zpow {k : ℤ} (hk : -1022 ≤ k) : RoundsTo (2 ^ k) (2 ^ k) := by
  have hc : Canonical (2 ^ 52) (k - 52) := ⟨by norm_num, by norm_num, by omega, .inl le_rfl⟩
  have hvalue : ((2 ^ 52 : ℕ) : ℚ) * 2 ^ (k - 52) = 2 ^ k := by
    rw [zpow_sub₀ two_ne_zero]
    push_cast
    ring
  rw [← hvalue]
  exact of_canonical hc

/-- The rounding error of a whole number of least steps is at most its `2 ^ 53`rd part. -/
theorem error_le (h : RoundsTo q v) (hq : WholeSteps q) : |v - q| ≤ 2 ^ (-53 : ℤ) * |q| := by
  obtain ⟨n, u, hstep, hn, rfl⟩ := h
  obtain ⟨k, rfl⟩ := hq
  obtain rfl | hdigits := hstep.digits
  · -- a number of steps is rounded to itself
    rw [mul_div_cancel_right₀ _ (by positivity)] at hn
    have heq : n = k := le_antisymm (hn.mono (.self k) le_rfl) ((NearestInt.self k).mono hn le_rfl)
    rw [heq, sub_self, abs_zero]
    positivity
  · have hpos : (0 : ℚ) < 2 ^ u := by positivity
    generalize (k : ℚ) * 2 ^ (-1074 : ℤ) = q at *
    calc |(n : ℚ) * 2 ^ u - q| = |q / 2 ^ u - n| * 2 ^ u := by
          rw [abs_sub_comm, ← abs_of_pos hpos, ← abs_mul, abs_of_pos hpos, sub_mul,
            div_mul_cancel₀ _ hpos.ne']
      _ ≤ 1 / 2 * 2 ^ u := by
          have := hn.le
          gcongr
      _ = 2 ^ (-53 : ℤ) * 2 ^ (u + 52) := by
          rw [← zpow_add₀ two_ne_zero, show (-53 : ℤ) + (u + 52) = -1 + u by ring,
            zpow_add₀ two_ne_zero]
          norm_num
      _ ≤ 2 ^ (-53 : ℤ) * |q| := by gcongr

end RoundsTo

/-! ## Rounding to a double -/

/-- A number held between the limits of doubles. -/
def held (v : ℚ) : ℚ := max (-2 ^ 1024) (min v (2 ^ 1024))

theorem held_mono {v v' : ℚ} (h : v ≤ v') : held v ≤ held v' :=
  max_le_max le_rfl (min_le_min h le_rfl)

theorem held_neg (v : ℚ) : held (-v) = -held v := by
  have hlimit : (0 : ℚ) ≤ 2 ^ 1024 := by positivity
  unfold held
  generalize (2 : ℚ) ^ 1024 = limit at *
  simp only [max_def, min_def]
  split_ifs <;> linarith

/-- A double is a number, rounded. -/
structure Rounds (q : ℚ) (x : Float) : Prop where
  isNaN : isNaN x = false
  rounded : ∃ v, RoundsTo q v ∧ number x = held v

theorem held_withSign (s : Sign) (v : ℚ) : held (withSign s v) = withSign s (held v) := by
  cases s with
  | positive => rfl
  | negative => exact held_neg v

theorem held_eq_self {v : ℚ} (h : |held v| < 2 ^ 1024) : held v = v := by
  obtain ⟨hlow, hhigh⟩ := abs_lt.mp h
  unfold held at *
  generalize (2 : ℚ) ^ 1024 = limit at *
  simp only [max_def, min_def] at *
  split_ifs at * <;> linarith

theorem held_of_abs_lt {v : ℚ} (h : |v| < 2 ^ 1024) : held v = v := by
  obtain ⟨hlow, hhigh⟩ := abs_lt.mp h
  rw [held, min_eq_left hhigh.le, max_eq_right hlow.le]

theorem held_of_nonneg {v : ℚ} (hv : 0 ≤ v) : held v = min v (2 ^ 1024) :=
  max_eq_right ((neg_nonpos.mpr (by positivity)).trans (le_min hv (by positivity)))

/-- A number with a sign, rounded, has the sign. -/
theorem Rounds.of_withSign {q v : ℚ} {x : Float} {s : Sign} (hnan : Scalar.isNaN x = false)
    (h : RoundsTo q v) (hv : 0 ≤ v) (hx : number x = withSign s (min v (2 ^ 1024))) :
    Rounds (withSign s q) x := by
  refine ⟨hnan, withSign s v, ?_, ?_⟩
  · exact h.withSign s
  · rw [hx, ← held_of_nonneg hv, held_withSign]

/-! ## The rounding of the float model -/

variable {m a : ℕ} {e t : ℤ} {q : ℚ}

/-- A mantissa with an exponent too great for doubles is packed as infinity. -/
theorem unpack_pack_of_lt (s : Sign) (hm : 0 < m) (he : 971 < e) :
    (Float.Model.pack (.finite s m e hm)).unpack = .infinity s := by
  have hpack : UnpackedFloat.pack Format.binary64 (.finite s m e hm) = packedInfinity _ s := by
    refine if_pos ?_
    have hbias : Format.binary64.exponentBias = 1023 := rfl
    show 2 ^ 11 ≤ (e + Format.binary64.exponentBias + (52 : ℕ)).toNat + 1
    rw [hbias]
    omega
  show UnpackedFloat.unpack _ (UnpackedFloat.pack _ _) = _
  rw [hpack]
  cases s <;> rfl

theorem number_pack (s : Sign) (hc : Canonical m e) :
    number (.ofModel (.pack (.finite s m e hc.pos))) = withSign s (min (m * 2 ^ e) (2 ^ 1024)) := by
  show numberOf (Float.Model.pack _).unpack = _
  obtain he | he := le_or_gt e 971
  · rw [unpack_pack s hc he, min_eq_left (hc.value_lt_limit he).le]
    rfl
  · have hlimit : (2 : ℚ) ^ (1024 : ℤ) ≤ m * 2 ^ e :=
      (zpow_le_zpow_right₀ one_le_two (by omega)).trans (hc.le_value (by omega))
    rw [unpack_pack_of_lt s hc.pos he, min_eq_right (by exact_mod_cast hlimit)]
    rfl

theorem number_pack_zero (s : Sign) : number (.ofModel (.pack (.zero s))) = 0 := by
  cases s <;> rfl

/-- What the model rounds a mantissa with residual bits to, as a number. -/
theorem rounds_roundWithAccuracy {accuracy : Accuracy} (s : Sign) (hq : 0 ≤ q)
    (ha : 2 ^ 52 ≤ a ∨ t ≤ -1074) (hstands : StandsAt (q / 2 ^ t) (.ofMantissaAndAccuracy a accuracy)) :
    Rounds (withSign s q) (.ofModel (.pack (roundWithAccuracy Format.binary64 s a t accuracy))) := by
  have hpos : (0 : ℚ) < 2 ^ t := by positivity
  obtain ⟨u, hu⟩ : ∃ u, max ((a.log2 : ℤ) + t - 52) (-1074) = u := ⟨_, rfl⟩
  obtain ⟨hfloor, hceil⟩ := hstands.floor
  rw [mantissa_ofMantissaAndAccuracy] at hfloor hceil
  obtain ⟨hleast, hmost⟩ := log2_bounds ((le_div_iff₀ hpos).mp hfloor) ((div_lt_iff₀ hpos).mp hceil)
  have hstep : StepOf u q := by
    refine ⟨by omega, hmost.trans_le (zpow_le_zpow_right₀ one_le_two (by omega)), ?_⟩
    refine or_iff_not_imp_left.mpr fun hne => ?_
    refine (zpow_le_zpow_right₀ one_le_two (by omega)).trans (hleast ?_)
    rintro rfl
    have : (0 : ℕ).log2 = 0 := rfl
    omega
  obtain ⟨n, hrounded⟩ : ∃ n, (ExtendedMantissa.ofMantissaAndAccuracy a accuracy >>>
      (u - t).toNat).roundedMantissa = n := ⟨_, rfl⟩
  have hn : NearestInt n (q / 2 ^ u) := by
    rw [← hrounded]
    exact (hstands.shifted ha hu).nearestInt
  have hv : RoundsTo q (n * 2 ^ u) := ⟨n, u, by rwa [abs_of_nonneg hq], hn, rfl⟩
  have hnan : Scalar.isNaN (.ofModel (.pack (roundWithAccuracy Format.binary64 s a t accuracy))) = false := by
    rw [isNaN_ofModel_pack]
    exact isNaN_roundWithAccuracy ..
  refine .of_withSign hnan hv (by positivity) ?_
  rw [roundWithAccuracy_shifted s ha hu, hrounded]
  have hlimit : (0 : ℚ) ≤ 2 ^ 1024 := by positivity
  -- the rounded mantissa may be zero, that of a double, or have one digit too many
  have hmost : (n : ℤ) ≤ 2 ^ 53 :=
    (le_abs_self _).trans (hn.abs_le_of_step (by rwa [abs_of_nonneg hq]))
  obtain hlt | rfl : n < 2 ^ 53 ∨ n = 2 ^ 53 := by omega
  · rw [shiftToTargetExponent_of_lt hlt hstep.least]
    obtain rfl | hpos := Nat.eq_zero_or_pos n
    · rw [Nat.cast_zero, zero_mul, min_eq_left hlimit]
      refine (number_pack_zero s).trans ?_
      cases s <;> simp [withSign]
    · have hdigits : 2 ^ 52 ≤ n ∨ u = -1074 :=
        hstep.digits.symm.imp_left fun hdigits => by exact_mod_cast hn.le_of_step hdigits
      have hc : Canonical n u := ⟨hpos, hlt, hstep.least, hdigits⟩
      exact (congrArg (fun d => number (.ofModel (.pack d))) (dif_neg hpos.ne')).trans (number_pack s hc)
  · have hleast := hstep.least
    have hc : Canonical (2 ^ 52) (u + 1) := ⟨by norm_num, by norm_num, by omega, .inl le_rfl⟩
    have hcarry : shiftToTargetExponent Format.binary64 (2 ^ 53) u .exact =
        (⟨2 ^ 52, false, false⟩, u + 1) := by
      rw [shiftToTargetExponent_eq (2 ^ 53) u .exact (t := u + 1) (by
        rw [Nat.log2_two_pow]
        omega) (by omega), add_sub_cancel_left]
      rfl
    have hvalue : ((2 ^ 53 : ℕ) : ℚ) * 2 ^ u = ((2 ^ 52 : ℕ) : ℚ) * 2 ^ (u + 1) := by
      rw [zpow_add_one₀ two_ne_zero]
      push_cast
      ring
    rw [hcarry, hvalue]
    exact number_pack s hc

/-! ## Finite results -/

namespace Rounds

variable {q q' : ℚ} {x y : Float}

theorem zero (s : Sign) : Rounds 0 (.ofModel (.pack (.zero s))) := by
  refine ⟨?_, 0, .zero, ?_⟩
  · rw [isNaN_ofModel_pack]
    rfl
  · rw [number_pack_zero, held_of_nonneg le_rfl, min_eq_left (by positivity)]

/-- Rounding to doubles keeps the order. -/
theorem mono (h : Rounds q x) (h' : Rounds q' y) (hq : q ≤ q') : number x ≤ number y := by
  obtain ⟨v, hv, hx⟩ := h.rounded
  obtain ⟨v', hv', hy⟩ := h'.rounded
  rw [hx, hy]
  exact held_mono (hv.mono hv' hq)

/-- The numbers of two doubles add up to the side that the rounded numbers do. -/
theorem withSign_add_nonpos (h : Rounds q x) (h' : Rounds q' y) {s : Sign}
    (hq : withSign s q + withSign s q' ≤ 0) : withSign s (number x) + withSign s (number y) ≤ 0 := by
  obtain ⟨v, hv, hx⟩ := h.rounded
  obtain ⟨v', hv', hy⟩ := h'.rounded
  rw [← le_neg_iff_add_nonpos_right] at hq ⊢
  rw [hx, hy, ← held_withSign, ← held_withSign, ← held_neg]
  exact held_mono ((hv.withSign s).mono (hv'.withSign s).neg hq)

/-- A double is on the side of the number that was rounded. -/
theorem withSign_nonpos (h : Rounds q x) {s : Sign} (hq : withSign s q ≤ 0) :
    withSign s (number x) ≤ 0 := by
  have hsum := h.withSign_add_nonpos (zero .positive) (by
    rw [withSign_zero, add_zero]
    exact hq)
  rwa [number_pack_zero, withSign_zero, add_zero] at hsum

/-- A finite double is rounded to without a limit. -/
theorem roundsTo (h : Rounds q x) (hx : isFinite x = true) : RoundsTo q (number x) := by
  obtain ⟨v, hv, hnumber⟩ := h.rounded
  have hlt := (isFinite_iff_number h.isNaN).mp hx
  rw [hnumber] at hlt
  rwa [hnumber, held_eq_self hlt]

/-- The rounding error of a finite result is relative, unless the exact one is smaller than a step. -/
theorem error_le (h : Rounds q x) (hx : isFinite x = true) (hq : WholeSteps q) :
    |number x - q| ≤ 2 ^ (-53 : ℤ) * |q| := (h.roundsTo hx).error_le hq

/-- A finite double is its number, rounded. -/
theorem self (hx : isFinite x = true) : Rounds (number x) x := by
  obtain ⟨s, hunpack⟩ | ⟨s, m, e, hc, he, hunpack⟩ := unpack_of_isFinite hx
  · have hzero := zero s
    rw [← hunpack, pack_unpack] at hzero
    rwa [number, hunpack]
  · have hnumber : number x = withSign s (m * 2 ^ e) := by rw [number, hunpack, numberOf_finite]
    rw [hnumber]
    refine .of_withSign (isNaN_of_isFinite hx) (.of_canonical hc) hc.value_pos.le ?_
    rw [hnumber, min_eq_left (hc.value_lt_limit he).le]

/-- What is rounded from a number no greater than a double is no greater than it. -/
theorem isFinite_of_abs_le (h : Rounds q x) {w : ℚ} (hw : RoundsTo w w) (hlimit : w < 2 ^ 1024) (hq : |q| ≤ w) :
    isFinite x = true ∧ |number x| ≤ w := by
  obtain ⟨v, hv, hx⟩ := h.rounded
  obtain ⟨hlow, hhigh⟩ := abs_le.mp hq
  have habs : |v| ≤ w := abs_le.mpr ⟨hw.neg.mono hv hlow, hv.mono hw hhigh⟩
  rw [isFinite_iff_number h.isNaN, hx, held_of_abs_lt (habs.trans_lt hlimit)]
  exact ⟨habs.trans_lt hlimit, habs⟩

end Rounds

end Scalar
end FeatureSynth
