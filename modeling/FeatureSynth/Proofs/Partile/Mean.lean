/-
# Readable bounds between two values

The limits of a bound are two weighted means, rounded on their own and each held on
its own side.  They are in order unless the two values are within `2 ^ -48` of their
size (`FarApart`): then the rounding errors of the two means are smaller than the
distance between them.  A mean beyond the doubles leaves the limits in order or sends
the middle to infinity, because only one of the two can overflow on a side
(`limits_in_order`).

So between values far apart there is a bound, and a bound is never below the lower
value and always below the upper one, which needs that it is a number: the powers of
ten that its digits are multiplied by are finite.
-/
import FeatureSynth.Proofs.Scalar.Arithmetic
import FeatureSynth.Partile.Interval

namespace FeatureSynth

namespace Scalar

variable {x y : Float}

/-! ## Greater and lesser doubles -/

theorem maximum_eq (hy : isNaN y = false) :
    maximum x y = y ∨ maximum x y = x ∧ isNaN x = false ∧ number y ≤ number x := by
  unfold maximum
  cases hx : isNaN x with
  | true => exact .inl rfl
  | false =>
    rw [if_neg Bool.false_ne_true, hy, if_neg Bool.false_ne_true]
    by_cases hlt : x < y
    · exact .inl (if_pos hlt)
    · rw [lt_iff_number hx hy, not_lt] at hlt
      exact .inr ⟨if_neg (by rwa [lt_iff_number hx hy, not_lt]), rfl, hlt⟩

theorem minimum_eq (hy : isNaN y = false) :
    minimum x y = y ∨ minimum x y = x ∧ isNaN x = false ∧ number x ≤ number y := by
  unfold minimum
  cases hx : isNaN x with
  | true => exact .inl rfl
  | false =>
    rw [if_neg Bool.false_ne_true, hy, if_neg Bool.false_ne_true]
    by_cases hlt : y < x
    · exact .inl (if_pos hlt)
    · rw [lt_iff_number hy hx, not_lt] at hlt
      exact .inr ⟨if_neg (by rwa [lt_iff_number hy hx, not_lt]), rfl, hlt⟩

/-! ## Whole constants -/

/-- A double is a whole number. -/
structure Reads (x : Float) (n : ℕ) : Prop where
  finite : isFinite x = true
  number : Scalar.number x = n

theorem reads_of_decode {n k : ℕ} (h : decode x = .finite false (n * 2 ^ k) (-k)) : Reads x n := by
  refine ⟨?_, ?_⟩
  · rw [isFinite, h]
  · rw [number_of_decode h]
    show ((n * 2 ^ k : ℕ) : ℚ) * 2 ^ (-(k : ℤ)) = n
    push_cast
    rw [zpow_neg, zpow_natCast, mul_assoc, mul_inv_cancel₀ (by positivity), mul_one]

theorem reads_one : Reads 1 1 := reads_of_decode (k := 52) (by decide +kernel)

theorem reads_two : Reads 2 2 := reads_of_decode (k := 51) (by decide +kernel)

theorem reads_nine : Reads 9 9 := reads_of_decode (k := 49) (by decide +kernel)

theorem reads_ten : Reads 10 10 := reads_of_decode (k := 49) (by decide +kernel)

theorem reads_eleven : Reads 11 11 := reads_of_decode (k := 49) (by decide +kernel)

theorem reads_twenty : Reads 20 20 := reads_of_decode (k := 48) (by decide +kernel)

end Scalar

namespace Partile

open Scalar

/-! ## Weighted means -/

section Weighted

variable {c d x y : Float} {p q : ℕ} {size : ℚ}

/-- Two weights of a mean of twenty parts. -/
structure Weights (c d : Float) (p q : ℕ) : Prop where
  left : Reads c p
  right : Reads d q
  sum : p + q = 20

theorem lowWeights : Weights 11 9 11 9 := ⟨reads_eleven, reads_nine, rfl⟩

theorem highWeights : Weights 9 11 9 11 := ⟨reads_nine, reads_eleven, rfl⟩

theorem Weights.rounds_left (h : Weights c d p q) (hx : isFinite x = true) :
    Rounds (p * number x) (c * x) := by
  rw [← h.left.number]
  exact rounds_mul h.left.finite hx

theorem Weights.rounds_right (h : Weights c d p q) (hy : isFinite y = true) :
    Rounds (q * number y) (d * y) := by
  rw [← h.right.number]
  exact rounds_mul h.right.finite hy

variable (h : Weights c d p q) (hx : isFinite x = true) (hy : isFinite y = true)
  (hxsize : |number x| ≤ size) (hysize : |number y| ≤ size)
include h hx hy hxsize hysize

/-- The products of a weighted sum are off by no more than one part in `2 ^ 53` each. -/
theorem Weights.products_near (hc : isFinite (c * x) = true) (hd : isFinite (d * y) = true) :
    |number (c * x) + number (d * y) - (p * number x + q * number y)| ≤ 2 ^ (-53 : ℤ) * (20 * size) := by
  have hleft := (h.rounds_left hx).error_le hc ((wholeSteps_number hx).natCast_mul p)
  have hright := (h.rounds_right hy).error_le hd ((wholeSteps_number hy).natCast_mul q)
  rw [abs_mul, Nat.abs_cast] at hleft hright
  have hsum : (p : ℚ) + q = 20 := by exact_mod_cast h.sum
  calc |number (c * x) + number (d * y) - (p * number x + q * number y)|
      = |(number (c * x) - p * number x) + (number (d * y) - q * number y)| := by ring_nf
    _ ≤ |number (c * x) - p * number x| + |number (d * y) - q * number y| := abs_add_le _ _
    _ ≤ 2 ^ (-53 : ℤ) * (p * size) + 2 ^ (-53 : ℤ) * (q * size) := by
        refine add_le_add (hleft.trans ?_) (hright.trans ?_) <;> gcongr
    _ = 2 ^ (-53 : ℤ) * (20 * size) := by rw [← hsum]; ring

/-- The rounded sum of the products is off by hardly more than twice that. -/
theorem Weights.sum_near (hsum : isFinite (c * x + d * y) = true) :
    |number (c * x + d * y) - (p * number x + q * number y)| ≤ 2 ^ (-53 : ℤ) * (41 * size) := by
  obtain ⟨hc, hd⟩ := isFinite_of_add hsum
  have hproducts := h.products_near hx hy hxsize hysize hc hd
  have hrounded := (rounds_add hc hd).error_le hsum ((wholeSteps_number hc).add (wholeSteps_number hd))
  have hpq : (p : ℚ) + q = 20 := by exact_mod_cast h.sum
  have hexact : |(p : ℚ) * number x + q * number y| ≤ 20 * size := by
    calc |(p : ℚ) * number x + q * number y| ≤ |p * number x| + |q * number y| := abs_add_le _ _
      _ = p * |number x| + q * |number y| := by rw [abs_mul, abs_mul, Nat.abs_cast, Nat.abs_cast]
      _ ≤ p * size + q * size := by gcongr
      _ = 20 * size := by rw [← hpq]; ring
  generalize number (c * x) + number (d * y) = products at hproducts hrounded
  have hsize : |products| ≤ 20 * size + 2 ^ (-53 : ℤ) * (20 * size) := by
    have := abs_sub_abs_le_abs_sub products (p * number x + q * number y)
    linarith
  have hsize0 : 0 ≤ size := (abs_nonneg _).trans hxsize
  calc |number (c * x + d * y) - (p * number x + q * number y)|
      ≤ |number (c * x + d * y) - products| + |products - (p * number x + q * number y)| :=
        abs_sub_le _ _ _
    _ ≤ 2 ^ (-53 : ℤ) * (20 * size + 2 ^ (-53 : ℤ) * (20 * size)) + 2 ^ (-53 : ℤ) * (20 * size) := by
        refine add_le_add (hrounded.trans ?_) hproducts
        gcongr
    _ ≤ 2 ^ (-53 : ℤ) * (41 * size) := by
        norm_num
        linarith

end Weighted

/-! ## The limits of a bound -/

/-- The rounding errors of weighted means of two doubles are smaller than the distance between them. -/
def FarApart (x y : Float) : Prop :=
  isFinite x = true → isFinite y = true →
    2 ^ (-48 : ℤ) * max |number x| |number y| < |number x - number y|

theorem FarApart.symm {x y : Float} (h : FarApart x y) : FarApart y x := fun hy hx => by
  rw [max_comm, abs_sub_comm]
  exact h hx hy

/-- A mean of twenty parts. -/
def weightedMean (c d x y : Float) : Float := (c * x + d * y) / 20

theorem lowMean_eq (x y : Float) : lowMean x y = maximum (weightedMean 11 9 x y) x := rfl

theorem highMean_eq (x y : Float) : highMean x y = minimum (weightedMean 9 11 x y) y := rfl

section Limits

variable {c d x y : Float} {p q : ℕ} (hx : isFinite x = true) (hy : isFinite y = true)

theorem number_twenty_pos : 0 < number 20 := by
  rw [reads_twenty.number]
  norm_num

theorem rounds_div_twenty (hx : isFinite x = true) : Rounds (number x / 20) (x / 20) := by
  have hdiv := rounds_div hx reads_twenty.finite number_twenty_pos.ne'
  rwa [reads_twenty.number] at hdiv

theorem isInfinite_half {σ : Float.Model.UnpackedFloat.Sign} (h : x.toModel.unpack = .infinity σ) :
    isInfinite (x / 2) = true := by
  have hpos : 0 < number 2 := by
    rw [reads_two.number]
    norm_num
  rw [← isInfinite_unpack, infinity_div h reads_two.finite hpos]
  rfl

theorem isFinite_sum (h : isFinite (weightedMean c d x y) = true) : isFinite (c * x + d * y) = true :=
  isFinite_of_div h reads_twenty.finite

include hx hy

/-- A mean overflows only to the side of its exact sum. -/
theorem Weights.sum_of_overflow {σ : Float.Model.UnpackedFloat.Sign} (h : Weights c d p q)
    (hmean : (weightedMean c d x y).toModel.unpack = .infinity σ) :
    0 < withSign σ (p * number x + q * number y) := by
  by_contra hle
  refine add_ne_infinity (h.rounds_left hx) (h.rounds_right hy) (not_lt.mp hle) ?_
  refine infinity_of_div hmean reads_twenty.finite ?_
  rw [reads_twenty.number]
  norm_num

variable (hxy : number x ≤ number y) (hfar : FarApart x y)
include hxy hfar

/-- Of two values far apart, the size is a bound on the error of a mean. -/
theorem FarApart.size : ∃ size, |number x| ≤ size ∧ |number y| ≤ size ∧
    2 ^ (-48 : ℤ) * size < number y - number x := by
  have hsize := hfar hx hy
  rw [abs_sub_comm, abs_of_nonneg (sub_nonneg.mpr hxy)] at hsize
  exact ⟨_, le_max_left _ _, le_max_right _ _, hsize⟩

theorem weightedMean_le (hlow : isFinite (weightedMean 11 9 x y) = true) :
    number (weightedMean 11 9 x y) ≤ number y := by
  obtain ⟨size, hxsize, hysize, hsize⟩ := FarApart.size hx hy hxy hfar
  have hsum := isFinite_sum hlow
  have hnear := (abs_le.mp (lowWeights.sum_near hx hy hxsize hysize hsum)).2
  refine (rounds_div_twenty hsum).mono (.self hy) ?_
  norm_num at hnear hsize
  linarith

theorem le_weightedMean (hhigh : isFinite (weightedMean 9 11 x y) = true) :
    number x ≤ number (weightedMean 9 11 x y) := by
  obtain ⟨size, hxsize, hysize, hsize⟩ := FarApart.size hx hy hxy hfar
  have hsum := isFinite_sum hhigh
  have hnear := (abs_le.mp (highWeights.sum_near hx hy hxsize hysize hsum)).1
  refine Rounds.mono (.self hx) (rounds_div_twenty hsum) ?_
  norm_num at hnear hsize
  linarith

theorem weightedMean_le_weightedMean (hlow : isFinite (weightedMean 11 9 x y) = true)
    (hhigh : isFinite (weightedMean 9 11 x y) = true) :
    number (weightedMean 11 9 x y) ≤ number (weightedMean 9 11 x y) := by
  obtain ⟨size, hxsize, hysize, hsize⟩ := FarApart.size hx hy hxy hfar
  have hlowSum := isFinite_sum hlow
  have hhighSum := isFinite_sum hhigh
  obtain ⟨ha, hb⟩ := isFinite_of_add hlowSum
  obtain ⟨hc, hd⟩ := isFinite_of_add hhighSum
  have hlowNear := (abs_le.mp (lowWeights.products_near hx hy hxsize hysize ha hb)).2
  have hhighNear := (abs_le.mp (highWeights.products_near hx hy hxsize hysize hc hd)).1
  have hsums : number (11 * x + 9 * y) ≤ number (9 * x + 11 * y) := by
    refine (rounds_add ha hb).mono (rounds_add hc hd) ?_
    norm_num at hlowNear hhighNear hsize
    linarith
  exact (rounds_div_twenty hlowSum).mono (rounds_div_twenty hhighSum) (by gcongr)

omit hy hxy hfar in
/-- The lower limit is the lower value or a finite mean, or the mean has overflowed upwards. -/
theorem lowMean_cases (y : Float) :
    isFinite (lowMean x y) = true ∧ (lowMean x y = x ∨ lowMean x y = weightedMean 11 9 x y) ∨
      lowMean x y = weightedMean 11 9 x y ∧
        (weightedMean 11 9 x y).toModel.unpack = .infinity .positive := by
  have hlimit := (isFinite_iff_number (isNaN_of_isFinite hx)).mp hx
  rw [lowMean_eq]
  obtain heq | ⟨heq, hnan, hle⟩ := maximum_eq (x := weightedMean 11 9 x y) (isNaN_of_isFinite hx)
  · rw [heq]
    exact .inl ⟨hx, .inl rfl⟩
  rw [heq]
  obtain hfinite | ⟨σ, hinfinity⟩ := isFinite_or_infinity hnan
  · exact .inl ⟨hfinite, .inr rfl⟩
  cases σ with
  | positive => exact .inr ⟨rfl, hinfinity⟩
  | negative =>
    rw [(unpack_infinity_iff hnan _).mp hinfinity] at hle
    exact absurd (abs_lt.mp hlimit).1 (not_lt.mpr hle)

omit hx hxy hfar in
/-- The upper limit is the upper value or a finite mean, or the mean has overflowed downwards. -/
theorem highMean_cases (x : Float) :
    isFinite (highMean x y) = true ∧ (highMean x y = y ∨ highMean x y = weightedMean 9 11 x y) ∨
      highMean x y = weightedMean 9 11 x y ∧
        (weightedMean 9 11 x y).toModel.unpack = .infinity .negative := by
  have hlimit := (isFinite_iff_number (isNaN_of_isFinite hy)).mp hy
  rw [highMean_eq]
  obtain heq | ⟨heq, hnan, hle⟩ := minimum_eq (x := weightedMean 9 11 x y) (isNaN_of_isFinite hy)
  · rw [heq]
    exact .inl ⟨hy, .inl rfl⟩
  rw [heq]
  obtain hfinite | ⟨σ, hinfinity⟩ := isFinite_or_infinity hnan
  · exact .inl ⟨hfinite, .inr rfl⟩
  cases σ with
  | negative => exact .inr ⟨rfl, hinfinity⟩
  | positive =>
    rw [(unpack_infinity_iff hnan _).mp hinfinity] at hle
    exact absurd (abs_lt.mp hlimit).2 (not_lt.mpr hle)

/-- The limits of a bound are in order, or the middle of them is infinite. -/
theorem limits_in_order : isInfinite ((lowMean x y + highMean x y) / 2) = true ∨
    lowMean x y ≤ highMean x y := by
  obtain ⟨hlow, hl⟩ | ⟨hl, hup⟩ := lowMean_cases hx y
  all_goals obtain ⟨hhigh, hh⟩ | ⟨hh, hdown⟩ := highMean_cases hy x
  case inl.inl =>
    refine .inr ?_
    rw [le_iff_number (isNaN_of_isFinite hlow) (isNaN_of_isFinite hhigh)]
    obtain hl | hl := hl
    all_goals
      obtain hh | hh := hh
      all_goals rw [hl] at hlow ⊢; rw [hh] at hhigh ⊢
    · exact hxy
    · exact le_weightedMean hx hy hxy hfar hhigh
    · exact weightedMean_le hx hy hxy hfar hlow
    · exact weightedMean_le_weightedMean hx hy hxy hfar hlow hhigh
  case inl.inr =>
    rw [hh]
    refine .inl (isInfinite_half (add_infinity hdown (isNaN_of_isFinite hlow) fun h => ?_).2)
    rw [isFinite_of_unpack_infinity h] at hlow
    cases hlow
  case inr.inl =>
    rw [hl]
    refine .inl (isInfinite_half (add_infinity hup (isNaN_of_isFinite hhigh) fun h => ?_).1)
    rw [isFinite_of_unpack_infinity h] at hhigh
    cases hhigh
  case inr.inr =>
    -- the weighted sums are in the order of the values, so not both overflow
    have hpos := lowWeights.sum_of_overflow hx hy hup
    have hneg := highWeights.sum_of_overflow hx hy hdown
    simp only [withSign, Nat.cast_ofNat] at hpos hneg
    linarith

end Limits

/-! ## Bounds of values far apart -/

/-- There is a middle unless the limits are in the wrong order. -/
theorem exists_middle_of_limits {lower upper : Float}
    (h : isInfinite ((lower + upper) / 2) = true ∨ lower ≤ upper) :
    ∃ mean, readableMiddle? lower upper = some mean := by
  unfold readableMiddle? middleAt? clamp?
  dsimp only
  split
  · exact ⟨_, rfl⟩
  · rename_i hinfinite
    rw [if_pos (h.resolve_left hinfinite)]
    split
    · exact ⟨_, rfl⟩
    · split
      · exact ⟨_, rfl⟩
      · split <;> exact ⟨_, rfl⟩

/-- Above an infinite value there is no limit, and the middle is infinite. -/
theorem isInfinite_middle {x y : Float} (hx : isNaN x = false)
    (hmissing : x.toModel.unpack ≠ .infinity .negative) (hy : y.toModel.unpack = .infinity .positive) :
    isInfinite ((lowMean x y + highMean x y) / 2) = true := by
  have hnan := isNaN_of_unpack_infinity hy
  have hhigh : (highMean x y).toModel.unpack = .infinity .positive := by
    rw [highMean_eq]
    obtain heq | ⟨heq, hmean, -⟩ := minimum_eq (x := weightedMean 9 11 x y) hnan
    · rwa [heq]
    · rw [heq]
      have hterm := infinity_mul hy reads_eleven.finite (by
        rw [reads_eleven.number]
        norm_num)
      exact infinity_div (infinity_of_isNaN_add hterm (isNaN_of_div hmean)) reads_twenty.finite
        number_twenty_pos
  have hlow : isNaN (lowMean x y) = false ∧
      (lowMean x y).toModel.unpack ≠ .infinity .negative := by
    rw [lowMean_eq]
    obtain heq | ⟨heq, hmean, hle⟩ := maximum_eq (x := weightedMean 11 9 x y) hx
    · rw [heq]
      exact ⟨hx, hmissing⟩
    · rw [heq]
      refine ⟨hmean, fun hinfinity => hmissing ?_⟩
      rw [unpack_infinity_iff hmean] at hinfinity
      rw [unpack_infinity_iff hx]
      exact le_antisymm (hle.trans_eq hinfinity) (abs_le.mp (abs_number_le x)).1
  exact isInfinite_half (add_infinity hhigh hlow.1 hlow.2).2

/-- Between two values far apart, the second not the lower one and the first not missing, there is a
middle. -/
theorem exists_readableMiddle {x y : Float} (hx : isNaN x = false) (hy : isNaN y = false)
    (hmissing : x.toModel.unpack ≠ .infinity .negative) (hxy : number x ≤ number y)
    (hfar : FarApart x y) : ∃ mean, readableMiddle? (lowMean x y) (highMean x y) = some mean := by
  refine exists_middle_of_limits ?_
  obtain hyfinite | ⟨σ, hinfinity⟩ := isFinite_or_infinity hy
  · have hlimit := (abs_lt.mp ((isFinite_iff_number hy).mp hyfinite)).2
    obtain hxfinite | ⟨τ, hinfinity⟩ := isFinite_or_infinity hx
    · exact limits_in_order hxfinite hyfinite hxy hfar
    · cases τ with
      | negative => exact absurd hinfinity hmissing
      | positive =>
        rw [(unpack_infinity_iff hx _).mp hinfinity] at hxy
        exact absurd hlimit (not_lt.mpr hxy)
  · cases σ with
    | positive => exact .inl (isInfinite_middle hx hmissing hinfinity)
    | negative =>
      rw [(unpack_infinity_iff hy _).mp hinfinity] at hxy
      refine absurd ((unpack_infinity_iff hx _).mpr ?_) hmissing
      exact le_antisymm hxy (abs_le.mp (abs_number_le x)).1

/-- Between two values far apart there is a bound. -/
theorem exists_readableMean {a b : Float} (ha : isNaN a = false) (hb : isNaN b = false)
    (hfar : FarApart a b) : ∃ v, readableMean? a b = some v := by
  unfold readableMean?
  split
  · exact ⟨_, rfl⟩
  · rename_i hpresent
    rw [Bool.or_eq_true, not_or] at hpresent
    have hapresent := mt beq_missing hpresent.1
    have hbpresent := mt beq_missing hpresent.2
    have hmean : ∃ mean, readableMiddle? (lowMean (if a ≤ b then a else b) (if a ≤ b then b else a))
        (highMean (if a ≤ b then a else b) (if a ≤ b then b else a)) = some mean := by
      by_cases hab : a ≤ b
      · rw [if_pos hab, if_pos hab]
        exact exists_readableMiddle ha hb hapresent ((le_iff_number ha hb).mp hab) hfar
      · rw [if_neg hab, if_neg hab]
        rw [le_iff_number ha hb, not_le] at hab
        exact exists_readableMiddle hb ha hbpresent hab.le hfar.symm
    obtain ⟨mean, hmean⟩ := hmean
    dsimp only
    rw [hmean]
    exact ⟨_, rfl⟩

/-! ## Powers of ten -/

/-- A double is a number from one to a power of two. -/
structure UpTo (x : Float) (k : ℕ) : Prop where
  finite : isFinite x = true
  one_le : 1 ≤ number x
  le : number x ≤ 2 ^ k

section Powers

variable {a r : Float} {i j : ℕ}

theorem UpTo.mul (ha : UpTo a i) (hr : UpTo r j) (hlimit : i + j < 1024) : UpTo (a * r) (i + j) := by
  have hrounds := rounds_mul ha.finite hr.finite
  have hone : 1 ≤ number a * number r := one_le_mul_of_one_le_of_one_le ha.one_le hr.one_le
  have hle : |number a * number r| ≤ 2 ^ ((i + j : ℕ) : ℤ) := by
    rw [abs_of_pos (one_pos.trans_le hone), zpow_natCast, pow_add]
    exact mul_le_mul ha.le hr.le (zero_le_one.trans hr.one_le) (by positivity)
  obtain ⟨hfinite, hmost⟩ :=
    hrounds.isFinite_of_abs_le (.two_zpow (by omega)) (two_zpow_lt_limit (by omega)) hle
  refine ⟨hfinite, ?_, (le_abs_self _).trans (hmost.trans_eq (zpow_natCast ..))⟩
  have hleast := (RoundsTo.two_zpow (k := 0) (by norm_num)).mono (hrounds.roundsTo hfinite) (by
    rwa [zpow_zero])
  rwa [zpow_zero] at hleast

/-- A power by squaring stays below the power of two that its factors allow. -/
theorem UpTo.powerFrom {n : ℕ} (ha : UpTo a i) (hr : UpTo r j) (hlimit : i * n + j < 1024) :
    UpTo (Scalar.powerFrom a r n) (i * n + j) := by
  induction n using Nat.strong_induction_on generalizing a r i j with
  | _ n ih =>
    have hsplit : i * n = (i + i) * (n / 2) + i * (n % 2) := by
      conv_lhs => rw [← Nat.div_add_mod n 2]
      ring
    have hfactor : UpTo (if n % 2 = 1 then r * a else r) (j + i * (n % 2)) := by
      obtain hbit | hbit := Nat.mod_two_eq_zero_or_one n
      · rw [hbit, if_neg (by decide), mul_zero, add_zero]
        exact hr
      · rw [hbit, mul_one] at hsplit ⊢
        rw [if_pos rfl]
        exact hr.mul ha (by omega)
    have hexponent : (i + i) * (n / 2) + (j + i * (n % 2)) = i * n + j := by omega
    unfold Scalar.powerFrom
    dsimp only
    by_cases hlast : n / 2 = 0
    · rw [if_pos hlast]
      rwa [← hexponent, hlast, mul_zero, zero_add]
    · rw [if_neg hlast, ← hexponent]
      have hsquare : i + i ≤ (i + i) * (n / 2) := Nat.le_mul_of_pos_right _ (Nat.pos_of_ne_zero hlast)
      exact ih (n / 2) (by omega) (ha.mul ha (by omega)) hfactor (by omega)

theorem upTo_ten : UpTo 10 4 := by
  refine ⟨reads_ten.finite, ?_, ?_⟩ <;>
    · rw [reads_ten.number]
      norm_num

theorem upTo_one : UpTo 1 0 := by
  refine ⟨reads_one.finite, ?_, ?_⟩ <;>
    · rw [reads_one.number]
      norm_num

/-- The powers of ten that bounds are made with are finite. -/
theorem isFinite_power_ten {e : ℤ} (he : e.natAbs ≤ 200) : isFinite (power 10 e) = true := by
  have hpower := upTo_ten.powerFrom upTo_one (n := e.natAbs) (by omega)
  unfold power
  dsimp only
  split
  · have hpos : 0 < number (Scalar.powerFrom 10 1 e.natAbs) := one_pos.trans_le hpower.one_le
    refine ((rounds_div reads_one.finite hpower.finite hpos.ne').isFinite_of_abs_le
      (.two_zpow (k := 0) (by norm_num)) (two_zpow_lt_limit (by norm_num)) ?_).1
    rw [reads_one.number, abs_div, abs_of_pos hpos, div_le_iff₀ hpos, Nat.abs_cast, zpow_zero, one_mul]
    exact_mod_cast hpower.one_le
  · exact hpower.finite

theorem isNaN_scaled (mantissa : ℕ) {e : ℤ} (he : e.natAbs ≤ 200) :
    isNaN (scaled mantissa e) = false :=
  (rounds_mul (isFinite_ofUInt64 _) (isFinite_power_ten he)).isNaN

/-- What is left after dropping digits is a number. -/
theorem isNaN_shorten {target delta kept : Float} {fuel mantissa : ℕ} {e : ℤ}
    (hkept : isNaN kept = false) (hleast : -200 ≤ e) (hmost : e + fuel ≤ 200) :
    isNaN (shorten target delta fuel mantissa e kept) = false := by
  induction fuel generalizing mantissa e kept with
  | zero => exact hkept
  | succ fuel ih =>
    unfold shorten
    dsimp only
    split
    · exact ih (isNaN_scaled mantissa (by omega)) (by omega) (by omega)
    · exact hkept

theorem isNaN_rounded (middle delta : Float) {magnitude : ℤ} (hleast : -100 ≤ magnitude)
    (hmost : magnitude < 100) : isNaN (rounded middle delta magnitude) = false := by
  unfold rounded meanDigits
  dsimp only
  have hshort (mantissa : ℕ) : isNaN (shorten middle.abs delta (200 - (magnitude - 10 + 1)).toNat
      mantissa (magnitude - 10 + 1) (scaled mantissa (magnitude - 10 + 1))) = false :=
    isNaN_shorten (isNaN_scaled mantissa (by omega)) (by omega) (by omega)
  split
  · rw [isNaN_neg]
    exact hshort _
  · exact hshort _

end Powers

/-! ## Bounds are between the values -/

theorem isNaN_readableMiddle {lower upper mean : Float} (hlower : isNaN lower = false)
    (hupper : isNaN upper = false) (h : readableMiddle? lower upper = some mean) : isNaN mean = false := by
  unfold readableMiddle? middleAt? clamp? at h
  dsimp only at h
  split at h
  · cases h
    exact isNaN_missing
  split at h
  · cases h
    decide +kernel
  split at h
  · cases h
    split
    · rw [isNaN_neg]
      exact isNaN_maxValue
    · exact isNaN_maxValue
  · rename_i hmost
    split at h
    · cases h
      decide +kernel
    · rename_i hleast
      split at h
      · cases h
        split
        · exact hlower
        · split
          · exact hupper
          · exact isNaN_rounded _ _ (by omega) (by omega)
      · cases h

theorem beq_missing_of_isFinite {x : Float} (hx : isFinite x = true) : (x == missing) = false := by
  refine Bool.eq_false_iff.mpr fun h => ?_
  rw [eq_missing_of_beq h] at hx
  exact absurd hx (by decide +kernel)

/-- A bound between two finite values is not below the lower one, and below the upper one. -/
theorem readableMean_between {a b v : Float} (ha : isFinite a = true) (hb : isFinite b = true)
    (hab : a < b) (h : readableMean? a b = some v) : a ≤ v ∧ v < b := by
  have hanan := isNaN_of_isFinite ha
  have hbnan := isNaN_of_isFinite hb
  have hlt := (lt_iff_number hanan hbnan).mp hab
  have hle : a ≤ b := (le_iff_number hanan hbnan).mpr hlt.le
  have hlow : isNaN (lowMean a b) = false := by
    obtain ⟨hfinite, -⟩ | ⟨heq, hinfinity⟩ := lowMean_cases ha b
    · exact isNaN_of_isFinite hfinite
    · rw [heq]
      exact isNaN_of_unpack_infinity hinfinity
  have hhigh : isNaN (highMean a b) = false := by
    obtain ⟨hfinite, -⟩ | ⟨heq, hinfinity⟩ := highMean_cases hb a
    · exact isNaN_of_isFinite hfinite
    · rw [heq]
      exact isNaN_of_unpack_infinity hinfinity
  rw [readableMean?, beq_missing_of_isFinite ha, beq_missing_of_isFinite hb] at h
  dsimp only at h
  rw [Bool.or_false, if_neg Bool.false_ne_true, if_pos hle, if_pos hle] at h
  obtain ⟨mean, hmean, rfl⟩ := Option.map_eq_some_iff.mp h
  have hnan := isNaN_readableMiddle hlow hhigh hmean
  by_cases hends : mean ≤ a ∨ b ≤ mean
  · rw [if_pos (by simpa using hends)]
    exact ⟨(le_iff_number hanan hanan).mpr le_rfl, hab⟩
  · rw [if_neg (by simpa using hends)]
    rw [le_iff_number hnan hanan, le_iff_number hbnan hnan, not_or, not_le, not_le] at hends
    exact ⟨(le_iff_number hanan hnan).mpr hends.1.le, (lt_iff_number hnan hbnan).mpr hends.2⟩

end Partile

end FeatureSynth
