/-
# The order of numbers

Bounds and values are compared as numbers: the two zeros are equal, and NaN is
comparable with nothing.  All other doubles stand in a line.  `Scalar.place` gives
each its place in a linear order, by class, exponent and mantissa, and the three
tests on doubles, `<`, `≤` and `==`, are those on places.  So what is proved of
comparisons of doubles is proved in a linear order.
-/
import Mathlib.Data.Prod.Lex
import Mathlib.Order.Compare
import FeatureSynth.Proofs.Scalar.Fields

namespace FeatureSynth

namespace Scalar

open Float.Model Float.Model.UnpackedFloat

/-! ## Places -/

/-- Places in the line of numbers: the class of a double, then its magnitude. -/
abbrev Place := Int ×ₗ Int ×ₗ Int

/-- The place of an unpacked double; that of NaN means nothing. -/
def placeOf : UnpackedFloat → Place
  | .infinity .negative => toLex (-2, toLex (0, 0))
  | .finite .negative mantissa exponent _ => toLex (-1, toLex (-exponent, -(mantissa : Int)))
  | .zero _ | .notANumber => toLex (0, toLex (0, 0))
  | .finite .positive mantissa exponent _ => toLex (1, toLex (exponent, (mantissa : Int)))
  | .infinity .positive => toLex (2, toLex (0, 0))

/-- The place of a double among the numbers. -/
def place (x : Float) : Place := placeOf x.toModel.unpack

theorem compare_toLex {α β : Type} [LinearOrder α] [LinearOrder β] (a b : α) (c d : β) :
    Ord.compare (toLex (a, c)) (toLex (b, d)) = (Ord.compare a b).then (Ord.compare c d) := by
  rcases lt_trichotomy a b with h | rfl | h
  · rw [compare_lt_iff_lt.mpr h, Ordering.lt_then, compare_lt_iff_lt]
    exact Prod.Lex.toLex_lt_toLex.mpr (.inl h)
  · rw [compare_eq_iff_eq.mpr (rfl : a = a), Ordering.eq_then]
    rcases lt_trichotomy c d with h | rfl | h
    · rw [compare_lt_iff_lt.mpr h, compare_lt_iff_lt]
      exact Prod.Lex.toLex_lt_toLex.mpr (.inr ⟨rfl, h⟩)
    · rw [compare_eq_iff_eq.mpr rfl, compare_eq_iff_eq.mpr rfl]
    · rw [compare_gt_iff_gt.mpr h, compare_gt_iff_gt]
      exact Prod.Lex.toLex_lt_toLex.mpr (.inr ⟨rfl, h⟩)
  · rw [compare_gt_iff_gt.mpr h, Ordering.gt_then, compare_gt_iff_gt]
    exact Prod.Lex.toLex_lt_toLex.mpr (.inl h)

theorem compare_neg (a b : Int) : Ord.compare (-a) (-b) = (Ord.compare a b).swap := by
  rcases lt_trichotomy a b with h | rfl | h
  · rw [compare_lt_iff_lt.mpr h, Ordering.swap_lt, compare_gt_iff_gt]
    omega
  · rw [compare_eq_iff_eq.mpr rfl, compare_eq_iff_eq.mpr rfl, Ordering.swap_eq]
  · rw [compare_gt_iff_gt.mpr h, Ordering.swap_gt, compare_lt_iff_lt]
    omega

theorem compare_natCast (m n : Nat) : Ord.compare (m : Int) (n : Int) = Ord.compare m n := by
  rcases lt_trichotomy m n with h | rfl | h
  · rw [compare_lt_iff_lt.mpr h, compare_lt_iff_lt]
    omega
  · rw [compare_eq_iff_eq.mpr rfl, compare_eq_iff_eq.mpr rfl]
  · rw [compare_gt_iff_gt.mpr h, compare_gt_iff_gt]
    omega

/-- Numbers compare as their places do. -/
theorem compare_eq_placeOf {u v : UnpackedFloat} (hu : u.isNaN = false) (hv : v.isNaN = false) :
    u.compare v = some (Ord.compare (placeOf u) (placeOf v)) := by
  match u, v with
  | .notANumber, _ => cases hu
  | _, .notANumber => cases hv
  | .finite .negative .., .finite .negative .. =>
    dsimp only [UnpackedFloat.compare, placeOf]
    simp only [compare_toLex, compare_neg, compare_natCast, Ordering.swap_then]
    rfl
  | .finite .positive .., .finite .positive .. =>
    dsimp only [UnpackedFloat.compare, placeOf]
    simp only [compare_toLex, compare_natCast]
    rfl
  | .zero _, .zero _ => rfl
  | .infinity s, .infinity t => cases s <;> cases t <;> rfl
  -- all other pairs are apart by class
  | .infinity s, .zero _ | .zero _, .infinity s | .finite s _ _ _, .zero _
  | .zero _, .finite s _ _ _ =>
    cases s <;> dsimp only [UnpackedFloat.compare, placeOf] <;> simp only [compare_toLex] <;> rfl
  | .infinity s, .finite t _ _ _ | .finite s _ _ _, .infinity t =>
    cases s <;> cases t <;> dsimp only [UnpackedFloat.compare, placeOf] <;>
      simp only [compare_toLex] <;> rfl
  | .finite .negative .., .finite .positive .. | .finite .positive .., .finite .negative .. =>
    dsimp only [UnpackedFloat.compare, placeOf]
    simp only [compare_toLex]
    rfl

/-! ## NaN -/

/-- A double reads as NaN by its fields exactly when it unpacks to NaN. -/
theorem isNaN_unpack (x : Float) : x.toModel.unpack.isNaN = isNaN x := by
  rw [unpack_eq_decode, isNaN]
  cases decode x with
  | nan => rfl
  | infinite negative => rfl
  | finite negative mantissa exponent =>
    rw [Binary.unpacked]
    by_cases hpos : 0 < mantissa
    · rw [dif_pos hpos]
      rfl
    · rw [dif_neg hpos]
      rfl

theorem isNaN_ofModel_pack (u : UnpackedFloat) : isNaN (.ofModel (.pack u)) = u.isNaN := by
  rw [← isNaN_unpack]
  exact isNaN_pack u

theorem isNaN_dite {p : Prop} [Decidable p] {u : p → UnpackedFloat} {v : ¬ p → UnpackedFloat}
    (hu : ∀ h, (u h).isNaN = false) (hv : ∀ h, (v h).isNaN = false) : (dite p u v).isNaN = false := by
  by_cases h : p
  · rw [dif_pos h]
    exact hu h
  · rw [dif_neg h]
    exact hv h

theorem isNaN_ite {p : Prop} [Decidable p] {u v : UnpackedFloat} (hu : u.isNaN = false)
    (hv : v.isNaN = false) : (if p then u else v).isNaN = false :=
  isNaN_dite (fun _ => hu) fun _ => hv

theorem isNaN_roundWithAccuracy (s : Sign) (m : ℕ) (e : ℤ) (accuracy : Accuracy) :
    (roundWithAccuracy Format.binary64 s m e accuracy).isNaN = false :=
  isNaN_dite (fun _ => rfl) fun _ => rfl

theorem isNaN_neg (x : Float) : isNaN (-x) = isNaN x := by
  show isNaN (.ofModel (.pack x.toModel.unpack.neg)) = _
  rw [isNaN_ofModel_pack, ← isNaN_unpack]
  cases x.toModel.unpack <;> rfl

/-! ## Comparisons -/

section Comparison

variable {x y : Float}

theorem compare_unpack (hx : isNaN x = false) (hy : isNaN y = false) :
    x.toModel.unpack.compare y.toModel.unpack = some (Ord.compare (place x) (place y)) :=
  compare_eq_placeOf ((isNaN_unpack x).trans hx) ((isNaN_unpack y).trans hy)

theorem lt_iff_place (hx : isNaN x = false) (hy : isNaN y = false) : x < y ↔ place x < place y := by
  have hlt : x < y ↔ x.toModel.unpack.lt y.toModel.unpack = true := decide_eq_true_iff
  rw [hlt, UnpackedFloat.lt, compare_unpack hx hy, ← compare_lt_iff_lt]
  simp

theorem beq_iff_place (hx : isNaN x = false) (hy : isNaN y = false) :
    (x == y) = true ↔ place x = place y := by
  have hbeq : (x == y) = (x.toModel.unpack.compare y.toModel.unpack == some .eq) := rfl
  rw [hbeq, compare_unpack hx hy,
    ← compare_eq_iff_eq (a := place x) (b := place y)]
  cases Ord.compare (place x) (place y) <;> decide

theorem le_iff_place (hx : isNaN x = false) (hy : isNaN y = false) : x ≤ y ↔ place x ≤ place y := by
  have hle : x ≤ y ↔ x.toModel.unpack.le y.toModel.unpack = true := decide_eq_true_iff
  rw [hle, UnpackedFloat.le, compare_unpack hx hy, ← compare_le_iff_le]
  simp [Ordering.isLE_iff_ne_gt]

theorem isNaN_of_lt (h : x < y) : isNaN x = false ∧ isNaN y = false := by
  have hlt : x.toModel.unpack.lt y.toModel.unpack = true := decide_eq_true_iff.mp h
  rw [← isNaN_unpack, ← isNaN_unpack]
  cases hx : x.toModel.unpack with
  | notANumber => rw [hx] at hlt; cases hlt
  | _ =>
    cases hy : y.toModel.unpack with
    | notANumber => rw [hx, hy] at hlt; cases hlt
    | _ => exact ⟨rfl, rfl⟩

theorem not_le_of_lt (h : x < y) : ¬ y ≤ x := by
  obtain ⟨hx, hy⟩ := isNaN_of_lt h
  rw [le_iff_place hy hx, not_le]
  exact (lt_iff_place hx hy).mp h

/-- The missing value comes before every number. -/
theorem place_missing_le (x : Float) : place missing ≤ place x := by
  have hmissing : place missing = toLex (-2, toLex (0, 0)) := by decide +kernel
  rw [hmissing, place]
  -- the class of negative infinity is the least
  have hclass : ∀ {c : Int} (magnitude : Int ×ₗ Int), -2 < c →
      (toLex (-2, toLex (0, 0)) : Place) ≤ toLex (c, magnitude) := fun _ h =>
    (Prod.Lex.toLex_lt_toLex.mpr (.inl h)).le
  cases x.toModel.unpack with
  | infinity s => cases s <;> decide
  | notANumber | zero => exact hclass _ (by decide)
  | finite s => cases s <;> exact hclass _ (by decide)

theorem place_le_missing_iff : place x ≤ place missing ↔ place x = place missing :=
  ⟨fun h => h.antisymm (place_missing_le x), le_of_eq⟩

/-- Only the missing value is equal to it as a number. -/
theorem eq_missing_of_beq (h : (x == missing) = true) : x = missing := by
  have hbeq : (x.toModel.unpack.compare (.infinity .negative) == some .eq) = true := h
  cases hx : x.toModel.unpack with
  | infinity s =>
    cases s with
    | negative =>
      rw [← pack_unpack x, hx]
      rfl
    | positive =>
      rw [hx] at hbeq
      cases hbeq
  | notANumber =>
    rw [hx] at hbeq
    cases hbeq
  | zero s =>
    rw [hx] at hbeq
    cases hbeq
  | finite s m e hm =>
    rw [hx] at hbeq
    cases hbeq

theorem beq_missing (h : x.toModel.unpack = .infinity .negative) : (x == missing) = true := by
  have hbeq : (x == missing) = (x.toModel.unpack.compare (.infinity .negative) == some .eq) := rfl
  rw [hbeq, h]
  rfl

theorem isNaN_missing : isNaN missing = false := by decide +kernel

theorem isNaN_maxValue : isNaN maxValue = false := by decide +kernel

theorem place_missing_lt_maxValue : place missing < place maxValue := by decide +kernel

end Comparison

end Scalar
end FeatureSynth
