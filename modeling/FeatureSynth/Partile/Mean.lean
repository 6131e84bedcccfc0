/-
# Readable bounds

A bound between two neighbouring values may lie anywhere between them, so it is
chosen to be read: of the numbers within a tenth of the distance around the
middle, one with few digits.  `readableMean?` starts with ten significant digits
of the middle and drops the last one while the result stays close enough.  It
falls back on the lower value where rounding would reach an end.

Powers of ten are repeated products of doubles, so that every step rounds the
same way on every machine.
-/
import FeatureSynth.Scalar

namespace FeatureSynth

namespace Scalar

/-- The greater of two doubles; NaN gives way. -/
def maximum (x y : Float) : Float :=
  if isNaN x then y else if isNaN y then x else if x < y then y else x

/-- The lesser of two doubles; NaN gives way. -/
def minimum (x y : Float) : Float :=
  if isNaN x then y else if isNaN y then x else if y < x then y else x

/-- A double moved into `[lower, upper]`, which must not be empty. -/
def clamp? (x lower upper : Float) : Option Float :=
  if lower ≤ upper then some (if x < lower then lower else if upper < x then upper else x) else none

/-- `r · a ^ n` by squaring: one factor per binary digit of `n`, least first. -/
def powerFrom (a r : Float) (n : Nat) : Float :=
  let r := if n % 2 = 1 then r * a else r
  if n / 2 = 0 then r else powerFrom (a * a) r (n / 2)
termination_by n
decreasing_by omega

/-- An integer power of a double. -/
def power (a : Float) (n : Int) : Float :=
  let p := powerFrom a 1 n.natAbs
  if n < 0 then 1 / p else p

end Scalar

namespace Partile

/-- Significant digits a bound starts with. -/
def meanDigits : Int := 10

/-- `mantissa · 10 ^ exponent`. -/
def scaled (mantissa : Nat) (exponent : Int) : Float :=
  mantissa.toUInt64.toFloat * Scalar.power 10 exponent

/-- The last candidate within `delta` of `target`: the candidates are `mantissa`, `mantissa / 10`,
… at their powers of ten, and `kept` if none is. -/
def shorten (target delta : Float) : (fuel mantissa : Nat) → (exponent : Int) → (kept : Float) → Float
  | 0, _, _, kept => kept
  | fuel + 1, mantissa, exponent, kept =>
    let candidate := scaled mantissa exponent
    if (candidate - target).abs < delta then
      shorten target delta fuel (mantissa / 10) (exponent + 1) candidate
    else kept

/-- A number with few digits within `delta` of `middle`, which has `magnitude` digits before the
point. -/
def rounded (middle delta : Float) (magnitude : Int) : Float :=
  let target := middle.abs
  let exponent := magnitude - meanDigits + 1
  let mantissa := Scalar.floorNat64 (target * Scalar.power 10 (-exponent) + 0.5)
  let result :=
    shorten target delta (200 - exponent).toNat mantissa exponent (scaled mantissa exponent)
  if middle < 0 then -result else result

/-- A number in the middle of `[lower, upper]`, which is known to have `magnitude` digits before the
point: with few digits, or at the end of the range of bounds. -/
def middleAt? (lower upper : Float) (magnitude : Int) : Option Float :=
  let middle := (lower + upper) / 2
  if 100 ≤ magnitude then some (if middle < 0 then -Scalar.maxValue else Scalar.maxValue)
  else if magnitude < -100 then some 0
  else Scalar.clamp? (rounded middle ((upper - lower) / 2) magnitude) lower upper

/-- A number with few digits in the middle of `[lower, upper]`. -/
def readableMiddle? (lower upper : Float) : Option Float :=
  let middle := (lower + upper) / 2
  if Scalar.isInfinite middle then some Scalar.missing
  else if middle == 0 then some 0
  else middleAt? lower upper (Scalar.floorInt32 (Float.log10 middle.abs) + 1)

/-- The lower limit of a bound between two values, a tenth of the distance below the middle. -/
def lowMean (lower upper : Float) : Float :=
  Scalar.maximum ((11 * lower + 9 * upper) / 20) lower

/-- The upper limit of a bound between two values, a tenth of the distance above the middle. -/
def highMean (lower upper : Float) : Float :=
  Scalar.minimum ((9 * lower + 11 * upper) / 20) upper

/-- A bound between two values, in any order: readable, at least the lower value and below the
upper one.  Missing if either value is.  Where the two limits of a bound cross there is none, and
the program ends. -/
def readableMean? (a b : Float) : Option Float :=
  if a == Scalar.missing || b == Scalar.missing then some Scalar.missing
  else
    let lower := if a ≤ b then a else b
    let upper := if a ≤ b then b else a
    (readableMiddle? (lowMean lower upper) (highMean lower upper)).map fun mean =>
      if mean ≤ lower || upper ≤ mean then lower else mean

end Partile

end FeatureSynth
