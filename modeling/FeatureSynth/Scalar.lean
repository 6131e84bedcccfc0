/-
# Scalars: the continuous values of the domain

A continuous value is an IEEE double.  Two doubles play a part of their own:
`missing` (negative infinity) stands for an absent value and sorts before every
number, and `maxValue` closes the last interval of a partition.

Values are keys of sorted indexes, so they need an order without exceptions.
`Scalar.compare` is that order: it reads the bits of a double as a sign and a
magnitude, hence tells the two zeros apart and gives NaN a place.  Everything
that turns a double into whole numbers goes through `Binary`, the exact reading
`± mantissa · 2 ^ exponent`, so no step of it rounds.
-/

namespace FeatureSynth

/-- The exact content of a double. -/
inductive Binary where
  | nan
  | infinite (negative : Bool)
  /-- The number `± mantissa · 2 ^ exponent`. -/
  | finite (negative : Bool) (mantissa : Nat) (exponent : Int)
deriving DecidableEq, Repr

namespace Scalar

/-- The absent value: it sorts before every number. -/
def missing : Float := Float.ofBits 0xfff0000000000000

/-- The open upper bound of the last interval, `10 ^ 100`. -/
def maxValue : Float := 1e100

/-- The sign, exponent and fraction fields of a double, read exactly. -/
def decode (x : Float) : Binary :=
  let bits := x.toBits.toNat
  let negative := bits / Nat.pow 2 63 == 1
  let biased := bits / Nat.pow 2 52 % Nat.pow 2 11
  let fraction := bits % Nat.pow 2 52
  if biased = 2047 then
    if fraction = 0 then .infinite negative else .nan
  else if biased = 0 then .finite negative fraction (-1074)
  else .finite negative (Nat.pow 2 52 + fraction) ((biased : Int) - 1075)

/-! ## Order -/

/-- Rank of a double among all doubles: negative ones in reverse order of their bits, the others
above them. -/
def rank (x : Float) : Nat :=
  let bits := x.toBits.toNat
  if bits < Nat.pow 2 63 then bits + Nat.pow 2 63 else Nat.pow 2 64 - 1 - bits

/-- The total order of doubles: `-0` before `0`, NaN at the ends. -/
def compare (x y : Float) : Ordering :=
  Ord.compare (rank x) (rank y)

/-! ## Whole numbers -/

end Scalar

namespace Binary

/-- The largest whole number not above `± mantissa · 2 ^ exponent`. -/
def floorOf (negative : Bool) (mantissa : Nat) (exponent : Int) : Int :=
  let signed : Int := if negative then -(mantissa : Int) else mantissa
  if 0 ≤ exponent then signed * Nat.pow 2 exponent.toNat else signed / Nat.pow 2 (-exponent).toNat

/-- Largest whole number not above the value, kept inside `[least, greatest]`; NaN counts as zero. -/
def floorBetween (least greatest : Int) : Binary → Int
  | nan => 0
  | infinite true => least
  | infinite false => greatest
  | finite negative mantissa exponent =>
    max least (min greatest (floorOf negative mantissa exponent))

/-- Whether a value is a whole number. -/
def isWhole : Binary → Bool
  | finite _ mantissa exponent =>
    0 ≤ exponent || mantissa % Nat.pow 2 (-exponent).toNat == 0
  | _ => false

end Binary

namespace Scalar

/-- Floor of a double as a 64-bit signed number; values out of range go to the nearer end. -/
def floorInt64 (x : Float) : Int :=
  (decode x).floorBetween (-Nat.pow 2 63) (Nat.pow 2 63 - 1)

/-- Floor of a double as a 32-bit signed number; values out of range go to the nearer end. -/
def floorInt32 (x : Float) : Int :=
  (decode x).floorBetween (-Nat.pow 2 31) (Nat.pow 2 31 - 1)

/-- Floor of a double as a 64-bit count; values out of range go to the nearer end. -/
def floorNat64 (x : Float) : Nat :=
  ((decode x).floorBetween 0 (Nat.pow 2 64 - 1)).toNat

/-- Whether a double is neither infinite nor NaN. -/
def isFinite (x : Float) : Bool :=
  match decode x with
  | .finite .. => true
  | _ => false

/-- Whether a double is infinite. -/
def isInfinite (x : Float) : Bool :=
  match decode x with
  | .infinite _ => true
  | _ => false

/-- Whether a double is NaN. -/
def isNaN (x : Float) : Bool :=
  match decode x with
  | .nan => true
  | _ => false

end Scalar

end FeatureSynth
