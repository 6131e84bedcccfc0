/-
# Shortest decimals

Among the decimals that read back as a given double there is a shortest one,
and among those of that length a nearest one.  `Decimal.shortest` finds it by
exact whole-number arithmetic: the reals that round to the double form an
interval, and for one digit, two digits, … the two points of the decimal grid
around the value are tried until one of them lies inside.

Two steps suffice per grid.  If any point of the grid lies in the interval, so
does one of the value's two neighbours, since both ends are as far out.
-/
import FeatureSynth.Scalar

namespace FeatureSynth

/-- The decimal number `digits · 10 ^ exponent`. -/
structure Decimal where
  digits : Nat
  exponent : Int
deriving DecidableEq, Repr

namespace Decimal

/-- A positive quotient of whole numbers. -/
structure Ratio where
  num : Nat
  den : Nat

/-- The number `m · 2 ^ e` as a quotient. -/
def Ratio.ofBinary (m : Nat) (e : Int) : Ratio :=
  if 0 ≤ e then ⟨m * Nat.pow 2 e.toNat, 1⟩ else ⟨m, Nat.pow 2 (-e).toNat⟩

/-- The number `c · 10 ^ p` as a quotient. -/
def Ratio.ofDecimal (c : Nat) (p : Int) : Ratio :=
  if 0 ≤ p then ⟨c * Nat.pow 10 p.toNat, 1⟩ else ⟨c, Nat.pow 10 (-p).toNat⟩

def Ratio.lt (a b : Ratio) : Bool := a.num * b.den < b.num * a.den

def Ratio.le (a b : Ratio) : Bool := a.num * b.den ≤ b.num * a.den

/-- The reals that round to a double, between `low` and `high`; the ends belong to them when
`closed`. -/
structure Rounding where
  value : Ratio
  low : Ratio
  high : Ratio
  closed : Bool

/-- The rounding interval of `mantissa · 2 ^ exponent`: half a step to each side, a quarter below a
power of two, where the steps get smaller. -/
def Rounding.ofBinary (mantissa : Nat) (exponent : Int) : Rounding :=
  let below := if mantissa = Nat.pow 2 52 ∧ -1074 < exponent then 1 else 2
  { value := .ofBinary mantissa exponent
    low := .ofBinary (4 * mantissa - below) (exponent - 2)
    high := .ofBinary (4 * mantissa + 2) (exponent - 2)
    closed := mantissa % 2 == 0 }

/-- Whether a decimal lies in the interval. -/
def Rounding.holds (r : Rounding) (c : Nat) (p : Int) : Bool :=
  let x := Ratio.ofDecimal c p
  if r.closed then r.low.le x && x.le r.high else r.low.lt x && x.lt r.high

/-- The number of decimal digits of a whole number, at least one. -/
def digitCount (n : Nat) : Nat := (Nat.toDigits 10 n).length

/-- The exponent `k` with `10 ^ k ≤ num / den < 10 ^ (k + 1)`, for quotients above `10 ^ -400`. -/
def Ratio.magnitude (a : Ratio) : Int :=
  (digitCount (a.num * Nat.pow 10 400 / a.den) : Int) - 401

/-- The nearest of the value's two neighbours on the grid of step `10 ^ p` that reads back, the
upper one of two equally near. -/
def Rounding.onGrid? (r : Rounding) (p : Int) : Option Nat :=
  let unit := Ratio.ofDecimal 1 p
  let low := r.value.num * unit.den / (r.value.den * unit.num)
  let high := low + 1
  match r.holds low p, r.holds high p with
  | false, false => none
  | true, false => some low
  | false, true => some high
  | true, true =>
    let middle := Ratio.ofDecimal (2 * low + 1) p
    if (⟨2 * r.value.num, r.value.den⟩ : Ratio).lt middle then some low else some high

/-- The first grid, from `n` digits on, with a point in the interval. -/
def Rounding.search (r : Rounding) (magnitude : Int) : (fuel n : Nat) → Decimal
  | 0, n =>
    let p := magnitude - n + 1
    ⟨(r.onGrid? p).getD 0, p⟩
  | fuel + 1, n =>
    let p := magnitude - n + 1
    match r.onGrid? p with
    | some c => ⟨c, p⟩
    | none => r.search magnitude fuel (n + 1)

/-- Zeros at the end of the digits move into the exponent. -/
def trim : (fuel : Nat) → Decimal → Decimal
  | 0, d => d
  | fuel + 1, d =>
    if d.digits ≠ 0 ∧ d.digits % 10 = 0 then trim fuel ⟨d.digits / 10, d.exponent + 1⟩ else d

/-- The shortest decimal that reads back as the positive double `mantissa · 2 ^ exponent`;
seventeen digits always do. -/
def shortest (mantissa : Nat) (exponent : Int) : Decimal :=
  let r := Rounding.ofBinary mantissa exponent
  trim 20 (r.search r.value.magnitude 16 1)

end Decimal

end FeatureSynth
