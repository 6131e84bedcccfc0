/-
# Intervals of a continuous operand

The sample is sorted and its distinct values counted.  At granularity `q` the
quantile boundaries `total · (i + 1) / q` are moved to the nearest distinct
value; a boundary that reaches no further than the one before it adds no
interval.  A level keeps the intervals no coarser level has, and the search for
finer levels stops once every distinct value has an interval of its own.
-/
import FeatureSynth.Partile.Basic
import FeatureSynth.Partile.Mean

namespace FeatureSynth

namespace Partile

/-- Distinct values in increasing order, each with the number of samples up to it. -/
structure Distribution where
  values : List Float
  cumulative : List Nat

namespace Distribution

/-- Runs of equal values: each new value with the number of samples up to its last occurrence. -/
def runs : (seen : Nat) → List Float → List (Float × Nat)
  | _, [] => []
  | seen, x :: xs =>
    match runs (seen + 1) xs with
    | (y, count) :: rest => if x == y then (x, count) :: rest else (x, seen + 1) :: (y, count) :: rest
    | [] => [(x, seen + 1)]

/-- The distribution of a sample; NaN counts as missing. -/
def ofSamples (samples : List Float) : Distribution :=
  let cleaned := samples.map fun x => if Scalar.isNaN x then Scalar.missing else x
  let pairs := runs 0 (cleaned.mergeSort fun x y => Scalar.rank x ≤ Scalar.rank y)
  ⟨pairs.map (·.1), pairs.map (·.2)⟩

/-- Number of samples. -/
def sampleCount (d : Distribution) : Nat := d.cumulative.getLastD 0

/-- Number of distinct values. -/
def valueCount (d : Distribution) : Nat := d.values.length

/-- The value at a rank. -/
def valueAt (d : Distribution) (i : Nat) : Float := d.values.getD i Scalar.missing

/-- The number of samples up to a rank. -/
def countAt (d : Distribution) (i : Nat) : Nat := d.cumulative.getD i 0

end Distribution

/-- An interval between quantile boundaries, as a range of ranks of distinct values. -/
structure Quantile where
  /-- The quantile that closes the interval. -/
  quantile : Nat
  first : Nat
  last : Nat
deriving DecidableEq, Repr

namespace Quantile

/-- A count as a double. -/
def real (n : Nat) : Float := n.toUInt64.toFloat

/-- The number of samples below the upper boundary of a quantile; boundaries lean towards the
ends, by less than any sample. -/
def boundary (total quantiles quantile : Nat) : Float :=
  let exact := real total * (real quantile + 1) / real quantiles
  if quantiles / 2 ≤ quantile then exact + 1e-10 else exact - 1e-10

/-- Rank of the distinct value nearest to the upper boundary of a quantile, the lower one of two
equally near. -/
def upperRank (d : Distribution) (quantiles quantile : Nat) : Nat :=
  let searched := boundary d.sampleCount quantiles quantile
  let rounded := Scalar.floorNat64 (searched + 0.5)
  let upper := min (partitionPoint (· < rounded) d.cumulative) (d.valueCount - 1)
  if upper = 0 then 0
  else
    let below := (searched - real (d.countAt (upper - 1))).abs
    let above := (real (d.countAt upper) - searched).abs
    if below ≤ above then upper - 1 else upper

/-- The intervals that end at ranks above all earlier ones; `previous` is the last rank taken. -/
def merge : (previous : Option Nat) → List (Nat × Nat) → List Quantile
  | _, [] => []
  | none, (quantile, upper) :: rest => ⟨quantile, 0, upper⟩ :: merge (some upper) rest
  | some last, (quantile, upper) :: rest =>
    if last < upper then ⟨quantile, last + 1, upper⟩ :: merge (some upper) rest
    else merge (some last) rest

/-- The intervals of equal frequency for a number of quantiles. -/
def ofDistribution (d : Distribution) (quantiles : Nat) : List Quantile :=
  if d.values = [] then []
  else merge none ((List.range quantiles).map fun q => (q, upperRank d quantiles q))

/-- The lower end of an interval: missing for the first one, a readable bound for the others. -/
def lower? (d : Distribution) (q : Quantile) : Option Float :=
  if q.first = 0 then some Scalar.missing
  else readableMean? (d.valueAt q.first) (d.valueAt (q.first - 1))

/-- The upper end of an interval: the greatest value for the last one, a readable bound for the
others. -/
def upper? (d : Distribution) (q : Quantile) : Option Float :=
  if d.valueCount ≤ q.last + 1 then some Scalar.maxValue
  else readableMean? (d.valueAt q.last) (d.valueAt (q.last + 1))

/-- The values an interval reaches over. -/
def bounds? (d : Distribution) (q : Quantile) : Option (Float × Float) := do
  return (← q.lower? d, ← q.upper? d)

end Quantile

/-- An interval already found at a coarser level. -/
structure Seen where
  lower : Float
  upper : Float
  index : Nat

/-- Whether an interval has been found before; bounds compare as numbers. -/
def Seen.has (seen : List Seen) (s : Seen) : Bool :=
  seen.any fun t => t.lower == s.lower && t.upper == s.upper && t.index == s.index

/-- The intervals not found before, with all found so far. -/
def newIntervals : List Seen → List Seen → List Partile × List Seen
  | seen, [] => ([], seen)
  | seen, s :: rest =>
    if Seen.has seen s then newIntervals seen rest
    else
      let (partiles, seen) := newIntervals (seen ++ [s]) rest
      (.interval s.lower s.upper s.index :: partiles, seen)

/-- Intervals with their bounds. -/
def withBounds? (d : Distribution) (quantiles : List Quantile) : Option (List Seen) :=
  quantiles.mapM fun q => (q.bounds? d).map fun (lower, upper) => ⟨lower, upper, q.quantile⟩

/-- The intervals that a granularity adds, with all found so far; a single interval adds nothing. -/
def addedIntervals? (d : Distribution) (seen : List Seen) (quantiles : List Quantile) :
    Option (List Partile × List Seen) :=
  if 1 < quantiles.length then (withBounds? d quantiles).map (newIntervals seen)
  else some ([], seen)

/-- The levels of a distribution for the granularities still to try. -/
def intervalLevels? (d : Distribution) : List Seen → List Nat → Option Levels
  | _, [] => some []
  | seen, granularity :: finer => do
    let quantiles := Quantile.ofDistribution d granularity
    let (partiles, seen) ← addedIntervals? d seen quantiles
    let rest? := if quantiles.length = d.valueCount then some [] else intervalLevels? d seen finer
    let rest ← rest?
    return if partiles = [] then rest else ⟨granularity, partiles⟩ :: rest

end Partile

namespace Levels

/-- The levels of a continuous operand.  There are none where an interval needs a bound that does
not exist: the program ends there. -/
def ofContinuous? (samples : List Float) (maxPartiles : Nat) : Option Levels :=
  let d := Partile.Distribution.ofSamples samples
  Partile.intervalLevels? d [] (candidates d.sampleCount maxPartiles)

/-- Whether a sample can be cut: there is a bound wherever the levels need one. -/
def cuttable (samples : List Float) (maxPartiles : Nat) : Bool :=
  (ofContinuous? samples maxPartiles).isSome

end Levels

end FeatureSynth
