/-
# Groups of a symbol operand

The distinct values of the sample are listed by decreasing frequency, equally
frequent ones in increasing order.  At granularity `q` every value that occurs
in at least one `q`-th of the sample is a group of its own, and the others form
the garbage group, the last one.  A level is kept when it has more groups than
the last one kept; it starts where the garbage group of that one stood.
-/
import FeatureSynth.Partile.Basic

namespace FeatureSynth

namespace Partile

/-- Distinct values with their frequencies, the most frequent first. -/
structure Frequencies where
  values : List String
  counts : List Nat

namespace Frequencies

/-- Adjacent equal values, counted. -/
def runs : List String → List (String × Nat)
  | [] => []
  | x :: xs =>
    match runs xs with
    | (y, count) :: rest => if x = y then (x, count + 1) :: rest else (x, 1) :: (y, count) :: rest
    | [] => [(x, 1)]

/-- Increasing order of values. -/
def valueLE (a b : String) : Bool := compare a b != .gt

/-- Decreasing order of frequencies, then increasing order of values. -/
def entryLE (a b : String × Nat) : Bool := b.2 < a.2 || (b.2 == a.2 && valueLE a.1 b.1)

/-- The frequencies of a sample. -/
def ofSamples (samples : List String) : Frequencies :=
  let entries := (runs (samples.mergeSort valueLE)).mergeSort entryLE
  ⟨entries.map (·.1), entries.map (·.2)⟩

/-- Number of samples. -/
def sampleCount (f : Frequencies) : Nat := f.counts.foldr (· + ·) 0

/-- Number of distinct values. -/
def valueCount (f : Frequencies) : Nat := f.values.length

/-- The value at a rank. -/
def valueAt (f : Frequencies) (i : Nat) : String := f.values.getD i ""

/-- Least frequency that makes a group at a number of quantiles: the quotient, rounded up. -/
def groupThreshold (f : Frequencies) (quantiles : Nat) : Nat :=
  (f.sampleCount + quantiles - 1) / quantiles

/-- Number of groups for a number of quantiles: one for each frequent value, which come first, and
at least one.  There is one more, for the others, if there are others and the first value is
frequent. -/
def groupCount (f : Frequencies) (quantiles : Nat) : Nat :=
  if f.valueCount = 0 ∨ quantiles = 0 then 0
  else
    let threshold := f.groupThreshold quantiles
    let last := min quantiles f.valueCount - 1
    let index := partitionPoint (threshold ≤ ·) (f.counts.take (last + 1)) - 1
    let groups := index + 1
    if groups < f.valueCount ∧ (0 < index ∨ threshold ≤ f.counts.headD 0) then groups + 1
    else groups

end Frequencies

/-- Index of a group: its rank, and the last quantile for the last group. -/
def groupIndex (group groups quantiles : Nat) : Nat :=
  if group + 1 < groups then group else quantiles - 1

/-- The partile of a group; the last group leaves out the values before it. -/
def ofGroup (f : Frequencies) (groups quantiles group : Nat) : Partile :=
  .value (f.valueAt group) (groupIndex group groups quantiles)
    (if group + 1 = groups then (List.range group).map f.valueAt else [])

/-- The levels of frequencies for the granularities still to try; `kept` is the number of groups
of the last level kept. -/
def groupLevels (f : Frequencies) : (kept : Nat) → List Nat → Levels
  | _, [] => []
  | kept, granularity :: finer =>
    let groups := f.groupCount granularity
    let rest (kept : Nat) := if groups = f.valueCount then [] else groupLevels f kept finer
    if kept < groups then
      let ranks := (List.range (groups - (kept - 1))).map (kept - 1 + ·)
      ⟨granularity, ranks.map (ofGroup f groups granularity)⟩ :: rest groups
    else rest kept

end Partile

namespace Levels

/-- The levels of a symbol operand. -/
def ofSymbol (samples : List String) (maxPartiles : Nat) : Levels :=
  let f := Partile.Frequencies.ofSamples samples
  Partile.groupLevels f 1 (candidates f.sampleCount maxPartiles)

end Levels

end FeatureSynth
