/-
# Durations

A duration is written in the largest of the units second, millisecond, microsecond
and nanosecond that is not above it, exactly, without trailing zeros: `2.5s`,
`1.001µs`, `0ns`.
-/

namespace FeatureSynth.Text

/-- A unit of time. -/
structure TimeUnit where
  name : String
  /-- Decimal places of the unit that a nanosecond takes up. -/
  places : Nat
deriving DecidableEq, Repr

/-- The largest unit that is not above a number of nanoseconds. -/
def TimeUnit.of (nanos : Nat) : TimeUnit :=
  if Nat.pow 10 9 ≤ nanos then ⟨"s", 9⟩
  else if Nat.pow 10 6 ≤ nanos then ⟨"ms", 6⟩
  else if Nat.pow 10 3 ≤ nanos then ⟨"µs", 3⟩
  else ⟨"ns", 0⟩

/-- The decimals of a fraction of a unit, without trailing zeros. -/
def decimals (places fraction : Nat) : List Char :=
  let digits := Nat.toDigits 10 fraction
  let padded := List.replicate (places - digits.length) '0' ++ digits
  (padded.reverse.dropWhile (· == '0')).reverse

/-- Text of a duration. -/
def durationText (nanos : Nat) : String :=
  let u := TimeUnit.of nanos
  let unit := Nat.pow 10 u.places
  let whole := toString (nanos / unit)
  match decimals u.places (nanos % unit) with
  | [] => whole ++ u.name
  | digits => whole ++ "." ++ String.ofList digits ++ u.name

end FeatureSynth.Text
