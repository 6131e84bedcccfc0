/-
# Written dates

A date is written as year, month and day with hyphens between them.  Months and
days have one or two digits, and years up to four; a year with a sign may have
more.  Blanks may stand in front of each number.
-/
import FeatureSynth.Calendar.Date
import FeatureSynth.Text.Blank
import FeatureSynth.Text.Digit

namespace FeatureSynth

namespace Date

/-- The number at the start of a text, of as many digits as `width` allows, and what follows. -/
def number? (width : Nat) (s : List Char) : Option (Nat × List Char) :=
  match (s.take width).takeWhile (Text.digitValue? · |>.isSome) with
  | [] => none
  | digits => (Text.digitsValue? digits).map fun n => (n, s.drop digits.length)

/-- The year at the start of a text: any number of digits behind a sign, or up to four. -/
def year? (s : List Char) : Option (Int × List Char) :=
  match s with
  | '-' :: rest => (number? rest.length rest).map fun (n, rest) => (-n, rest)
  | '+' :: rest => (number? rest.length rest).map fun (n, rest) => (n, rest)
  | s => (number? 4 s).map fun (n, rest) => (n, rest)

/-- What follows a hyphen. -/
def hyphen? : List Char → Option (List Char)
  | '-' :: rest => some rest
  | _ => none

/-- The years that dates may have. -/
def isYear (year : Int) : Bool := -262143 ≤ year && year ≤ 262142

/-- The date that a text writes. -/
def ofText? (text : String) : Option Date := do
  let (year, rest) ← year? (Text.trimStart text.toList)
  let (month, rest) ← number? 2 (Text.trimStart (← hyphen? rest))
  let (day, rest) ← number? 2 (Text.trimStart (← hyphen? rest))
  let d : Date := ⟨year, month, day⟩
  if rest.isEmpty && isYear year && d.isValid then some d else none

end Date

end FeatureSynth
