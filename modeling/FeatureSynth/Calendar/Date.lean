/-
# Dates

Days of the Gregorian calendar, continued to all years.  Only what the demo data
need: which dates there are, the day of the year, and going back some days.
-/

namespace FeatureSynth

/-- A day of a year. -/
structure Date where
  year : Int
  /-- From 1. -/
  month : Nat
  /-- From 1. -/
  day : Nat
deriving DecidableEq, Repr

namespace Date

def isLeap (year : Int) : Bool :=
  year % 4 == 0 && (year % 100 != 0 || year % 400 == 0)

def daysInYear (year : Int) : Nat := if isLeap year then 366 else 365

/-- Number of days of each month. -/
def monthLengths (year : Int) : List Nat :=
  [31, if isLeap year then 29 else 28, 31, 30, 31, 30, 31, 31, 30, 31, 30, 31]

/-- Whether the month is one and has the day. -/
def isValid (d : Date) : Bool :=
  1 ≤ d.month && 1 ≤ d.day && ((monthLengths d.year)[d.month - 1]?).any (d.day ≤ ·)

/-- Position in the year, from 1. -/
def dayOfYear (d : Date) : Nat :=
  ((monthLengths d.year).take (d.month - 1)).foldr (· + ·) d.day

/-- Position in its year of the day that lies `back` days before day `day` of a year.  Going back
over a year's start uses up at least that day. -/
def dayOfYearBefore (year : Int) (day back : Nat) : Nat :=
  if back < day then day - back
  else if day = 0 then 0
  else dayOfYearBefore (year - 1) (daysInYear (year - 1)) (back - day)
termination_by back + if day = 0 then 0 else 1
decreasing_by
  have : daysInYear (year - 1) ≠ 0 := by unfold daysInYear; split <;> decide
  simp_all
  omega

end Date

end FeatureSynth
