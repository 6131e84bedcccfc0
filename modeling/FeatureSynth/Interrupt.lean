/-
# Interruption

Whoever starts a build may ask it to stop.  The build looks at the request from
time to time, and what it sees depends on when the request was made.  An
`Interrupt` is that moment, counted in looks: after so many looks the request is
there, and it stays.
-/

namespace FeatureSynth

/-- The number of looks after which a request to stop is seen; none if it never is. -/
structure Interrupt where
  after : Option Nat
deriving DecidableEq, Repr

namespace Interrupt

/-- No request to stop. -/
def never : Interrupt := ⟨none⟩

/-- A request made already. -/
def requested : Interrupt := ⟨some 0⟩

/-- Whether a look sees the request, and what is left for the next ones. -/
def look (i : Interrupt) : Bool × Interrupt :=
  match i.after with
  | none => (false, i)
  | some 0 => (true, i)
  | some (n + 1) => (false, ⟨some n⟩)

end Interrupt

end FeatureSynth
