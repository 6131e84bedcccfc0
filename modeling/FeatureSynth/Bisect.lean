/-
# Search by halving

`bisect n f` looks for a position below `n` at which `f` answers `eq`, where `f`
compares the entry at a position with what is sought.  On a table that `f` finds
sorted (`lt` before `eq` before `gt`) the answer is a position of the entry, or
the position at which it belongs.  On any other table the answer is that of the
same probes: the middle of the remaining run, which stays in the run unless its
entry is too great.
-/

namespace FeatureSynth

/-- Where a search ended. -/
inductive Spot where
  /-- The entry is at this position. -/
  | found (position : Nat)
  /-- There is none; it belongs at this position. -/
  | vacant (position : Nat)
deriving DecidableEq, Repr

namespace Spot

def found? : Spot → Option Nat
  | found i => some i
  | vacant _ => none

end Spot

namespace Bisect

/-- The first entry of the run that is left when the run of `size` entries from `base` on has been
halved down to one. -/
def narrow (f : Nat → Ordering) : (fuel size base : Nat) → Nat
  | 0, _, base => base
  | fuel + 1, size, base =>
    if 1 < size then
      let half := size / 2
      let middle := base + half
      narrow f fuel (size - half) (if f middle = .gt then base else middle)
    else base

end Bisect

/-- The position below `n` at which `f` answers `eq`. -/
def bisect (n : Nat) (f : Nat → Ordering) : Spot :=
  if n = 0 then .vacant 0
  else
    let base := Bisect.narrow f n n 0
    match f base with
    | .eq => .found base
    | .lt => .vacant (base + 1)
    | .gt => .vacant base

/-- Search in a list by a comparison of its entries with what is sought. -/
def bisectList {α : Type} (l : List α) (f : α → Ordering) : Spot :=
  bisect l.length fun i => (l[i]?.map f).getD .gt

/-- The position up to which `p` holds, in a list whose elements that `p` holds of come first. -/
def partitionPoint {α : Type} (p : α → Bool) (l : List α) : Nat :=
  match bisectList l fun x => if p x then .lt else .gt with
  | .found i => i
  | .vacant i => i

end FeatureSynth
