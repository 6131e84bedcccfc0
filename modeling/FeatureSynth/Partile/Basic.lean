/-
# Partiles

To cut a table along an operand, the values of the operand are cut first.  At
granularity `g` they fall into at most `g` *partiles*: half-open intervals of a
continuous operand, or single frequent values of a symbol operand with one
partile for all the others.  A `Level` holds the partiles one granularity adds to
the coarser ones, in order of their index; the analysis of an operand is a list
of levels of growing granularity.
-/
import FeatureSynth.Bisect
import FeatureSynth.Scalar

namespace FeatureSynth

/-- One piece of the values of an operand. -/
inductive Partile where
  /-- The values above `lower` and up to `upper`. -/
  | interval (lower upper : Float) (index : Nat)
  /-- One frequent value; the partile of all the other values lists in `outside` the frequent
  values it leaves out. -/
  | value (value : String) (index : Nat) (outside : List String)
deriving DecidableEq

namespace Partile

/-- Rank of a partile at its granularity. -/
def index : Partile → Nat
  | interval _ _ i => i
  | value _ i _ => i

/-- Whether a partile gathers all values but some. -/
def isGarbage : Partile → Bool
  | interval .. => false
  | value _ _ outside => !outside.isEmpty

end Partile

/-- The partiles a granularity adds, in order of their index. -/
structure Level where
  granularity : Nat
  partiles : List Partile
deriving DecidableEq

/-- The levels of an analysed operand, coarsest first. -/
abbrev Levels := List Level

namespace Levels

/-- Levels of given partiles, which are put in order of their index. -/
def ofPartiles (levels : List (Nat × List Partile)) : Levels :=
  levels.map fun (granularity, partiles) =>
    ⟨granularity, partiles.mergeSort fun a b => a.index ≤ b.index⟩

def granularities (levels : Levels) : List Nat := levels.map (·.granularity)

/-- Number of partiles over all levels. -/
def partileCount (levels : Levels) : Nat := (levels.map (·.partiles.length)).foldr (· + ·) 0

/-- Position of the level of a granularity. -/
def position? (levels : Levels) (granularity : Nat) : Option Nat :=
  (bisectList levels fun l => compare l.granularity granularity).found?

/-- The partiles of the level at a position. -/
def partilesAt (levels : Levels) (position : Nat) : List Partile :=
  (levels[position]?.map (·.partiles)).getD []

/-- The partile of an index among the partiles of a level. -/
def search? (partiles : List Partile) (index : Nat) : Option Partile :=
  (bisectList partiles fun p => compare p.index index).found?.bind fun i => partiles[i]?

/-- The partile of an index at a granularity. -/
def partile? (levels : Levels) (granularity index : Nat) : Option Partile :=
  (position? levels granularity).bind fun i => search? (partilesAt levels i) index

/-! ## Granularities -/

/-- Smallest average number of sampled values per partile. -/
def minFrequency : Nat := 4

/-- A granularity and its doubles, as long as they are within a limit. -/
def doublesWithin (limit granularity : Nat) (h : 0 < granularity) : List Nat :=
  if granularity ≤ limit then
    granularity :: doublesWithin limit (granularity * 2) (Nat.mul_pos h Nat.two_pos)
  else []
termination_by limit + 1 - granularity
decreasing_by omega

/-- The granularities to try for a sample of `count` values: each leaves enough values per
partile. -/
def candidates (count maxPartiles : Nat) : List Nat :=
  doublesWithin (min (count / minFrequency) maxPartiles) 2 Nat.two_pos

end Levels

end FeatureSynth
