/-
# Saturation

A set of names grows in rounds: what a step finds from the names known so far is
added, until nothing new is found.  The set reached is the least one that holds
the names given and everything the step finds from it.  The number of rounds is
bounded by the number of names that make a step find something.
-/

namespace FeatureSynth

/-- What a step finds that is not known, each name once. -/
def news (step : List String → List String) (known : List String) : List String :=
  ((step known).filter (!known.contains ·)).eraseDups

/-- The names known, with all that a step finds from them in some rounds. -/
def saturate (step : List String → List String) : (rounds : Nat) → List String → List String
  | 0, known => known
  | rounds + 1, known =>
    match news step known with
    | [] => known
    | fresh => saturate step rounds (known ++ fresh)

end FeatureSynth
