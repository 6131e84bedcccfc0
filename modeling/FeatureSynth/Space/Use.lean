/-
# Use counts

Before an analysis or a build the space learns what its rules use.  One use of a
part is a use of its partition and of the dimension of each axis; a use of a rule
dimension is a use of every part that rule names.  The recursion descends to
dimensions registered earlier, so the bound `Space.depth` is never met.
-/
import FeatureSynth.Space.Basic

namespace FeatureSynth

namespace Space

/-- The space with every count at zero. -/
def resetUses (s : Space) : Space :=
  { dimensions := s.dimensions.map fun d => { d with uses := 0 }
    partitions := s.partitions.map fun p =>
      { p with uses := 0, parts := p.parts.map fun (i, e) => (i, { e with uses := 0 }) } }

/-- Counts one use of a part in its partition. -/
def countPart (indexes : List Nat) (p : Partition) : Partition :=
  { p with
    uses := p.uses + 1
    parts := p.parts.map fun (i, e) => if i = indexes then (i, { e with uses := e.uses + 1 }) else (i, e) }

/-- Counts one use of a dimension. -/
def countDimension (d : Dimension) : Dimension := { d with uses := d.uses + 1 }

/-- One use of a part: of its partition, of the dimensions it is cut along, and of the parts that
rules of these dimensions name, a bounded number of steps down.  No way down is as long as the depth
of a space that is well founded.  In one that is not the program may go down without an end, where
this stops counting. -/
def usePart : (fuel : Nat) → Space → Part → Space
  | 0, s, _ => s
  | fuel + 1, s, part =>
    match s.partitions[part.partition]? with
    | none => s
    | some p =>
      p.axes.foldl (fun s a =>
        match s.dimensions[a.dimension]? with
        | none => s
        | some d =>
          ((d.rule?.map Rule.parts).getD []).foldl (usePart fuel)
            (s.modifyDimension a.dimension countDimension))
        (s.modifyPartition part.partition (countPart part.indexes))

/-- One use of every part a rule names. -/
def useRule (s : Space) (r : Rule) : Space := r.parts.foldl (usePart s.depth) s

/-- The space with the uses by a list of rules, and no others. -/
def countUses (s : Space) (rules : List Rule) : Space := rules.foldl useRule s.resetUses

/-- Ranks of the dimensions in use. -/
def usedDimensions (s : Space) : List Nat :=
  (s.dimensions.zipIdx.filter fun (d, _) => 0 < d.uses).map (·.2)

end Space

end FeatureSynth
