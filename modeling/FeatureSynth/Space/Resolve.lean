/-
# Analysed partiles of a part

The index of a part on an axis means a partile only once the dimension of that
axis has been analysed at the granularity of the axis.  `Space.resolve` finds it.
-/
import FeatureSynth.Space.Basic

namespace FeatureSynth

namespace Space

/-- The dimension of an axis, and the partile an index means on it. -/
def resolve (s : Space) (a : Axis) (index : Nat) : Except BuildError (Dimension × Partile) :=
  match s.dimensions[a.dimension]? with
  | none => breach (.unanalysedPartile index a.granularity)
  | some d =>
    match d.levels.bind fun levels => levels.partile? a.granularity index with
    | some partile => .ok (d, partile)
    | none => breach (.unanalysedPartile index a.granularity)

/-- The axes of a part's partition, each with the part's index on it.  Axes that the part has no
index for are left out.  Indexes beyond the axes, and those of a partition that is not there, are
left out too: the program ends where it looks their axes up. -/
def axesOf (s : Space) (part : Part) : List (Axis × Nat) :=
  match s.partitions[part.partition]? with
  | some p => p.axes.zip part.indexes
  | none => []

end Space

end FeatureSynth
