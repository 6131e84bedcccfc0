/-
# Descriptors and keys

Where blocks are built, a whole partition is described at once: along each axis
by the bounds of its intervals, or by its groups of values.  The values of an axis
fall into cells, numbered from zero; a partile index is one of them.  The parts
of the partition are then numbered from one, the cells of the first axis running
fastest, and this number is the key of the part in every block.

The cells of an axis may be more than its partiles.  Intervals of one level need
not be adjacent, so the gaps between them are cells too; and one group gathers
the values that coarser levels keep apart.
-/
import FeatureSynth.Space.Basic

namespace FeatureSynth

namespace Cells

/-- The map from indexes to cells with one more entry; a former one of the index gives way. -/
def insert (index cell : Nat) : List (Nat × Nat) → List (Nat × Nat)
  | [] => [(index, cell)]
  | p :: rest =>
    match compare index p.1 with
    | .lt => (index, cell) :: p :: rest
    | .eq => (index, cell) :: rest
    | .gt => p :: insert index cell rest

/-- The first index that maps to a cell. -/
def index? (c : Cells) (cell : Nat) : Option Nat :=
  (c.cellOf.find? fun p => p.2 == cell).map (·.1)

end Cells

/-! ## Intervals -/

/-- The bounds collected so far, last one first, with the bound last met and the cells found. -/
structure Bounds where
  bounds : List Float
  last : Float
  cellOf : List (Nat × Nat)

namespace Bounds

def empty : Bounds := ⟨[], Scalar.missing, []⟩

/-- One more bound. -/
def push (b : Bounds) (x : Float) : Bounds := { b with bounds := x :: b.bounds, last := x }

/-- The missing value as the first bound, where a partile tells it apart: it is a partile of its
own, or excluded from one that starts below every number but is not the first. -/
def separateMissing (b : Bounds) (lower upper : Float) (index : Nat) : Bounds :=
  if b.bounds.isEmpty && (upper == Scalar.missing || (0 < index && lower == Scalar.missing)) then
    { b with bounds := [Scalar.missing] }
  else b

/-- The bounds of one more partile, each once, and the cell the partile lies in: below the last
bound, or above it if the partile has no upper one. -/
def add (b : Bounds) : Partile → Bounds
  | .value .. => b
  | .interval lower upper index =>
    let b := b.separateMissing lower upper index
    let b := if lower != b.last then b.push lower else b
    let b := if upper != b.last && upper != Scalar.maxValue then b.push upper else b
    let cell := if b.last < upper then b.bounds.length else b.bounds.length - 1
    { b with cellOf := Cells.insert index cell b.cellOf }

end Bounds

/-- Descriptor of an axis cut into intervals, and its cells. -/
def intervalDescriptor (partiles : List Partile) : Formula × Cells :=
  let b := partiles.foldl Bounds.add .empty
  (⟨"IntervalBounds", b.bounds.reverse.map .continuous⟩, ⟨b.bounds.length + 1, b.cellOf⟩)

/-! ## Groups -/

/-- The groups of the partiles from a cell on: one per value, the last of the level taking every
value no group lists. -/
def groupsFrom : (cell : Nat) → List Partile → List Operand × List (Nat × Nat)
  | _, [] => ([], [])
  | cell, .interval .. :: rest => groupsFrom (cell + 1) rest
  | cell, .value value index _ :: rest =>
    let (groups, cellOf) := groupsFrom (cell + 1) rest
    let catchAll := if rest.isEmpty then [.symbol "*"] else []
    (.nested "ValueGroup" (.symbol value :: catchAll) :: groups, (index, cell) :: cellOf)

/-- The values that coarser levels keep apart. -/
def coarserValues (coarser : List (List Partile)) : List String :=
  coarser.flatten.filterMap fun p =>
    match p with
    | .value value _ [] => some value
    | _ => none

/-- Descriptor of an axis cut into groups of values, and its cells. -/
def groupDescriptor (partiles : List Partile) (coarser : List (List Partile)) : Formula × Cells :=
  let (groups, cellOf) := groupsFrom 0 partiles
  let groups :=
    if coarser.isEmpty then groups
    else groups ++ [.nested "ValueGroup" ((coarserValues coarser).map .symbol)]
  (⟨"ValueGroups", groups⟩,
    ⟨groups.length, cellOf.foldl (fun cells (index, cell) => Cells.insert index cell cells) []⟩)

namespace Space

/-! ## Descriptors -/

/-- Descriptor of an axis, and its cells. -/
def axisDescriptor (s : Space) (a : Axis) : Except BuildError (Formula × Cells) :=
  match s.dimensions[a.dimension]? with
  | none => breach .unanalysedDimension
  | some d =>
    match d.levels with
    | none => breach .unanalysedDimension
    | some levels =>
      match levels.position? a.granularity with
      | none => breach (.unanalysedGranularity a.granularity)
      | some position =>
        let partiles := levels.partilesAt position
        match d.kind with
        | .continuous => .ok (intervalDescriptor partiles)
        | .symbol => .ok (groupDescriptor partiles ((levels.take position).map (·.partiles)))
        | other => breach (.uncutDimension other)

/-- Descriptor of a partition, and the cells of its axes. -/
def descriptor (s : Space) (rank : Nat) : Except BuildError (Formula × List Cells) := do
  let axes := (s.partitions[rank]?.map (·.axes)).getD []
  let described ← axes.mapM s.axisDescriptor
  return (⟨"Partition", described.map fun (f, _) => .ofFormula f⟩, described.map (·.2))

/-- Descriptor of a partition, whose cells the space keeps from now on. -/
def describe (s : Space) (rank : Nat) : Except BuildError (Formula × Space) := do
  let (f, cells) ← s.descriptor rank
  return (f, s.modifyPartition rank fun p => { p with cells })

/-- Formula of the block of parts of a table: the table, the descriptor field, and the field of
every dimension. -/
def tableBlockFormula (s : Space) (rank : Nat) : Except BuildError Formula :=
  match s.partitions[rank]? with
  | none => breach (.unknownPartition rank)
  | some p =>
    match p.descriptorField with
    | none => breach (.noDescriptorField p.table)
    | some field => do
      let fields ← p.axes.mapM fun a =>
        match (s.dimensions[a.dimension]?).bind (·.selectionField) with
        | some name => .ok (Operand.field name)
        | none => breach .noSelectionField
      return ⟨"TablePartition", .field p.table :: .field field :: fields⟩

/-! ## Keys -/

/-- Keys are 64-bit words. -/
def keyBound : Nat := Nat.pow 2 64

/-- The number of the cell an index vector lies in, counted from zero, the first axis running
fastest. -/
def cellNumber : List Cells → List Nat → Except BuildError Nat
  | c :: cells, index :: indexes =>
    match c.cellOf.lookup index with
    | none => breach (.noCell index)
    | some cell =>
      match cellNumber cells indexes with
      | .ok number => .ok (cell + c.count * number)
      | .error e => .error e
  | _, _ => .ok 0

/-- The key of a part in the blocks of its partition. -/
def key (s : Space) (part : Part) : Except BuildError Nat :=
  match s.partitions[part.partition]? with
  | none => breach (.unknownPartition part.partition)
  | some p =>
    if p.cells.length ≠ part.indexes.length ∨ p.cells.any (·.count == 0) then
      breach (.noDescriptor p.table)
    else
      match cellNumber p.cells part.indexes with
      | .ok number => .ok ((number + 1) % keyBound)
      | .error e => .error e

/-- The index vector of the cell of a number, and what the number leaves over. -/
def indexesOf (key : Nat) : List Cells → Nat → Except BuildError (List Nat × Nat)
  | [], rest => .ok ([], rest)
  | c :: cells, number =>
    match c.index? (number % c.count) with
    | none => breach (.unknownKey key)
    | some index =>
      match indexesOf key cells (number / c.count) with
      | .ok (indexes, rest) => .ok (index :: indexes, rest)
      | .error e => .error e

/-- The index vector of the part under a key. -/
def ofKey (s : Space) (rank key : Nat) : Except BuildError (List Nat) :=
  match s.partitions[rank]? with
  | none => breach (.unknownPartition rank)
  | some p =>
    if key = 0 ∨ p.cells.any (·.count == 0) then breach (.undecodableKey key)
    else
      match indexesOf key p.cells (key - 1) with
      | .ok (indexes, 0) => .ok indexes
      | .ok _ => breach (.excessiveKey key)
      | .error e => .error e

end Space

end FeatureSynth
