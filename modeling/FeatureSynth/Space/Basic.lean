/-
# The partition space

Selections restrict a table to a part of a partition.  The space owns what they
refer to.  A *dimension* is a value every record of a class has, a field or a
rule; a *partition* cuts the table a relation field leads to along axes, each a
dimension at a granularity; a *part* of it is known by one partile index per axis.

Dimensions and partitions are registered once and known by their rank.  To
register an equal one again gives the same rank, so ranks are equal exactly when
structures are.  A registration that is refused changes nothing.
-/
import FeatureSynth.Partile.Basic
import FeatureSynth.Rule.Signature

namespace FeatureSynth

/-- Where the values of a dimension come from. -/
inductive DimensionOrigin where
  | field (name : String) (type : FieldType)
  | rule (rule : Rule)

/-- A value of every record of a class, along which tables are cut. -/
structure Dimension where
  className : String
  origin : DimensionOrigin
  uses : Nat
  /-- The partiles of its values, once they were analysed. -/
  levels : Option Levels
  /-- The field of the schema in work that holds its values. -/
  selectionField : Option String

namespace Dimension

def type (d : Dimension) : Except BuildError FieldType :=
  match d.origin with
  | .field _ type => .ok type
  | .rule r => r.resultType

def kind (d : Dimension) : Kind :=
  match d.type with
  | .ok type => type.kind
  | .error _ => .structured

/-- The rule of a dimension that has one. -/
def rule? (d : Dimension) : Option Rule :=
  match d.origin with
  | .field .. => none
  | .rule r => some r

end Dimension

/-- A dimension, by its rank, at a granularity. -/
structure Axis where
  dimension : Nat
  granularity : Nat
deriving DecidableEq, Repr

/-- What is kept for a part. -/
structure PartEntry where
  uses : Nat
  cost : Float

/-- How the partile indexes of an axis map to the cells of a descriptor. -/
structure Cells where
  count : Nat
  /-- The cell of each analysed index, by increasing index. -/
  cellOf : List (Nat × Nat)
deriving DecidableEq, Repr

/-- The cells of an axis that has no descriptor yet. -/
def Cells.none : Cells := ⟨0, []⟩

/-- The table of a class, cut along axes. -/
structure Partition where
  /-- Class of the records of the table. -/
  className : String
  /-- Class that owns the table field. -/
  parentClass : String
  table : String
  axes : List Axis
  /-- The parts, by increasing indexes. -/
  parts : List (List Nat × PartEntry)
  uses : Nat
  /-- The field that holds the descriptor, in the schema in work. -/
  descriptorField : Option String
  /-- The block of parts of the table, in the schema in work. -/
  tableBlock : Option String
  cells : List Cells

namespace Partition

/-- The entry of a part. -/
def part? (p : Partition) (indexes : List Nat) : Option PartEntry := p.parts.lookup indexes

/-- Number of parts the granularities allow. -/
def size (p : Partition) : Nat := (p.axes.map (·.granularity)).foldl (· * ·) 1

/-- The parts with one more, unless it is among them. -/
def insertPart (indexes : List Nat) (cost : Float) :
    List (List Nat × PartEntry) → List (List Nat × PartEntry)
  | [] => [(indexes, ⟨0, cost⟩)]
  | p :: rest =>
    match compare indexes p.1 with
    | .lt => (indexes, ⟨0, cost⟩) :: p :: rest
    | .eq => p :: rest
    | .gt => p :: insertPart indexes cost rest

end Partition

/-- Dimensions and partitions in order of registration. -/
structure Space where
  dimensions : List Dimension
  partitions : List Partition

namespace Space

def empty : Space := ⟨[], []⟩

/-- The entry of a part, if its partition has it. -/
def part? (s : Space) (part : Part) : Option PartEntry :=
  (s.partitions[part.partition]?).bind (·.part? part.indexes)

/-- The dimensions of a partition's axes. -/
def axisDimensions (s : Space) (p : Partition) : List Dimension :=
  p.axes.filterMap fun a => s.dimensions[a.dimension]?

/-- The rules of the dimensions a part is cut along. -/
def dimensionRules (s : Space) (part : Part) : List Rule :=
  match s.partitions[part.partition]? with
  | some p => (s.axisDimensions p).filterMap (·.rule?)
  | none => []

/-- Bound on the rules passed on a way from a rule to the rules of the dimensions it selects on,
and on: each step leads to dimensions registered earlier. -/
def depth (s : Space) : Nat := s.dimensions.length + 1

/-! ## Registration -/

/-- Only simple values that can be cut make a dimension. -/
def checkDimension (name : String) (type : FieldType) : Except BuildError Unit :=
  match type.kind with
  | .continuous | .symbol => .ok ()
  | _ => breach (.compoundDimension name type)

/-- Whether a dimension is the field of a class. -/
def isField (className field : String) (d : Dimension) : Bool :=
  d.className == className &&
    match d.origin with
    | .field name _ => name == field
    | .rule _ => false

/-- Whether a dimension is a rule, up to costs. -/
def isRule (rule : Rule) (d : Dimension) : Bool :=
  d.className == rule.className &&
    match d.origin with
    | .field .. => false
    | .rule r => r.signature.compare rule.signature == .eq

/-- The rank of the dimension that `same` holds of, registered as a new one if there is none. -/
def intern (s : Space) (same : Dimension → Bool) (className : String) (origin : DimensionOrigin) :
    Nat × Space :=
  match s.dimensions.findIdx? same with
  | some rank => (rank, s)
  | none =>
    (s.dimensions.length,
      { s with dimensions := s.dimensions ++ [⟨className, origin, 0, none, none⟩] })

/-- Registers the field of a class as a dimension. -/
def addFieldDimension (s : Space) (className field : String) (type : FieldType) :
    Except BuildError (Nat × Space) := do
  checkDimension field type
  return s.intern (isField className field) className (.field field type)

/-- Registers a rule as a dimension of its class. -/
def addRuleDimension (s : Space) (rule : Rule) : Except BuildError (Nat × Space) := do
  checkDimension rule.name (← rule.resultType)
  return s.intern (isRule rule) rule.className (.rule rule)

/-- Powers of two, from `2 ^ 0` on. -/
def isPowerOfTwo (n : Nat) : Bool := n == Nat.pow 2 n.log2

/-- The fault of an axis on a table of a class, if it has one. -/
def axisFault? (s : Space) (tableClass : String) (a : Axis) : Option PartitionFault :=
  match s.dimensions[a.dimension]? with
  | none => some (.unknownDimension a.dimension)
  | some d =>
    if d.className ≠ tableClass then some (.foreignDimension d.className tableClass)
    else if a.granularity < 2 ∨ !isPowerOfTwo a.granularity then some (.granularity a.granularity)
    else none

/-- Whether a partition cuts a table along axes. -/
def isPartition (parentClass table : String) (axes : List Axis) (p : Partition) : Bool :=
  p.parentClass == parentClass && p.table == table && p.axes == axes

/-- Registers the partition of a table along axes. -/
def addPartition (s : Space) (parentClass table : String) (type : FieldType) (axes : List Axis) :
    Except BuildError (Nat × Space) :=
  match type with
  | .objectArray className =>
    if axes = [] then breach (.partition parentClass .noDimension)
    else
      match axes.findSome? (s.axisFault? className) with
      | some fault => breach (.partition parentClass fault)
      | none =>
        match s.partitions.findIdx? (isPartition parentClass table axes) with
        | some rank => .ok (rank, s)
        | none =>
          let p : Partition :=
            { className, parentClass, table, axes, parts := [], uses := 0, descriptorField := none,
              tableBlock := none, cells := axes.map fun _ => .none }
          .ok (s.partitions.length, { s with partitions := s.partitions ++ [p] })
  | _ => breach (.partition parentClass (.notTable table))

/-- Whether an index vector picks a partile on each axis. -/
def fits (axes : List Axis) (indexes : List Nat) : Bool :=
  indexes.length == axes.length && (indexes.zip axes).all fun (i, a) => i < a.granularity

/-- The space with a partition changed. -/
def modifyPartition (s : Space) (rank : Nat) (change : Partition → Partition) : Space :=
  { s with partitions := s.partitions.modify rank change }

/-- The space with a dimension changed. -/
def modifyDimension (s : Space) (rank : Nat) (change : Dimension → Dimension) : Space :=
  { s with dimensions := s.dimensions.modify rank change }

/-- Adds a part to a partition; a part that is there keeps its cost. -/
def addPart (s : Space) (rank : Nat) (indexes : List Nat) (cost : Float) :
    Except BuildError (Part × Space) :=
  match s.partitions[rank]? with
  | none => breach (.unknownPartition rank)
  | some p =>
    if fits p.axes indexes then
      .ok (⟨rank, indexes⟩, s.modifyPartition rank fun p =>
        { p with parts := Partition.insertPart indexes cost p.parts })
    else breach (.unfitPart indexes p.table)

/-! ## Links and analysis -/

/-- The space without the names that belong to a schema in work. -/
def clearLinks (s : Space) : Space :=
  { dimensions := s.dimensions.map fun d => { d with selectionField := none }
    partitions := s.partitions.map fun p => { p with descriptorField := none, tableBlock := none } }

/-- The space without what an analysis found. -/
def clearLevels (s : Space) : Space :=
  { s with dimensions := s.dimensions.map fun d => { d with levels := none } }

/-- Number of parts that the analysed partiles make; none before all axes were analysed. -/
def actualSize? (s : Space) (rank : Nat) : Option Nat := do
  let p ← s.partitions[rank]?
  p.axes.foldlM (fun size a => do
    let levels ← (← s.dimensions[a.dimension]?).levels
    let position ← levels.position? a.granularity
    return size * (levels.partilesAt position).length) 1

end Space

end FeatureSynth
