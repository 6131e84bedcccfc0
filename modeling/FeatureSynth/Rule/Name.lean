/-
# Names of rules and partitions

A readable name says what a field holds: `Sum(Orders.amount) where amount > 10`
for one part, `Sum(Orders.amount) per amount(4)` for the block of all parts.
Members of dates and times are read with a dot, statistics of tables with
parentheses; a dimension that is a rule goes by the name of the rule.
-/
import FeatureSynth.Space.Resolve
import FeatureSynth.Text.Blank

namespace FeatureSynth

namespace Partile

/-- A value as names show it: tabs are blanks, and there are no blanks at its ends. -/
def cleanValue (v : String) : String :=
  String.ofList (Text.trim (v.toList.map fun c => if c = '\t' then ' ' else c))

/-- A bound as names show it. -/
def boundText (x : Float) : String := String.ofList (Scalar.constantText x)

/-- The values of an operand that are in a partile, in words. -/
def phrase (operand : String) (kind : Kind) : Partile → String
  | .value v _ outside =>
    if kind = .symbol then
      match outside with
      | [] =>
        let v := cleanValue v
        if v = "" then operand ++ " is empty" else operand ++ " = " ++ v
      | [other] =>
        let other := cleanValue other
        if other = "" then operand ++ " not empty" else operand ++ " <> " ++ other
      | several =>
        operand ++ " not in \x7b" ++ String.intercalate ", " (several.map cleanValue) ++ "\x7d"
    else operand ++ " = " ++ cleanValue v
  | .interval lower upper index =>
    if upper == Scalar.missing then operand ++ " is missing"
    else if lower == Scalar.missing && upper == Scalar.maxValue then operand ++ " not missing"
    else if upper == Scalar.maxValue then operand ++ " > " ++ boundText lower
    else if lower == Scalar.missing && index == 0 then operand ++ " <= " ++ boundText upper
    else if lower != Scalar.missing then
      operand ++ " in ]" ++ boundText lower ++ ", " ++ boundText upper ++ "]"
    else operand ++ " <= " ++ boundText upper ++ " (and not missing)"

end Partile

namespace Template

/-- What the name of a template adds behind the dot. -/
def suffix (t : Template) : String :=
  match t.family with
  | .timestamp =>
    if t.name = "GetDate" then "Date" else if t.name = "GetTime" then "Time" else t.name
  | .timestampTZ => if t.name = "LocalTimestamp" then "LocalTZ" else t.name
  | _ => t.name

end Template

/-- Names of what selections are made of. -/
structure SelectionNames where
  /-- A partition, as the axes it is cut along. -/
  partition : Nat → Except BuildError String
  /-- A part, as the values on its axes. -/
  part : Part → Except BuildError String

namespace Rule

/-- The table a statistic or selection works on. -/
def tableName (r : Rule) : Except BuildError String :=
  match r.selectionRule?, r.operands with
  | some selection, _ =>
    match selection.fieldOperand? 0 with
    | some (name, _) => .ok name
    | none => breach (.namelessTable r.name)
  | none, .field name _ :: _ => .ok name
  | none, _ => breach (.namelessTable r.name)

/-- What follows the name of a statistic of a selection: the part, or all parts of its partition. -/
def selectionSuffix (names : SelectionNames) (asBlock : Bool) (r : Rule) :
    Except BuildError String :=
  match r.selectionRule? with
  | none => .ok ""
  | some selection =>
    match selection.partOperand? 1 with
    | none => breach (.namelessPart selection.name)
    | some part =>
      if asBlock then (names.partition part.partition).map (" per " ++ ·)
      else (names.part part).map (" where " ++ ·)

mutual

/-- The readable name of a rule: of its block if `asBlock`, of its part otherwise. -/
def nameWith (names : SelectionNames) (asBlock : Bool) : Rule → Except BuildError String
  | ⟨template, className, operands, cost, tieBreak⟩ => do
    let r : Rule := ⟨template, className, operands, cost, tieBreak⟩
    match template.family with
    | .date | .time | .timestamp | .timestampTZ =>
      return (← operandNameWith names asBlock r operands 0 0) ++ "." ++ template.suffix
    | .entity =>
      let first ← operandNameWith names asBlock r operands 0 0
      if operands.length = 1 then return template.name ++ "(" ++ first ++ ")"
      else return first ++ "." ++ (← operandNameWith names asBlock r operands 1 1)
    | .table =>
      let table ← r.tableName
      if template.selection then return table ++ (← r.selectionSuffix names asBlock)
      else
        let value ←
          if 1 < operands.length then
            -- the value inside a selection is not what the block ranges over
            (operandNameWith names (asBlock && r.selectionRule?.isNone) r operands 1 1).map ("." ++ ·)
          else pure ""
        return template.operatorName ++ "(" ++ table ++ value ++ ")" ++
          (← r.selectionSuffix names asBlock)

/-- The readable name of the operand of `r` at an index, `position` places into the operands. -/
def operandNameWith (names : SelectionNames) (asBlock : Bool) (r : Rule) :
    List (RuleOperand Rule) → (position index : Nat) → Except BuildError String
  | .field name _ :: _, 0, _ => .ok name
  | .rule inner :: _, 0, _ => nameWith names asBlock inner
  | _ :: rest, position + 1, index => operandNameWith names asBlock r rest position index
  | _, _, index => breach (.namelessOperand index r.name)

end

end Rule

namespace Space

/-- The name of a dimension, from the names of selections. -/
def dimensionNameWith (names : SelectionNames) (d : Dimension) : Except BuildError String :=
  match d.origin with
  | .field name _ => .ok name
  | .rule r => r.nameWith names false

/-- Names of selections, down to a bound. -/
def selectionNames (s : Space) : (fuel : Nat) → SelectionNames
  | 0 => ⟨fun _ => .ok "", fun _ => .ok ""⟩
  | fuel + 1 =>
    let dimensionName := dimensionNameWith (s.selectionNames fuel)
    { partition := fun rank => do
        let axes := (s.partitions[rank]?.map (·.axes)).getD []
        let names ← axes.mapM fun a => do
          let name ← match s.dimensions[a.dimension]? with
            | some d => dimensionName d
            | none => .ok ""
          return name ++ "(" ++ toString a.granularity ++ ")"
        return String.intercalate " and " names
      part := fun part => do
        let names ← (s.axesOf part).mapM fun (a, index) => do
          let (d, partile) ← s.resolve a index
          return partile.phrase (← dimensionName d) d.kind
        return String.intercalate " and " names }

/-- The readable name of a rule, of its block if `asBlock`. -/
def ruleName (s : Space) (r : Rule) (asBlock : Bool) : Except BuildError String :=
  r.nameWith (s.selectionNames s.depth) asBlock

/-- A partition as the axes it is cut along: `amount(4) and channel(2)`. -/
def partitionName (s : Space) (rank : Nat) : Except BuildError String :=
  (s.selectionNames s.depth).partition rank

/-- A part as the values on its axes: `amount > 10 and channel = web`. -/
def partName (s : Space) (part : Part) : Except BuildError String :=
  (s.selectionNames s.depth).part part

end Space

/-- Where names of generated fields and blocks come from: from what they hold, or from one
sequence of numbers. -/
structure NameSource where
  readable : Bool
  /-- The last number given out. -/
  last : Nat
deriving DecidableEq, Repr

namespace NameSource

def new (readable : Bool) : NameSource := ⟨readable, 0⟩

/-- The name with the next number. -/
def next (n : NameSource) : String × NameSource :=
  ("ConstructedFeature" ++ toString (n.last + 1), { n with last := n.last + 1 })

/-- A readable name, or the next number where names are not readable. -/
def choose (n : NameSource) (readable : Except BuildError String) :
    Except BuildError (String × NameSource) :=
  if n.readable then readable.map fun name => (name, n) else .ok n.next

/-- Name for the field of a rule, or for its block. -/
def ofRule (n : NameSource) (s : Space) (r : Rule) (asBlock : Bool) :
    Except BuildError (String × NameSource) :=
  n.choose (s.ruleName r asBlock)

/-- Name for the field that holds the descriptor of a partition. -/
def ofPartition (n : NameSource) (s : Space) (rank : Nat) :
    Except BuildError (String × NameSource) :=
  let className := (s.partitions[rank]?.map (·.className)).getD ""
  n.choose ((s.partitionName rank).map fun axes => "Partition(" ++ className ++ ") per " ++ axes)

/-- Name for the block of the parts of a table. -/
def ofTableBlock (n : NameSource) (s : Space) (rank : Nat) :
    Except BuildError (String × NameSource) :=
  let table := (s.partitions[rank]?.map (·.table)).getD ""
  n.choose ((s.partitionName rank).map fun axes => "TablePartition(" ++ table ++ ") per " ++ axes)

/-- Name for one part of a table. -/
def ofPart (n : NameSource) (s : Space) (part : Part) : Except BuildError (String × NameSource) :=
  let table := (s.partitions[part.partition]?.map (·.table)).getD ""
  n.choose ((s.partName part).map fun values => table ++ " where " ++ values)

end NameSource

end FeatureSynth
