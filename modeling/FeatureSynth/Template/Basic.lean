/-
# Templates

A template is a way of computing a value: a formula operator with typed operand
slots and a kind of result.  Statistics of tables have two variants for blocks.
The *partition statistic* computes the statistic for every part of a partitioned
table at once; the *value statistic* applies it to every member of a block.
-/
import FeatureSynth.Schema.Basic

namespace FeatureSynth

/-- What a template works on, which also decides how its rules are named. -/
inductive Family where
  | date
  | time
  | timestamp
  | timestampTZ
  | entity
  | table
deriving DecidableEq, Repr

/-- A way of computing a value. -/
structure Template where
  /-- The formula operator. -/
  name : String
  family : Family
  /-- Relation results take their class from operand 0. -/
  result : Kind
  slots : List Kind
  /-- The template restricts a table to one part of a partition. -/
  selection : Bool
  partitionStatistic : Option String
  valueStatistic : Option String
deriving DecidableEq, Repr

namespace Template

/-- The word that statistics of tables start with. -/
def tableWord : String := "Table"

/-- The operator as it reads in names: without the leading word of table statistics. -/
def operatorName (t : Template) : String :=
  let rest := t.name.toList.drop tableWord.length
  if tableWord.toList.isPrefixOf t.name.toList && !rest.isEmpty then String.ofList rest else t.name

/-- The template's operator applied to operands. -/
def formula (t : Template) (operands : List Operand) : Formula := ⟨t.name, operands⟩

end Template

/-- Templates in order. -/
abbrev Catalogue := List Template

namespace Catalogue

/-- The first template of a name. -/
def template? (c : Catalogue) (name : String) : Option Template := c.find? (·.name == name)

/-- Whether a field can fill the first slot of a template; the class of a relation has to be
part of the schema. -/
def fills (schema : Schema) (slot : Kind) (f : Field) : Bool :=
  f.type.kind == slot && (f.type.class?.all fun c => (schema.entity? c).isSome)

/-- The templates whose first slot some field of the entity can fill. -/
def applicable (c : Catalogue) (e : Entity) (schema : Schema) : List Template :=
  c.filter fun t =>
    match t.slots with
    | [] => false
    | slot :: _ => e.fields.any (fills schema slot)

end Catalogue

end FeatureSynth
