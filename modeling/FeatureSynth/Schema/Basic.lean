/-
# Schemas

A schema is an ordered list of entities, the first of which is the main one.  An
entity has fields in a fixed order and declares blocks.  A block groups fields
that share one formula: its members are the fields that name it, each under a key
of its own.  Fields and blocks of an entity share one space of names.
-/
import FeatureSynth.Kind
import FeatureSynth.Formula.Basic

namespace FeatureSynth

/-- Numbers attached to a field, under words in increasing order. -/
abbrev Notes := List (String × Float)

namespace Notes

/-- The notes without the one under a word. -/
def erase (word : String) (notes : Notes) : Notes := notes.filter fun n => n.1 != word

/-- Places a note before the first greater word. -/
def place (word : String) (value : Float) : Notes → Notes
  | [] => [(word, value)]
  | n :: rest =>
    if compare word n.1 = .lt then (word, value) :: n :: rest else n :: place word value rest

/-- The notes with a value under a word, in place of any former one. -/
def set (word : String) (value : Float) (notes : Notes) : Notes :=
  place word value (notes.erase word)

end Notes

/-- A field of an entity. -/
structure Field where
  name : String
  type : FieldType
  /-- Part of the model's input. -/
  used : Bool
  /-- Computed or read when a record is loaded. -/
  loaded : Bool
  /-- The formula of a derived field. -/
  formula : Option Formula
  cost : Float
  notes : Notes
  /-- The block a member belongs to. -/
  block : Option String
  /-- Key of a member inside its block. -/
  key : Option Nat
deriving DecidableEq

namespace Field

/-- A stored field, used and loaded. -/
def native (name : String) (type : FieldType) : Field :=
  { name, type, used := true, loaded := true, formula := none, cost := 0, notes := [],
    block := none, key := none }

/-- A field computed by a formula; it starts unused. -/
def derived (name : String) (type : FieldType) (formula : Formula) : Field :=
  { native name type with used := false, formula := some formula }

/-- A member of a block; it starts unused, and the block's formula gives its value. -/
def member (name : String) (type : FieldType) (block : String) (key : Nat) : Field :=
  { native name type with used := false, block := some block, key := some key }

def isDerived (f : Field) : Bool := f.formula.isSome

/-- Whether a field is a member of a block. -/
def isIn (block : String) (f : Field) : Bool := f.block == some block

end Field

/-- A declared block. -/
structure Block where
  name : String
  formula : Formula
deriving DecidableEq

/-- A class of records: its fields in order, and its blocks. -/
structure Entity where
  name : String
  fields : List Field
  blocks : List Block
deriving DecidableEq

namespace Entity

/-- The first field of a name. -/
def field? (e : Entity) (name : String) : Option Field := e.fields.find? (·.name == name)

/-- The first block of a name. -/
def block? (e : Entity) (name : String) : Option Block := e.blocks.find? (·.name == name)

/-- Whether a field or a block carries a name. -/
def hasName (e : Entity) (name : String) : Bool :=
  (e.field? name).isSome || (e.block? name).isSome

/-- Names of the fields and blocks. -/
def names (e : Entity) : List String := e.fields.map (·.name) ++ e.blocks.map (·.name)

/-- The members of a block, in order. -/
def members (e : Entity) (block : String) : List Field := e.fields.filter (·.isIn block)

/-- The first member of a block under a key. -/
def member? (e : Entity) (block : String) (key : Nat) : Option Field :=
  e.fields.find? fun f => f.isIn block && f.key == some key

end Entity

/-- Entities in order, the main one first. -/
structure Schema where
  entities : List Entity
deriving DecidableEq

namespace Schema

/-- The main entity. -/
def main? (s : Schema) : Option Entity := s.entities.head?

/-- The first entity of a name. -/
def entity? (s : Schema) (name : String) : Option Entity := s.entities.find? (·.name == name)

end Schema

end FeatureSynth
