/-
# The state of a build

A build works on a copy of the schema.  It keeps the registry in step with that
copy, notes what it created, and binds dimensions and partitions of the space to
the fields and blocks that hold them.  A step either succeeds or fails with a
cause; what it did to the state up to there stays.
-/
import FeatureSynth.Interrupt
import FeatureSynth.Ledger
import FeatureSynth.Options
import FeatureSynth.Registry
import FeatureSynth.Rule.Name
import FeatureSynth.Schema.Edit
import FeatureSynth.Schema.Reduce

namespace FeatureSynth

/-- What a build works on. -/
structure BuildState where
  schema : Schema
  registry : Registry
  space : Space
  names : NameSource
  /-- The fields that realize sub-rules. -/
  fieldOf : Ledger
  /-- The blocks that realize block rules. -/
  blockOf : Ledger
  /-- In order of creation. -/
  createdFields : List FieldPath
  createdBlocks : List FieldPath
  /-- How often an existing field was found instead of a new one made. -/
  reused : Nat
  interrupt : Interrupt

/-- A step of a build. -/
abbrev Build (α : Type) := ExceptT BuildError (StateM BuildState) α

namespace BuildState

/-- The state before any step: links to former schemas are cut. -/
def start (catalogue : Catalogue) (o : Options) (schema : Schema) (space : Space)
    (interrupt : Interrupt) : BuildState :=
  { schema, registry := .collect catalogue schema, space := space.clearLinks
    names := .new o.readableNames, fieldOf := .empty, blockOf := .empty, createdFields := [],
    createdBlocks := [], reused := 0, interrupt }

/-- Whether the build created a field. -/
def isCreated (b : BuildState) (className name : String) : Bool :=
  b.createdFields.contains ⟨className, name⟩

/-- The field that realizes a rule, if it is known. -/
def fieldOf? (b : BuildState) (r : Rule) : Option String :=
  b.fieldOf.name? b.space.compareCostName r

end BuildState

namespace Build

/-- A result that depends on nothing. -/
def lift {α : Type} : Except BuildError α → Build α
  | .ok a => pure a
  | .error e => throw e

/-- Stops if that was asked for. -/
def checkInterrupt : Build Unit := do
  let (seen, rest) := (← get).interrupt.look
  modify fun b => { b with interrupt := rest }
  if seen then throw .interrupted

/-! ## Registry and schema -/

/-- The registry's record of a class. -/
def record (className : String) : Build ClassRecord := do lift ((← get).registry.record className)

/-- Replaces the record of a class. -/
def setRecord (className : String) (c : ClassRecord) : Build Unit :=
  modify fun b => { b with registry := b.registry.set className c }

/-- Replaces the record of a class by one that registers more. -/
def register (className : String) (more : ClassRecord → Except BuildError ClassRecord) :
    Build Unit := do
  setRecord className (← lift (more (← record className)))

/-- An entity of the schema in work. -/
def entity (className : String) : Build Entity := do lift ((← get).schema.entity className)

/-- Edits an entity of the schema in work. -/
def edit (className : String) (change : Entity → Except BuildError Entity) : Build Unit := do
  let e ← lift (change (← entity className))
  modify fun b => { b with schema := b.schema.setEntity className e }

/-- Counts an existing field that answers a request. -/
def reuse (name : String) : Build String := do
  modify fun b => { b with reused := b.reused + 1 }
  return name

/-! ## Names -/

/-- The next name of a kind. -/
def nextName (make : NameSource → Space → Except BuildError (String × NameSource)) :
    Build String := do
  let b ← get
  let (name, names) ← lift (make b.names b.space)
  modify fun b => { b with names }
  return name

/-- A name for a new field or block of a class that is free there. -/
def freeName (className : String)
    (make : NameSource → Space → Except BuildError (String × NameSource)) : Build String := do
  let stem ← nextName make
  return (← entity className).freeName stem

/-! ## Creation -/

/-- Notes a field as created. -/
def noteField (className name : String) : Build Unit :=
  modify fun b =>
    if b.isCreated className name then b
    else { b with createdFields := b.createdFields ++ [⟨className, name⟩] }

/-- Notes a block as created. -/
def noteBlock (className name : String) : Build Unit :=
  modify fun b => { b with createdBlocks := b.createdBlocks ++ [⟨className, name⟩] }

/-- Adds a derived field to a class, and to the registry. -/
def insertDerived (className : String) (f : Field) : Build String := do
  register className (·.registerDerived f)
  edit className fun e => .ok (e.insertField f)
  noteField className f.name
  return f.name

/-- A candidate's field is used and loaded, and carries the candidate's cost. -/
def markCandidate (className name : String) (cost : Float) : Build Unit :=
  edit className fun e =>
    if (e.field? name).isSome then
      .ok (e.modifyField name fun f => { f with used := true, loaded := true, cost })
    else breach (.unknownField name className)

/-! ## Ledgers -/

/-- Notes the field that realizes a rule. -/
def recordField (r : Rule) (name : String) : Build Unit :=
  modify fun b => { b with fieldOf := b.fieldOf.record b.space.compareCostName r name }

/-- Enters every rule met in a rule into the ledger of fields. -/
def collectFields (r : Rule) : Build Unit :=
  modify fun b =>
    { b with fieldOf := (b.space.subrules r).foldl (·.enter b.space.compareCostName ·) b.fieldOf }

/-- Enters every block rule met in a rule into the ledger of blocks. -/
def collectBlocks (r : Rule) : Build Unit :=
  modify fun b =>
    { b with blockOf := (b.space.blockRules r).foldl (·.enter b.space.compareBlock ·) b.blockOf }

end Build

end FeatureSynth
