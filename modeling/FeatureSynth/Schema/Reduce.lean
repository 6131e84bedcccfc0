/-
# Reduced schemas

An analysis samples the fields that hold the values of dimensions.  It works on a
reduced schema: the classes of these fields are loaded, and so is every class that
reaches a loaded one through a used relation.  Only the relations between loaded
classes and the sampled fields themselves stay used.  Derived fields and members
are dropped unless a used field needs them, directly or through other formulas; a
block goes with its last member.
-/
import FeatureSynth.Saturate
import FeatureSynth.Schema.Basic

namespace FeatureSynth

/-- A field or block, by the class it belongs to. -/
structure FieldPath where
  className : String
  name : String
deriving DecidableEq, Repr

namespace Schema

/-! ## Loaded classes -/

/-- Whether a field is a used relation to one of some classes. -/
def leadsInto (loaded : List String) (f : Field) : Bool := f.used && f.type.class?.any loaded.contains

/-- The classes with a used relation to one of some classes. -/
def reaching (s : Schema) (loaded : List String) : List String :=
  (s.entities.filter (·.fields.any (leadsInto loaded))).map (·.name)

/-- The classes to load for the sake of some classes. -/
def loadedClasses (s : Schema) (sampled : List String) : List String :=
  saturate s.reaching s.entities.length sampled.eraseDups

/-! ## Used fields -/

/-- The used relations between loaded classes. -/
def loadedRelations (s : Schema) (loaded : List String) : List FieldPath :=
  (s.entities.filter (loaded.contains ·.name)).flatMap fun e =>
    (e.fields.filter (leadsInto loaded)).map fun f => ⟨e.name, f.name⟩

/-- The schema with the given fields used and loaded, and no others used. -/
def useOnly (kept : List FieldPath) (s : Schema) : Schema :=
  ⟨s.entities.map fun e =>
    { e with
      fields := e.fields.map fun f =>
        if kept.contains ⟨e.name, f.name⟩ then { f with used := true, loaded := true }
        else { f with used := false } }⟩

/-! ## Needed fields -/

/-- What the fields and blocks of a name refer to in an entity: the names in their formulas, and
the block a member belongs to. -/
def references (e : Entity) (name : String) : List String :=
  (((e.field? name).bind (·.formula)).map Formula.refs).getD [] ++
    ((e.block? name).map (·.formula.refs)).getD [] ++
    ((e.field? name).bind (·.block)).toList

/-- What some names refer to; a name counts in every class. -/
def allReferences (s : Schema) (names : List String) : List String :=
  names.flatMap fun name => s.entities.flatMap (references · name)

/-- Names of the used fields. -/
def usedNames (s : Schema) : List String :=
  s.entities.flatMap fun e => (e.fields.filter (·.used)).map (·.name)

/-- The names used fields need, their own among them. -/
def neededNames (s : Schema) : List String :=
  saturate s.allReferences ((s.entities.map fun e => e.fields.length + e.blocks.length).foldr (· + ·) 1)
    s.usedNames.eraseDups

/-- An entity without the derived fields and members that are not needed, and without the blocks
left empty. -/
def keepNeeded (needed : List String) (e : Entity) : Entity :=
  let fields := e.fields.filter fun f =>
    f.used || !(f.isDerived || f.block.isSome) || needed.contains f.name
  { e with fields, blocks := e.blocks.filter fun b => fields.any (·.isIn b.name) }

/-- The schema without what used fields do not need. -/
def dropUnneeded (s : Schema) : Schema := ⟨s.entities.map (keepNeeded s.neededNames)⟩

/-- The schema reduced to what it takes to sample some fields. -/
def reduceTo (s : Schema) (sampled : List FieldPath) : Schema :=
  let loaded := s.loadedClasses (sampled.map (·.className))
  dropUnneeded (useOnly (sampled ++ s.loadedRelations loaded) s)

end Schema

end FeatureSynth
