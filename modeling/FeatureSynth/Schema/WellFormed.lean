/-
# Well-formed schemas

A schema is fit for use when the names of its entities differ and every entity
is in order: no two fields or blocks of one name; relations lead to entities of
the schema; every member has a key and its block is declared; and the members of
every declared block, of which there is at least one, stand together under
different keys.  `Schema.compile` checks it and names the first fault.
-/
import FeatureSynth.Error
import FeatureSynth.Schema.Basic

namespace FeatureSynth

/-- The first element of a list that stands in it before. -/
def firstRepeat {α : Type} [DecidableEq α] : (before : List α) → List α → Option α
  | _, [] => none
  | before, x :: xs => if x ∈ before then some x else firstRepeat (x :: before) xs

/-- The positions of the elements that `p` holds of; the first element is at `start`. -/
def positions {α : Type} (p : α → Bool) : (start : Nat) → List α → List Nat
  | _, [] => []
  | start, x :: xs =>
    if p x then start :: positions p (start + 1) xs else positions p (start + 1) xs

/-- Whether positions that increase leave none out: they are as many as there are from the first to
the last. -/
def consecutive : List Nat → Bool
  | [] => true
  | first :: others => others.getLastD first - first + 1 == others.length + 1

/-- Whether the elements that `p` holds of stand together. -/
def standTogether {α : Type} (p : α → Bool) (l : List α) : Bool := consecutive (positions p 0 l)

namespace Entity

/-- The fault of a field by itself, if it has one. -/
def fieldFault? (classes : List String) (f : Field) : Option EntityFault :=
  match f.type.class? with
  | some c =>
    if c ∈ classes then
      if f.block.isSome && f.key.isNone then some (.keylessMember f.name) else none
    else some (.unknownClass f.name c)
  | none => if f.block.isSome && f.key.isNone then some (.keylessMember f.name) else none

/-- The fault of a declared block, if it has one. -/
def blockFault? (e : Entity) (b : Block) : Option EntityFault :=
  if e.members b.name = [] then some (.emptyBlock b.name)
  else if !standTogether (·.isIn b.name) e.fields then some (.scatteredBlock b.name)
  else (firstRepeat [] ((e.members b.name).filterMap (·.key))).map (.repeatedKey b.name)

/-- The fault of a member whose block is not declared. -/
def memberFault? (e : Entity) (f : Field) : Option EntityFault :=
  match f.block with
  | some block => if (e.block? block).isSome then none else some (.undeclaredBlock f.name block)
  | none => none

/-- The first fault of an entity: of its names, its fields, its blocks, its members. -/
def fault? (e : Entity) (classes : List String) : Option EntityFault :=
  ((firstRepeat [] e.names).map .duplicateName).or
    ((e.fields.findSome? (fieldFault? classes)).or
      ((e.blocks.findSome? e.blockFault?).or (e.fields.findSome? e.memberFault?)))

end Entity

namespace Schema

/-- The first fault of a schema. -/
def fault? (s : Schema) : Option SchemaFault :=
  let classes := s.entities.map (·.name)
  ((firstRepeat [] classes).map .duplicateEntity).or
    (s.entities.findSome? fun e => (e.fault? classes).map (.entity e.name))

/-- Accepts the well-formed schemas. -/
def compile (s : Schema) : Except BuildError Unit :=
  match s.fault? with
  | none => .ok ()
  | some fault => .error (.invalidSchema fault)

end Schema

end FeatureSynth
