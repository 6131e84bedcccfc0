/-
# Edits of an entity

A build adds fields and blocks to entities and moves what it added to the tail.
Members of a block stay together: a new member goes right behind the last one, a
block moves as a whole, and sorting a block by key permutes its members among
the places they hold.  Moved fields keep their order, and so do the others.
-/
import FeatureSynth.Error
import FeatureSynth.Schema.Basic

namespace FeatureSynth

namespace Entity

/-! ## Free names -/

/-- The first name among `stem_i`, `stem_(i+1)`, … that is not taken, tried `fuel` times. -/
def firstFree (taken : String → Bool) (stem : String) : (fuel i : Nat) → String
  | 0, _ => stem
  | fuel + 1, i =>
    let candidate := stem ++ "_" ++ toString i
    if taken candidate then firstFree taken stem fuel (i + 1) else candidate

/-- A name no field or block carries: the stem itself, or the stem with the least number that
makes it free.  There are at most as many tries as names. -/
def freeName (e : Entity) (stem : String) : String :=
  if e.hasName stem then firstFree e.hasName stem (e.fields.length + e.blocks.length) 1 else stem

/-! ## Insertions -/

/-- The entity with a field at the tail. -/
def insertField (e : Entity) (f : Field) : Entity := { e with fields := e.fields ++ [f] }

/-- A field as a member of a block: the block's formula takes the place of its own. -/
def asMember (f : Field) (block : String) : Field := { f with block := some block, formula := none }

/-- The entity with one more block, whose first member goes to the tail. -/
def addBlock (e : Entity) (b : Block) (first : Field) : Entity :=
  { e with fields := e.fields ++ [asMember first b.name], blocks := e.blocks ++ [b] }

/-- The fields with one more right behind the last of those that `isMember` holds of. -/
def insertBehind (isMember : Field → Bool) (f : Field) : List Field → List Field
  | [] => []
  | x :: xs =>
    if isMember x && !xs.any isMember then x :: f :: xs else x :: insertBehind isMember f xs

/-- The entity with one more member of a block that has members. -/
def insertMember (e : Entity) (block : String) (f : Field) : Except BuildError Entity :=
  if e.fields.any (·.isIn block) then
    .ok { e with fields := insertBehind (·.isIn block) (asMember f block) e.fields }
  else breach (.memberlessBlock block e.name)

/-! ## Moves -/

/-- A list with its first element that `p` holds of moved to the tail. -/
def firstToTail {α : Type} (p : α → Bool) : List α → List α
  | [] => []
  | x :: xs => if p x then xs ++ [x] else x :: firstToTail p xs

/-- The entity with a field moved to the tail. -/
def moveFieldToTail (e : Entity) (name : String) : Entity :=
  { e with fields := firstToTail (·.name == name) e.fields }

/-- The entity with the members of a block, and its declaration, moved to the tail. -/
def moveBlockToTail (e : Entity) (block : String) : Entity :=
  { e with
    fields := e.fields.filter (!·.isIn block) ++ e.fields.filter (·.isIn block)
    blocks := firstToTail (·.name == block) e.blocks }

/-- Increasing order of keys; fields without one come first. -/
def keyLE (a b : Field) : Bool :=
  match a.key, b.key with
  | none, _ => true
  | some _, none => false
  | some i, some j => i ≤ j

/-- The fields with those that `isMember` holds of replaced, in order, by the given ones. -/
def refill (isMember : Field → Bool) : List Field → List Field → List Field
  | [], _ => []
  | x :: xs, [] => x :: xs
  | x :: xs, m :: ms => if isMember x then m :: refill isMember xs ms else x :: refill isMember xs (m :: ms)

/-- The entity with the members of a block in order of their keys. -/
def sortBlock (e : Entity) (block : String) : Entity :=
  { e with fields := refill (·.isIn block) e.fields ((e.members block).mergeSort keyLE) }

/-- The entity with every field used, or none. -/
def setAllUsed (e : Entity) (used : Bool) : Entity :=
  { e with fields := e.fields.map fun f => { f with used } }

/-- The entity with its first field of a name changed. -/
def modifyField (e : Entity) (name : String) (change : Field → Field) : Entity :=
  let rec go : List Field → List Field
    | [] => []
    | f :: rest => if f.name == name then change f :: rest else f :: go rest
  { e with fields := go e.fields }

end Entity

namespace Schema

/-- The entity of a name that has to be there. -/
def entity (s : Schema) (name : String) : Except BuildError Entity :=
  match s.entity? name with
  | some e => .ok e
  | none => breach (.unknownClass name)

/-- The schema with its first entity of a name replaced. -/
def setEntity (s : Schema) (name : String) (e : Entity) : Schema :=
  let rec go : List Entity → List Entity
    | [] => []
    | x :: rest => if x.name == name then e :: rest else x :: go rest
  ⟨go s.entities⟩

end Schema

end FeatureSynth
