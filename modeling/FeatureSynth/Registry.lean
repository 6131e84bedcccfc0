/-
# The registry

Before it creates a field, a build asks the registry whether the schema already
computes what is needed.  A class record indexes the derived fields, the block
members and the blocks of one entity by formula, as far as some template that
applies to the entity could have produced them; members also by their key.  The
first field with a formula wins, and a used one that repeats a formula is
redundant.

Lookups of rules are remembered under signatures, negative ones too.  Once every
indexed derived field has answered some rule, no further rule can match one, and
what is not remembered by then is answered without a search.
-/
import FeatureSynth.Rule.Formula

namespace FeatureSynth

/-- What one entity already computes. -/
structure ClassRecord where
  className : String
  /-- The templates that apply to the entity. -/
  templates : Catalogue
  /-- The operators these templates can produce. -/
  operators : List String
  /-- Derived fields under their formula, and members under the formula of their block and their
  key. -/
  fields : List ((Formula × Option Nat) × String)
  blocks : List (Formula × String)
  /-- Used fields whose formula an earlier field has. -/
  redundant : List String
  /-- Number of derived fields indexed. -/
  derivedCount : Nat
  /-- Derived fields that have answered a rule. -/
  matched : List String
  /-- Answers given, under the signatures of the rules. -/
  memo : List (Signature × Option String)

namespace ClassRecord

/-! ## Collection -/

/-- The operators a template can produce: its own and those of its variants, and those of
descriptors if it selects. -/
def operatorsOf (t : Template) : List String :=
  t.name :: (if t.selection then ["Partition", "TablePartition"] else []) ++
    t.partitionStatistic.toList ++ t.valueStatistic.toList

/-- Whether a template that applies could have produced an operator. -/
def isUsable (c : ClassRecord) (operator : String) : Bool := c.operators.contains operator

/-- Indexes an entry under a key, unless there is one. -/
def insertNew {κ : Type} [BEq κ] (key : κ) (name : String) (entries : List (κ × String)) :
    List (κ × String) :=
  if (entries.lookup key).isSome then entries else entries ++ [(key, name)]

/-- Indexes a derived field under its formula. -/
def addDerived (c : ClassRecord) (f : Field) (formula : Formula) : ClassRecord :=
  if c.isUsable formula.name && (c.fields.lookup (formula, none)).isNone then
    { c with
      fields := c.fields ++ [((formula, none), f.name)]
      derivedCount := c.derivedCount + 1 }
  else c

/-- Indexes a member under the formula of its block. -/
def addMember (c : ClassRecord) (e : Entity) (f : Field) : ClassRecord :=
  match f.block.bind e.block?, f.key with
  | some b, some key =>
    if c.isUsable b.formula.name then
      { c with fields := insertNew (b.formula, some key) f.name c.fields }
    else c
  | _, _ => c

/-- Indexes a field of an entity. -/
def addField (e : Entity) (c : ClassRecord) (f : Field) : ClassRecord :=
  match f.formula with
  | some formula => c.addDerived f formula
  | none => c.addMember e f

/-- Indexes a block. -/
def addBlock (c : ClassRecord) (b : Block) : ClassRecord :=
  if c.isUsable b.formula.name then { c with blocks := insertNew b.formula b.name c.blocks } else c

/-- The used fields whose formula an earlier field has. -/
def redundantFields : (seen : List Formula) → List Field → List String
  | _, [] => []
  | seen, f :: rest =>
    match f.formula with
    | none => redundantFields seen rest
    | some formula =>
      if seen.contains formula then
        if f.used then f.name :: redundantFields seen rest else redundantFields seen rest
      else redundantFields (formula :: seen) rest

/-- The record of an entity. -/
def collect (catalogue : Catalogue) (schema : Schema) (e : Entity) : ClassRecord :=
  let templates := catalogue.applicable e schema
  let blank : ClassRecord :=
    { className := e.name, templates, operators := templates.flatMap operatorsOf, fields := [],
      blocks := [], redundant := redundantFields [] e.fields, derivedCount := 0, matched := [],
      memo := [] }
  e.blocks.foldl addBlock (e.fields.foldl (addField e) blank)

/-- Whether a template that applies selects. -/
def selects (c : ClassRecord) : Bool := c.templates.any (·.selection)

/-! ## Lookups -/

/-- The field with a formula. -/
def field? (c : ClassRecord) (f : Formula) : Option String := c.fields.lookup (f, none)

/-- The member under a key of the block with a formula. -/
def member? (c : ClassRecord) (f : Formula) (key : Nat) : Option String :=
  c.fields.lookup (f, some key)

/-- The block with a formula. -/
def block? (c : ClassRecord) (f : Formula) : Option String := c.blocks.lookup f

/-- The answer given for a signature. -/
def remembered? (c : ClassRecord) (signature : Signature) : Option (Option String) :=
  (c.memo.find? fun entry => entry.1.compare signature == .eq).map (·.2)

/-- The record without negative answers. -/
def forgetNegative (c : ClassRecord) : ClassRecord :=
  { c with memo := c.memo.filter (·.2.isSome) }

/-- Notes that a derived field has answered a rule; negative answers go once all have. -/
def noteMatch (c : ClassRecord) (name : String) : ClassRecord :=
  if c.matched.contains name then c
  else
    let c := { c with matched := name :: c.matched }
    if c.matched.length = c.derivedCount then c.forgetNegative else c

/-- Remembers an answer. -/
def remember (c : ClassRecord) (signature : Signature) (answer : Option String) : ClassRecord :=
  { c with memo := (signature, answer) :: c.memo }

/-- The field that computes a rule, and the record that remembers the answer. -/
def lookupRule (c : ClassRecord) (s : Space) (r : Rule) :
    Except BuildError (Option String × ClassRecord) :=
  if c.derivedCount = 0 then .ok (none, c)
  else
    match c.remembered? r.signature with
    | some answer => .ok (answer, c)
    | none =>
      if c.matched.length = c.derivedCount then .ok (none, c)
      else
        match s.formula r with
        | .error e => .error e
        | .ok f =>
          match c.field? f with
          | some name => .ok (some name, (c.noteMatch name).remember r.signature (some name))
          | none => .ok (none, c.remember r.signature none)

/-! ## Registration -/

/-- Indexes a derived field created by a build, whose formula has to be new. -/
def registerDerived (c : ClassRecord) (f : Field) : Except BuildError ClassRecord :=
  match f.formula with
  | none => breach (.noFormula c.className f.name)
  | some formula =>
    if (c.field? formula).isSome then breach (.formulaTaken c.className formula)
    else
      .ok (forgetNegative
        { c with
          fields := c.fields ++ [((formula, none), f.name)]
          derivedCount := c.derivedCount + 1 })

/-- Indexes a member created by a build, whose key has to be new. -/
def registerMember (c : ClassRecord) (formula : Formula) (f : Field) :
    Except BuildError ClassRecord :=
  match f.key with
  | none => breach (.noKey c.className f.name)
  | some key =>
    if (c.member? formula key).isSome then breach (.keyTaken c.className key formula)
    else .ok { c with fields := c.fields ++ [((formula, some key), f.name)] }

/-- Indexes a block created by a build, whose formula has to be new. -/
def registerBlock (c : ClassRecord) (b : Block) : Except BuildError ClassRecord :=
  if (c.block? b.formula).isSome then breach (.blockTaken c.className b.formula)
  else .ok { c with blocks := c.blocks ++ [(b.formula, b.name)] }

end ClassRecord

/-- One record per entity, the main one first. -/
structure Registry where
  classes : List ClassRecord

namespace Registry

def empty : Registry := ⟨[]⟩

/-- The records of a schema. -/
def collect (catalogue : Catalogue) (schema : Schema) : Registry :=
  ⟨schema.entities.map (ClassRecord.collect catalogue schema)⟩

/-- The record of a class. -/
def class? (g : Registry) (name : String) : Option ClassRecord :=
  g.classes.find? (·.className == name)

/-- The record of a class that has to be there. -/
def record (g : Registry) (name : String) : Except BuildError ClassRecord :=
  match g.class? name with
  | some c => .ok c
  | none => breach (.unregisteredClass name)

/-- The registry with the record of a class replaced. -/
def set (g : Registry) (name : String) (c : ClassRecord) : Registry :=
  let rec go : List ClassRecord → List ClassRecord
    | [] => []
    | x :: rest => if x.className == name then c :: rest else x :: go rest
  ⟨go g.classes⟩

/-- Every redundant field, with its class. -/
def redundant (g : Registry) : List (String × String) :=
  g.classes.flatMap fun c => c.redundant.map fun field => (c.className, field)

end Registry

end FeatureSynth
