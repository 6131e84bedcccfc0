/-
# Builds

A build realizes its candidates one by one in the schema in work, in the mode its
options ask for, until as many new fields exist as they allow.  The fields of
candidates are used and carry the candidate's cost; a field that existed gets both
at once, new ones get them at the end, in the order of cost and name in which they
are then laid out.
-/
import FeatureSynth.Build.Cost
import FeatureSynth.Build.Member
import FeatureSynth.Build.Sampled
import FeatureSynth.Schema.WellFormed

namespace FeatureSynth

/-- New fields, each with the candidate that was first realized by it. -/
abbrev NewFields := List (Rule × String)

namespace NewFields

/-- Whether a field is among the new ones. -/
def has (new : NewFields) (className name : String) : Bool :=
  new.any fun (r, n) => r.className == className && n == name

/-- The new fields in order of cost and name of their candidates. -/
def sorted (s : Space) (new : NewFields) : NewFields :=
  new.mergeSort fun a b => s.compareCostName a.1 b.1 != .gt

def paths (new : NewFields) : List FieldPath := new.map fun (r, name) => ⟨r.className, name⟩

end NewFields

namespace Build

/-- Whether there are as many new fields as options allow. -/
def isFull (o : Options) (new : NewFields) : Bool := o.maxFields.any (· ≤ new.length)

/-- Marks each new field with the cost of its candidate, in order of cost and name. -/
def markNew (new : NewFields) : Build NewFields := do
  let new := new.sorted (← get).space
  new.forM fun (r, name) => markCandidate r.className name r.cost
  return new

/-! ## One field per candidate -/

/-- Realizes a candidate by a field of its own. -/
def directCandidate (new : NewFields) (r : Rule) : Build NewFields := do
  let name ← directField r
  if (← get).isCreated r.className name then
    return if new.has r.className name then new else new ++ [(r, name)]
  else
    markCandidate r.className name r.cost
    return new

/-! ## Shared fields and blocks -/

/-- Whether a candidate goes into a block: a block rule whose partition has enough analysed
parts. -/
def goesIntoBlock (o : Options) (b : BuildState) (r : Rule) : Bool :=
  b.blockOf.contains b.space.compareBlock r &&
    (o.minBlockSize == 0 ||
      (r.usedPart?.bind fun part => b.space.actualSize? part.partition).any (o.minBlockSize ≤ ·))

/-- Realizes a candidate by a field that shares those of its sub-rules, or by a member of a block. -/
def sharedCandidate (o : Options) (mode : Mode) (new : NewFields) (r : Rule) : Build NewFields := do
  let b ← get
  let name ← if mode == .sparse && goesIntoBlock o b r then sparseField r else sharedField r
  let isNew := (b.fieldOf? r).isNone && (← get).isCreated r.className name
  if isNew && !new.has r.className name then return new ++ [(r, name)]
  else
    markCandidate r.className name r.cost
    return new

/-! ## Candidates in turn -/

/-- Realizes candidates in turn, as long as new fields are allowed. -/
def candidates (o : Options) (candidate : NewFields → Rule → Build NewFields) :
    NewFields → List Rule → Build NewFields
  | new, [] => return new
  | new, r :: rest => do
    checkInterrupt
    if isFull o new then return new
    else candidates o candidate (← candidate new r) rest

/-- Readies the state for sharing: dimensions are bound, and the ledgers hold what is met in the
rules. -/
def prepare (o : Options) (mode : Mode) (rules : List Rule) : Build Unit := do
  modify fun b => { b with space := b.space.countUses rules }
  bindDimensions o
  rules.forM fun r => do
    collectFields r
    if mode == .sparse then collectBlocks r

/-- Realizes the candidates, and returns the new fields as they are to be laid out. -/
def realize (o : Options) (rules : List Rule) : Build NewFields := do
  match Mode.ofOptions o with
  | .standard => markNew (← candidates o directCandidate [] rules)
  | mode => do
    prepare o mode rules
    markNew (← candidates o (sharedCandidate o mode) [] rules)

/-- Realizes the candidates and lays out what was created. -/
def layOut (o : Options) (rules : List Rule) : Build Unit := do
  let new ← realize o rules
  arrangeFields new.paths
  if Mode.ofOptions o == .sparse then arrangeBlocks

/-- A whole build: the schema in work has final costs at the end, and is well formed. -/
def complete (o : Options) (rules : List Rule) : Build Unit := do
  layOut o rules
  modify fun b => { b with schema := o.annotate b.schema }
  lift (← get).schema.compile

end Build

/-- Realizes candidates in a copy of a schema: the final state, and whether all went well. -/
def runBuild (catalogue : Catalogue) (o : Options) (schema : Schema) (space : Space)
    (rules : List Rule) (interrupt : Interrupt) : Except BuildError Unit × BuildState :=
  (Build.complete o rules).run (BuildState.start catalogue o schema space interrupt)

end FeatureSynth
