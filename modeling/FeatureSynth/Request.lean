/-
# Requests

A request names a schema, a partition space and candidate rules, in any order.  It
is checked as a whole first.  Then the candidates are put in order of cost, the
dimensions they use are analysed, candidates with parts that the analysis did not
find are dropped, and the others are built.

Candidates that tie are put in an order drawn from a seed.  The draw is a parameter
here (`TieBreaks`), of which no more is known than that it gives every candidate an
index of its own.
-/
import FeatureSynth.Analysis
import FeatureSynth.Build.Candidate
import FeatureSynth.Rule.Check
import FeatureSynth.Rule.Order

namespace FeatureSynth

/-- What a build counts. -/
structure BuildCounts where
  fieldsCreated : Nat
  fieldsReused : Nat
  blocksCreated : Nat
  /-- Entries of the ledger of fields. -/
  fieldRules : Nat
  /-- Entries of the ledger of blocks. -/
  blockRules : Nat
deriving DecidableEq, Repr

/-- The counts of a build, in its final state. -/
def BuildState.counts (b : BuildState) : BuildCounts :=
  { fieldsCreated := b.createdFields.length, fieldsReused := b.reused
    blocksCreated := b.createdBlocks.length, fieldRules := b.fieldOf.size
    blockRules := b.blockOf.size }

/-- What to build from. -/
structure Request where
  schema : Schema
  space : Space
  rules : List Rule

/-- How ties are broken: the indexes drawn for a number of candidates, in the order in which these
are listed. -/
structure TieBreaks where
  indexes : Nat → List Nat
  /-- Every candidate has an index of its own. -/
  perm : ∀ n, (indexes n).Perm (List.range n)

/-- Candidates that tie stay in the order in which they are listed. -/
def TieBreaks.listed : TieBreaks := ⟨List.range, fun _ => .refl _⟩

/-- What became of the candidates of a request. -/
structure Counts where
  requested : Nat
  /-- Candidates with a part that the analysis did not find. -/
  dropped : Nat
  /-- Dimensions analysed. -/
  dimensions : Nat
  /-- Main records sampled. -/
  objects : Nat
  construction : BuildCounts
deriving DecidableEq, Repr

/-- What came of a request. -/
structure Outcome where
  schema : Schema
  /-- In order of creation. -/
  createdFields : List FieldPath
  createdBlocks : List FieldPath
  space : Space
  counts : Counts

namespace Request

/-! ## Checks -/

/-- The target has to be a field of the main entity. -/
def checkTarget (o : Options) (main : Entity) : Except BuildError Unit :=
  match o.target with
  | none => .ok ()
  | some target =>
    if (main.field? target).isSome then .ok ()
    else .error (.invalidOptions (.unknownTarget target main.name))

/-- A candidate belongs to a class of the schema and fits the space. -/
def checkRule (q : Request) (r : Rule) : Except BuildError Unit := do
  let _ ← q.schema.entity r.className
  r.check q.space

/-- Accepts the requests that make sense. -/
def check (q : Request) (o : Options) : Except BuildError Unit := do
  o.validate
  q.schema.compile
  match q.schema.main? with
  | none => .error (.invalidSchema .noEntity)
  | some main => checkTarget o main
  q.rules.forM q.checkRule

/-! ## Stages -/

/-- The candidates with the indexes that decide between those that tie. -/
def numbered (q : Request) (ties : TieBreaks) : List Rule :=
  q.rules.zipWith (fun r i => { r with tieBreak := i }) (ties.indexes q.rules.length)

/-- The candidates in order of cost. -/
def ordered (q : Request) (ties : TieBreaks) : List Rule :=
  (q.numbered ties).mergeSort fun a b => q.space.compareCostTie a b != .gt

/-- The candidates of a request that makes sense, in the order in which they are built. -/
def accept (q : Request) (ties : TieBreaks) (o : Options) : Except BuildError (List Rule) := do
  q.check o
  return q.ordered ties

/-- What the schema already computes. -/
def registry (q : Request) (catalogue : Catalogue) : Registry := .collect catalogue q.schema

/-- The start of the analysis: every class of the registry may be analysed. -/
def analysisStart (q : Request) (registry : Registry) (interrupt : Interrupt) : AnalysisRun :=
  { analyser := .new (registry.classes.map (·.className)), space := q.space, interrupt
    buildInterrupt := none }

/-- The end of the analysis of the dimensions that the candidates use, if it comes to one. -/
def analyse? (q : Request) (catalogue : Catalogue) (sampler : Sampler) (o : Options)
    (rules : List Rule) (start : AnalysisRun) : Option (Except BuildError AnalysisRun) :=
  (Analysis.complete? catalogue o q.schema sampler rules start).map fun
    | (.ok (), a) => .ok a
    | (.error e, _) => .error e

/-- The outcome of a request, from the end of its analysis and the end of its build. -/
def outcome (q : Request) (a : AnalysisRun) (kept : List Rule) (b : BuildState) : Outcome :=
  { schema := b.schema, createdFields := b.createdFields, createdBlocks := b.createdBlocks
    space := b.space
    counts :=
      { requested := q.rules.length, dropped := q.rules.length - kept.length
        dimensions := a.analyser.dimensions, objects := a.analyser.objects
        construction := b.counts } }

/-- The outcome of a build from the candidates that the analysis found the parts of. -/
def construct (q : Request) (catalogue : Catalogue) (o : Options) (rules : List Rule)
    (a : AnalysisRun) : Except BuildError Outcome :=
  let kept := rules.filter a.space.resolves
  match runBuild catalogue o q.schema a.space kept a.interrupt with
  | (.ok (), b) => .ok (q.outcome a kept b)
  | (.error e, _) => .error e

/-- What comes of a request.  It is nothing if the program ends during the analysis. -/
def run? (q : Request) (catalogue : Catalogue) (ties : TieBreaks) (sampler : Sampler) (o : Options)
    (interrupt : Interrupt) : Option (Except BuildError Outcome) :=
  match q.accept ties o with
  | .error e => some (.error e)
  | .ok rules =>
    (q.analyse? catalogue sampler o rules
      (q.analysisStart (q.registry catalogue) interrupt)).map fun analysed =>
        analysed.bind (q.construct catalogue o rules)

end Request

end FeatureSynth
