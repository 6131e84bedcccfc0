/-
# Analysis of dimensions

Before parts can be turned into formulas, the dimensions that the rules use are
analysed: each is bound to a field of a reduced schema, the fields are sampled, and
each sample is cut into partiles.  An analysis is all or nothing: when it fails or is
stopped, no dimension keeps partiles, those of former analyses included.

A sample with values that no bound fits between leads to neither: the program ends
there, and the analysis with it.  It has no outcome then, not even a state that it left.
-/
import FeatureSynth.Build.Sampled
import FeatureSynth.Partile.Group
import FeatureSynth.Partile.Interval
import FeatureSynth.Sample.Basic

namespace FeatureSynth

/-- How far an analysis has come. -/
inductive AnalysisState where
  | uninitialized
  /-- The reduced schema is there. -/
  | statsRequested
  | sampleCollected
  | partitionsComputed
  | failed
  | interrupted
deriving DecidableEq, Repr

/-- What lasts from one analysis to the next. -/
structure Analyser where
  state : AnalysisState
  /-- The classes whose dimensions may be analysed. -/
  classes : List String
  /-- Number of dimensions analysed. -/
  dimensions : Nat
  /-- Number of main records sampled. -/
  objects : Nat

/-- An analyser for some classes that has done nothing yet. -/
def Analyser.new (classes : List String) : Analyser := ⟨.uninitialized, classes, 0, 0⟩

/-- What an analysis works on. -/
structure AnalysisRun where
  analyser : Analyser
  space : Space
  /-- Stops the analysis. -/
  interrupt : Interrupt
  /-- Stops the making of the reduced schema; nothing if that looks at the same request. -/
  buildInterrupt : Option Interrupt

/-- A step of an analysis: it succeeds, fails, or is where the program ends. -/
abbrev Analysis (α : Type) := ExceptT BuildError (StateT AnalysisRun Option) α

namespace Analysis

/-- A result that depends on nothing. -/
def lift {α : Type} : Except BuildError α → Analysis α
  | .ok a => pure a
  | .error e => throw e

/-- A result that there may not be: the program ends where it is missing. -/
def orEnd {α : Type} (x : Option α) : Analysis α := liftM (m := Option) x

/-- Stops if that was asked for. -/
def checkInterrupt : Analysis Unit := do
  let (seen, rest) := (← get).interrupt.look
  modify fun run => { run with interrupt := rest }
  if seen then throw .interrupted

/-- Notes how far the analysis has come. -/
def reach (state : AnalysisState) : Analysis Unit :=
  modify fun run => { run with analyser := { run.analyser with state } }

/-- Dimensions of other classes than the registered ones are refused. -/
def checkClass (classes : List String) (d : Dimension) : Except BuildError Unit :=
  if classes.contains d.className then .ok () else breach (.unanalysedClass d.className)

/-- The schema reduced to the fields of the dimensions in use, which are bound to them. -/
def reducedSchema (catalogue : Catalogue) (o : Options) (schema : Schema) : Analysis Schema := do
  let run ← get
  let (result, b) :=
    bindSchema catalogue o schema run.space (run.buildInterrupt.getD run.interrupt)
  set { run with
    space := b.space
    interrupt := if run.buildInterrupt.isSome then run.interrupt else b.interrupt
    buildInterrupt := run.buildInterrupt.map fun _ => b.interrupt }
  lift result
  return b.reduced

/-- The request for the field of a dimension. -/
def requestFor (d : Dimension) : Except BuildError SampleRequest :=
  match d.selectionField with
  | some field => .ok ⟨d.className, field, d.kind⟩
  | none => breach (.unboundDimension d.className)

/-- The analysis sees a stop that was requested while samples were taken. -/
def noteStop (run : AnalysisRun) : AnalysisRun :=
  if run.buildInterrupt.isSome then { run with buildInterrupt := some .requested }
  else { run with interrupt := .requested }

/-- The samples for some requests. -/
def takeSamples (sampler : Sampler) (schema : Schema) (requests : List SampleRequest) :
    Analysis Samples := do
  let sampling := sampler schema requests
  if sampling.stopRequested then modify noteStop
  match sampling.result with
  | .ok samples =>
    modify fun run => { run with analyser := { run.analyser with objects := samples.objects } }
    return samples
  | .error .interrupted => throw .interrupted
  | .error e => throw (.sampling e)

/-- The partiles of what was sampled for a request, unless the program ends on it. -/
def levelsFor? (samples : Samples) (r : SampleRequest) : Option (Except BuildError Levels) :=
  match r.kind, samples.column? ⟨r.className, r.field⟩ with
  | _, none => some (.error (.sampling (.missingColumn r.className r.field)))
  | .continuous, some (.continuous values) =>
    (Levels.ofContinuous? values samples.objects).map .ok
  | .symbol, some (.symbol values) => some (.ok (.ofSymbol values samples.objects))
  | kind, some _ => some (.error (.sampling (.kindMismatch r.className r.field kind)))

/-- Gives a dimension the partiles of what was sampled for it. -/
def analyseDimension (samples : Samples) (rank : Nat) (r : SampleRequest) : Analysis Unit := do
  checkInterrupt
  let levels ← lift (← orEnd (levelsFor? samples r))
  modify fun run =>
    { run with space := run.space.modifyDimension rank fun d => { d with levels := some levels } }

/-- Analyses dimensions, given by their ranks. -/
def analyseDimensions (catalogue : Catalogue) (o : Options) (schema : Schema) (sampler : Sampler)
    (ranks : List Nat) : Analysis Unit := do
  let run ← get
  lift ((ranks.filterMap fun rank => run.space.dimensions[rank]?).forM
    (checkClass run.analyser.classes))
  checkInterrupt
  let reduced ← reducedSchema catalogue o schema
  reach .statsRequested
  let space := (← get).space
  let requests ← lift ((ranks.filterMap fun rank => space.dimensions[rank]?).mapM requestFor)
  checkInterrupt
  let samples ← takeSamples sampler reduced requests
  reach .sampleCollected
  (ranks.zip requests).forM fun (rank, r) => analyseDimension samples rank r
  modify fun run =>
    { run with
      analyser := { run.analyser with dimensions := ranks.length }
      space := run.space.clearLinks }

/-- Analyses the dimensions that rules use, if they use any. -/
def analyseRules (catalogue : Catalogue) (o : Options) (schema : Schema) (sampler : Sampler)
    (rules : List Rule) : Analysis Unit := do
  modify fun run => { run with space := run.space.countUses rules }
  match (← get).space.usedDimensions with
  | [] => return
  | ranks => analyseDimensions catalogue o schema sampler ranks

/-- What is left of an analysis that did not succeed: no partiles and no links. -/
def abandon (e : BuildError) (run : AnalysisRun) : AnalysisRun :=
  { run with
    analyser := { run.analyser with state := if e = .interrupted then .interrupted else .failed }
    space := run.space.clearLevels.clearLinks }

/-- What an analysis of the dimensions that rules use leaves, and whether it succeeded, if it comes
to an end. -/
def complete? (catalogue : Catalogue) (o : Options) (schema : Schema) (sampler : Sampler)
    (rules : List Rule) (run : AnalysisRun) : Option (Except BuildError Unit × AnalysisRun) :=
  ((analyseRules catalogue o schema sampler rules).run run).map fun
    | (.ok (), run) =>
      (.ok (), { run with analyser := { run.analyser with state := .partitionsComputed } })
    | (.error e, run) => (.error e, abandon e run)

end Analysis

end FeatureSynth
