/-
# Sampling from memory

Columns at hand serve as a sampler.  A requested field is found under its name,
or else under the text of its formula: fields made for an analysis have names that
nobody knows beforehand, but their formulas are known.
-/
import FeatureSynth.Formula.Printer
import FeatureSynth.Sample.Basic

namespace FeatureSynth

namespace Samples

/-- The column that serves a field of a class. -/
def columnFor? (s : Samples) (className : String) (f : Field) : Option Column :=
  (s.column? ⟨className, f.name⟩).or (f.formula.bind fun g => s.column? ⟨className, g.text⟩)

/-- The column that serves a request: of a loaded field, with values of the kind wanted. -/
def serve (s : Samples) (schema : Schema) (request : SampleRequest) :
    Except SamplingError Column :=
  match (schema.entity? request.className).bind (·.field? request.field) with
  | none => .error (.missingColumn request.className request.field)
  | some f =>
    if !f.loaded then .error (.notLoaded request.className request.field)
    else
      match s.columnFor? request.className f with
      | none => .error (.missingColumn request.className request.field)
      | some column =>
        if column.kind = request.kind then .ok column
        else .error (.kindMismatch request.className request.field request.kind)

/-- The columns that serve requests, each under its request. -/
def serveAll (s : Samples) (schema : Schema) (requests : List SampleRequest) :
    Except SamplingError Samples := do
  let columns ← requests.mapM fun r => do
    return (⟨r.className, r.field⟩, ← s.serve schema r)
  return .ofColumns s.objects columns

/-- The sampler that serves requests from these columns. -/
def sampler (s : Samples) : Sampler := fun schema requests => ⟨s.serveAll schema requests, false⟩

end Samples

end FeatureSynth
