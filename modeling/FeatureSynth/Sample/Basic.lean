/-
# Samples

The one place where a build meets data is the sampler: given a schema and the
fields wanted of it, a sampler answers with one column of values per field, and
with the number of main records it read.  It may also fail, and it takes its time,
so that a request to stop can come in meanwhile.
-/
import FeatureSynth.Error
import FeatureSynth.Schema.Reduce

namespace FeatureSynth

/-- A field to sample, and the kind of the values wanted. -/
structure SampleRequest where
  className : String
  field : String
  kind : Kind
deriving DecidableEq, Repr

/-- Sampled values. -/
inductive Column where
  | continuous (values : List Float)
  | symbol (values : List String)
deriving DecidableEq

namespace Column

def size : Column → Nat
  | continuous values => values.length
  | symbol values => values.length

def kind : Column → Kind
  | continuous _ => .continuous
  | symbol _ => .symbol

end Column

namespace FieldPath

/-- By class, then by name. -/
def compare (a b : FieldPath) : Ordering :=
  (Ord.compare a.className b.className).then (Ord.compare a.name b.name)

end FieldPath

/-- Columns of fields, by increasing path. -/
structure Samples where
  /-- Number of main records read. -/
  objects : Nat
  columns : List (FieldPath × Column)

namespace Samples

/-- Columns with one more, in place of any former one of the same path. -/
def insertColumn (path : FieldPath) (column : Column) :
    List (FieldPath × Column) → List (FieldPath × Column)
  | [] => [(path, column)]
  | c :: rest =>
    match path.compare c.1 with
    | .lt => (path, column) :: c :: rest
    | .eq => (path, column) :: rest
    | .gt => c :: insertColumn path column rest

/-- The samples with one more column. -/
def insert (s : Samples) (path : FieldPath) (column : Column) : Samples :=
  { s with columns := insertColumn path column s.columns }

/-- Samples of given columns, later ones in place of earlier ones of the same path. -/
def ofColumns (objects : Nat) (columns : List (FieldPath × Column)) : Samples :=
  columns.foldl (fun s c => s.insert c.1 c.2) ⟨objects, []⟩

/-- The column of a path. -/
def column? (s : Samples) (path : FieldPath) : Option Column := s.columns.lookup path

end Samples

/-- What came of a request for samples. -/
structure Sampling where
  result : Except SamplingError Samples
  /-- Whether a stop was requested meanwhile. -/
  stopRequested : Bool

/-- Answers requests for fields of a schema. -/
abbrev Sampler := Schema → List SampleRequest → Sampling

/-- The sampler that gives one answer to all requests. -/
def Sampler.always (answer : Except SamplingError Samples) : Sampler := fun _ _ => ⟨answer, false⟩

end FeatureSynth
