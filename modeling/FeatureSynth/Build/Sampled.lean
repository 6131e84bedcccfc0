/-
# Fields that hold the values of dimensions

Every dimension in use is bound to a field of the schema in work: the field it is,
or one made for the rule it is.  An analysis samples these fields from a schema
reduced to them.
-/
import FeatureSynth.Build.Arrange
import FeatureSynth.Build.Field
import FeatureSynth.Space.Use

namespace FeatureSynth

namespace Build

/-- The field that holds the values of a dimension. -/
def dimensionField (o : Options) (d : Dimension) : Build String := do
  match d.origin with
  | .field name _ => return name
  | .rule r =>
    if o.shareRules then
      collectFields r
      sharedField r
    else directField r

/-- Binds a dimension to its field. -/
def bindDimension (o : Options) (rank : Nat) : Build Unit := do
  checkInterrupt
  match (← get).space.dimensions[rank]? with
  | none => return
  | some d =>
    let name ← dimensionField o d
    modify fun b =>
      { b with space := b.space.modifyDimension rank fun d => { d with selectionField := some name } }

/-- Binds the dimensions in use, and moves the fields created for them to the tail. -/
def bindDimensions (o : Options) : Build Unit := do
  let b ← get
  b.space.usedDimensions.forM (bindDimension o)
  let bound ← get
  arrangeFields (bound.createdFields.drop b.createdFields.length)

end Build

namespace Space

/-- The fields bound to dimensions in use. -/
def sampledFields (s : Space) : List FieldPath :=
  s.dimensions.filterMap fun d =>
    if 0 < d.uses then d.selectionField.map fun name => ⟨d.className, name⟩ else none

end Space

/-- The state in which the dimensions in use are bound to fields of a schema, or the failure to. -/
def bindSchema (catalogue : Catalogue) (o : Options) (schema : Schema) (space : Space)
    (interrupt : Interrupt) : Except BuildError Unit × BuildState :=
  (Build.bindDimensions o).run (BuildState.start catalogue o schema space interrupt)

/-- The schema reduced to the fields that hold the values of the dimensions in use. -/
def BuildState.reduced (b : BuildState) : Schema := b.schema.reduceTo b.space.sampledFields

end FeatureSynth
