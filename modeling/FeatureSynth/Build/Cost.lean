/-
# Costs of fields

At the end of a build every field gets its cost.  With regularization a field
that carries one keeps it, and a used, simple, native field gets the cost of
selecting it, unless it is the target.  The cost is also noted under a word of its
own.  Without regularization nothing costs anything and no note is left.
-/
import FeatureSynth.Options
import FeatureSynth.Schema.Basic

namespace FeatureSynth

/-- The word under which the cost of a field is noted. -/
def costWord : String := "Cost"

namespace Options

/-- Whether a field is the target. -/
def isTarget (o : Options) (isMain : Bool) (f : Field) : Bool := isMain && o.target == some f.name

/-- Whether the cost of selecting a field applies to it: a used, simple, stored one. -/
def isSelectable (f : Field) : Bool :=
  f.used && f.type.kind.isSimple && !f.isDerived && f.block.isNone

/-- The cost of a field; nothing if it has none. -/
def cost? (o : Options) (isMain : Bool) (f : Field) : Option Float :=
  if !o.regularize then none
  else if f.cost ≤ 0 then
    if isSelectable f && !o.isTarget isMain f then some o.selectionCost else none
  else some f.cost

/-- A field with its final cost. -/
def annotateField (o : Options) (isMain : Bool) (f : Field) : Field :=
  let notes := f.notes.erase costWord
  match o.cost? isMain f with
  | none => { f with cost := 0, notes }
  | some cost => { f with cost, notes := notes.set costWord cost }

/-- A schema with the final costs. -/
def annotate (o : Options) (s : Schema) : Schema :=
  let main := s.main?.map (·.name)
  ⟨s.entities.map fun e =>
    { e with fields := e.fields.map (o.annotateField (main == some e.name)) }⟩

end Options

end FeatureSynth
