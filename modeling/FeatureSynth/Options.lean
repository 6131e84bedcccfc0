/-
# Options of a build

Which rules share fields, whether statistics of selections go into blocks, how
generated fields are named, how many there may be, and what they cost.
-/
import FeatureSynth.Error

namespace FeatureSynth

/-- How candidate rules become fields. -/
structure Options where
  /-- Rules share one field per common sub-rule. -/
  shareRules : Bool
  /-- Statistics of selections become members of blocks; needs `shareRules`. -/
  sparse : Bool
  /-- Least number of analysed parts of a partition that goes into blocks; zero for any. -/
  minBlockSize : Nat
  /-- Names say what fields hold, rather than count them. -/
  readableNames : Bool
  /-- Greatest number of new candidate fields. -/
  maxFields : Option Nat
  /-- Fields carry costs. -/
  regularize : Bool
  /-- Cost of a used native field. -/
  selectionCost : Float
  /-- Field of the main entity that carries no cost of its own. -/
  target : Option String

namespace Options

def default : Options :=
  { shareRules := true, sparse := false, minBlockSize := 0, readableNames := true,
    maxFields := none, regularize := true, selectionCost := 1, target := none }

/-- Accepts the options that make sense by themselves. -/
def validate (o : Options) : Except BuildError Unit :=
  if !Scalar.isFinite o.selectionCost || o.selectionCost < 0 then
    .error (.invalidOptions (.selectionCost o.selectionCost))
  else if o.target = some "" then .error (.invalidOptions .emptyTarget)
  else .ok ()

end Options

/-- The three ways to realize candidates. -/
inductive Mode where
  /-- One field per candidate. -/
  | standard
  /-- One field per distinct sub-rule. -/
  | optimized
  /-- Block members for statistics of selections, fields for all else. -/
  | sparse
deriving DecidableEq, Repr

namespace Mode

/-- The mode that options ask for; blocks only come on top of shared rules. -/
def ofOptions (o : Options) : Mode :=
  if o.shareRules then if o.sparse then sparse else optimized else standard

def label : Mode → String
  | standard => "standard"
  | optimized => "optimized"
  | sparse => "sparse"

end Mode

end FeatureSynth
