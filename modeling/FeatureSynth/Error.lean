/-
# Causes of failure

A build fails for one of five reasons, and each carries what it is about: a
breach of contract between rules, space and schema; a failed sampling; an
interruption; a schema that is not well-formed; options that make no sense.
Causes are data.  Their wording is the business of the `message` functions here
and of nothing else.
-/
import FeatureSynth.Kind
import FeatureSynth.Formula.Printer

namespace FeatureSynth

/-- A list of counts in brackets. -/
def countsText (counts : List Nat) : String :=
  "[" ++ String.intercalate ", " (counts.map toString) ++ "]"

/-! ## Rules -/

/-- What is wrong with a rule of some class. -/
inductive RuleFault where
  /-- Two selections on one path from the rule to an operand. -/
  | selectionsNested
  | operandCount (expected found : Nat)
  | fieldKind (index : Nat) (field : String) (type : FieldType) (slot : Kind)
  | resultKind (index : Nat) (result : FieldType) (slot : Kind)
  | evaluationClass (index : Nat) (found expected : String)
  | partOutsideSlot (index : Nat)
  | unknownPart (indexes : List Nat)
  | selectionIncomplete
  | foreignPartition (table parentClass partitionTable : String)
  | noPartitionStatistic
  | noUsedPart
  | strayPart
  | noValueStatistic
  | noInnerRule
  | noTableOperand
deriving DecidableEq

def RuleFault.message : RuleFault → String
  | selectionsNested => "more than one selection along an operand path"
  | operandCount expected found =>
    "expected " ++ toString expected ++ " operands, found " ++ toString found
  | fieldKind index field type slot =>
    "operand " ++ toString index ++ " `" ++ field ++ "` is " ++ type.text ++ ", expected " ++
      slot.label
  | resultKind index result slot =>
    "operand " ++ toString index ++ " computes " ++ result.text ++ ", expected " ++ slot.label
  | evaluationClass index found expected =>
    "operand " ++ toString index ++ " is evaluated in " ++ found ++ ", expected " ++ expected
  | partOutsideSlot index => "part operand " ++ toString index ++ " outside the selection slot"
  | unknownPart indexes => "part " ++ countsText indexes ++ " is not in its partition"
  | selectionIncomplete => "a selection needs a table field and a part"
  | foreignPartition table parentClass partitionTable =>
    "selection on " ++ table ++ " uses a partition of " ++ parentClass ++ "." ++ partitionTable
  | noPartitionStatistic => "no partition statistic"
  | noUsedPart => "not a partition block rule"
  | strayPart => "part operand outside a selection"
  | noValueStatistic => "no value block statistic"
  | noInnerRule => "not a value block rule"
  | noTableOperand => "operand 0 is not a table"

/-! ## Partitions -/

/-- What is wrong with a partition to register. -/
inductive PartitionFault where
  | notTable (field : String)
  | noDimension
  | unknownDimension (rank : Nat)
  | foreignDimension (dimensionClass tableClass : String)
  | granularity (value : Nat)
deriving DecidableEq

def PartitionFault.message : PartitionFault → String
  | notTable field => field ++ " is not a table"
  | noDimension => "no dimension"
  | unknownDimension rank => "unknown dimension " ++ toString rank
  | foreignDimension dimensionClass tableClass =>
    "dimension of " ++ dimensionClass ++ " used on a table of " ++ tableClass
  | granularity value => "granularity " ++ toString value ++ " is not a power of two"

/-! ## Breaches of contract -/

/-- A breach of contract between rules, partition space and schema. -/
inductive Contract where
  | rule (name className : String) (fault : RuleFault)
  | partition (parentClass : String) (fault : PartitionFault)
  -- typing of rules
  | operandIsPart (index : Nat) (rule : String)
  | noOperand (rule : String) (index : Nat)
  | noRelation (rule : String)
  | noSuchResult (rule : String) (kind : Kind)
  -- the space
  | compoundDimension (name : String) (type : FieldType)
  | unknownPartition (rank : Nat)
  | unfitPart (indexes : List Nat) (table : String)
  -- analysed partiles
  | unanalysedPartile (index granularity : Nat)
  | partileMismatch (kind : Kind)
  | unanalysedDimension
  | unanalysedGranularity (granularity : Nat)
  | uncutDimension (kind : Kind)
  -- descriptors and keys
  | noDescriptorField (table : String)
  | noSelectionField
  | noDescriptor (table : String)
  | noCell (index : Nat)
  | undecodableKey (key : Nat)
  | unknownKey (key : Nat)
  | excessiveKey (key : Nat)
  -- names
  | namelessTable (rule : String)
  | namelessPart (rule : String)
  | namelessOperand (index : Nat) (rule : String)
  -- the schema
  | unknownClass (name : String)
  | memberlessBlock (block className : String)
  | unknownField (field className : String)
  -- the registry
  | unregisteredClass (name : String)
  | noFormula (className field : String)
  | formulaTaken (className : String) (formula : Formula)
  | noKey (className field : String)
  | keyTaken (className : String) (key : Nat) (formula : Formula)
  | blockTaken (className : String) (formula : Formula)
  -- the analysis
  | unanalysedClass (name : String)
  | unboundDimension (className : String)
  | noTemplate (name : String)
deriving DecidableEq

def Contract.message : Contract → String
  | rule name className fault => name ++ " in " ++ className ++ ": " ++ fault.message
  | partition parentClass fault => "partition of " ++ parentClass ++ ": " ++ fault.message
  | operandIsPart index name => "operand " ++ toString index ++ " of " ++ name ++ " is a part"
  | noOperand name index => name ++ " has no operand " ++ toString index
  | noRelation name => name ++ " needs a relation as operand 0"
  | noSuchResult name kind => name ++ " cannot produce " ++ kind.label
  | compoundDimension name type =>
    "selection operand " ++ name ++ " is " ++ type.text ++ ", not a simple value"
  | unknownPartition rank => "unknown partition " ++ toString rank
  | unfitPart indexes table =>
    "part " ++ countsText indexes ++ " does not fit partition of " ++ table
  | unanalysedPartile index granularity =>
    "no analysed part " ++ toString index ++ " at granularity " ++ toString granularity
  | partileMismatch kind => "selection part does not match a " ++ kind.label ++ " dimension"
  | unanalysedDimension => "partition dimension was not analysed"
  | unanalysedGranularity granularity =>
    "granularity " ++ toString granularity ++ " was not analysed"
  | uncutDimension kind => kind.label ++ " dimension"
  | noDescriptorField table => "partition of " ++ table ++ " has no descriptor field"
  | noSelectionField => "partition dimension has no selection field"
  | noDescriptor table => "partition of " ++ table ++ " has no built descriptor"
  | noCell index => "partile " ++ toString index ++ " has no built cell"
  | undecodableKey key => "VarKey " ++ toString key ++ " cannot be decoded"
  | unknownKey key => "VarKey " ++ toString key ++ " names no analysed part"
  | excessiveKey key => "VarKey " ++ toString key ++ " is out of range"
  | namelessTable name => name ++ " has no table operand"
  | namelessPart name => name ++ " has no part"
  | namelessOperand index name =>
    "operand " ++ toString index ++ " of " ++ name ++ " cannot be named"
  | unknownClass name => "unknown entity type " ++ name
  | memberlessBlock block className => "block " ++ block ++ " has no member in " ++ className
  | unknownField field className => "no field " ++ field ++ " in " ++ className
  | unregisteredClass name => "no compliance record for " ++ name
  | noFormula className field => className ++ "." ++ field ++ " has no formula"
  | formulaTaken className formula =>
    className ++ ": formula " ++ formula.text ++ " is already registered"
  | noKey className field => className ++ "." ++ field ++ " has no VarKey"
  | keyTaken className key formula =>
    className ++ ": VarKey " ++ toString key ++ " of " ++ formula.text ++ " is already registered"
  | blockTaken className formula =>
    className ++ ": block formula " ++ formula.text ++ " is already registered"
  | unanalysedClass name => "class " ++ name ++ " was not registered for analysis"
  | unboundDimension className => "used dimension of " ++ className ++ " has no field"
  | noTemplate name => "no template " ++ name ++ " in the default catalogue"

/-! ## Schemas -/

/-- What is wrong with an entity. -/
inductive EntityFault where
  | duplicateName (name : String)
  | unknownClass (field className : String)
  | keylessMember (field : String)
  | emptyBlock (block : String)
  | scatteredBlock (block : String)
  | repeatedKey (block : String) (key : Nat)
  | undeclaredBlock (field block : String)
deriving DecidableEq

def EntityFault.message : EntityFault → String
  | duplicateName name => "duplicate name " ++ name
  | unknownClass field className =>
    "field " ++ field ++ " references unknown class " ++ className
  | keylessMember field => "block member " ++ field ++ " has no key"
  | emptyBlock block => "block " ++ block ++ " is empty"
  | scatteredBlock block => "block " ++ block ++ " is not contiguous"
  | repeatedKey block key => "block " ++ block ++ " repeats key Some(" ++ toString key ++ ")"
  | undeclaredBlock field block =>
    "field " ++ field ++ " belongs to undeclared block " ++ block

/-- What is wrong with a schema. -/
inductive SchemaFault where
  | noEntity
  | duplicateEntity (name : String)
  | entity (name : String) (fault : EntityFault)
deriving DecidableEq

def SchemaFault.message : SchemaFault → String
  | noEntity => "no entity type"
  | duplicateEntity name => "duplicate entity type " ++ name
  | entity name fault => name ++ ": " ++ fault.message

/-! ## Options -/

/-- What is wrong with the options of a build. -/
inductive OptionFault where
  | selectionCost (cost : Float)
  | emptyTarget
  | unknownTarget (target className : String)
deriving DecidableEq

def OptionFault.message : OptionFault → String
  | selectionCost cost =>
    "selection cost " ++ String.ofList (Scalar.plainText cost) ++ " is not a non-negative number"
  | emptyTarget => "empty target field"
  | unknownTarget target className =>
    "target " ++ target ++ " is not a field of " ++ className

/-! ## Sampling -/

/-- Why a sampler gave no samples. -/
inductive SamplingError where
  | missingColumn (className field : String)
  | kindMismatch (className field : String) (expected : Kind)
  | notLoaded (className field : String)
  | interrupted
  | failed (reason : String)
deriving DecidableEq

def SamplingError.message : SamplingError → String
  | missingColumn className field => "No sample column for " ++ className ++ "." ++ field
  | kindMismatch className field expected =>
    "Sample column " ++ className ++ "." ++ field ++ " does not hold " ++ expected.label ++
      " values"
  | notLoaded className field =>
    "Field " ++ className ++ "." ++ field ++ " is not loaded in the reduced schema"
  | interrupted => "Sampling interrupted"
  | failed reason => reason

/-! ## Builds -/

/-- Why a build gave no schema. -/
inductive BuildError where
  | contract (cause : Contract)
  | sampling (cause : SamplingError)
  | interrupted
  | invalidSchema (cause : SchemaFault)
  | invalidOptions (cause : OptionFault)
deriving DecidableEq

def BuildError.message : BuildError → String
  | contract cause => "Contract violation: " ++ cause.message
  | sampling cause => "Sampling failed: " ++ cause.message
  | interrupted => "Build interrupted"
  | invalidSchema cause => "Invalid schema: " ++ cause.message
  | invalidOptions cause => "Invalid options: " ++ cause.message

/-- The failure for a breach of contract. -/
def breach {α : Type} (cause : Contract) : Except BuildError α := .error (.contract cause)

end FeatureSynth
