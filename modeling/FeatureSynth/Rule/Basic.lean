/-
# Rules

A rule is a template applied to operands in the context of a class: fields of
the class, further rules, and parts of a partition.  Rules own the rules they
are built from, so a rule is a tree; a part is only named, by the rank of its
partition in the space and one index per axis.

Blocks can realize two sorts of rules.  A *partition block rule* is a statistic
of a selection: one member per part computes it.  A *value block rule* is a
statistic of a rule that is itself realized in a block: it is keyed like that
block.  Either way one part, the used part, says which member a rule is.
-/
import FeatureSynth.Error
import FeatureSynth.Template.Basic

namespace FeatureSynth

/-- One part of a partition: the partition's rank, and the index of a partile on each axis. -/
structure Part where
  partition : Nat
  indexes : List Nat
deriving DecidableEq, Repr

/-- What a rule applies its template to. -/
inductive RuleOperand (ρ : Type) where
  | field (name : String) (type : FieldType)
  | rule (rule : ρ)
  | part (part : Part)

/-- A template applied to operands, evaluated in a class. -/
structure Rule where
  template : Template
  className : String
  operands : List (RuleOperand Rule)
  cost : Float
  /-- Decides between rules of equal cost. -/
  tieBreak : Nat

/-- How a rule is realized where blocks are built. -/
inductive RuleClass where
  | selection
  | partitionBlock
  | valueBlock
  | standard
deriving DecidableEq, Repr

/-- Where an operand comes from, in the order in which operands compare. -/
inductive OperandOrigin where
  | field
  | rule
  | part
deriving DecidableEq, Repr

namespace OperandOrigin

/-- Position among the origins. -/
def rank : OperandOrigin → Nat
  | field => 0
  | rule => 1
  | part => 2

/-- Fields, then rules, then parts. -/
def compare (a b : OperandOrigin) : Ordering := Ord.compare a.rank b.rank

end OperandOrigin

namespace RuleOperand

def origin {ρ : Type} : RuleOperand ρ → OperandOrigin
  | field .. => .field
  | rule _ => .rule
  | part _ => .part

end RuleOperand

namespace Rule

/-- The formula operator of a rule. -/
def name (r : Rule) : String := r.template.name

/-! ## Operands -/

/-- The operand at an index, if it is a field. -/
def fieldOperand? (r : Rule) (index : Nat) : Option (String × FieldType) :=
  match r.operands[index]? with
  | some (.field name type) => some (name, type)
  | _ => none

/-- The operand at an index, if it is a rule. -/
def ruleOperand? (r : Rule) (index : Nat) : Option Rule :=
  match r.operands[index]? with
  | some (.rule inner) => some inner
  | _ => none

/-- The operand at an index, if it is a part. -/
def partOperand? (r : Rule) (index : Nat) : Option Part :=
  match r.operands[index]? with
  | some (.part part) => some part
  | _ => none

/-! ## Types -/

/-- The class that the first operand of a template leads to. -/
def reached (template : Template) (first : FieldType) : Except BuildError String :=
  match first.class? with
  | some c => .ok c
  | none => breach (.noRelation template.name)

/-- The relation a template computes from a first operand of some type. -/
def relation (template : Template) (first : FieldType) : Except BuildError FieldType :=
  match reached template first with
  | .error e => .error e
  | .ok c =>
    match template.result with
    | .object => .ok (.object c)
    | .objectArray => .ok (.objectArray c)
    | other => breach (.noSuchResult template.name other)

/-- Type of the value a rule computes: the simple type of its template's result, or a relation to
the class its first operand leads to. -/
def resultType : Rule → Except BuildError FieldType
  | ⟨template, _, operands, _, _⟩ =>
    match FieldType.ofKind? template.result, operands with
    | some simple, _ => .ok simple
    | none, [] => breach (.noOperand template.name 0)
    | none, .field _ type :: _ => relation template type
    | none, .rule inner :: _ =>
      match resultType inner with
      | .ok type => relation template type
      | .error e => .error e
    | none, .part _ :: _ => breach (.operandIsPart 0 template.name)

/-- Type of the operand at an index; parts have none. -/
def operandType (r : Rule) (index : Nat) : Except BuildError FieldType :=
  match r.operands[index]? with
  | some (.field _ type) => .ok type
  | some (.rule inner) => inner.resultType
  | some (.part _) => breach (.operandIsPart index r.name)
  | none => breach (.noOperand r.name index)

/-- Class an operand is evaluated in: behind a relation, the operands after the first live in the
class it leads to. -/
def operandClass (r : Rule) (index : Nat) : Except BuildError String :=
  if 0 < index ∧ (r.template.family = .table ∨ r.template.family = .entity) then
    match r.operandType 0 with
    | .ok type => reached r.template type
    | .error e => .error e
  else .ok r.className

/-! ## Classes of rules -/

/-- Whether a rule restricts a table to a part. -/
def isSelection (r : Rule) : Bool := r.template.selection

/-- A statistic of a selection. -/
def isPartitionBlock (r : Rule) : Bool :=
  r.template.partitionStatistic.isSome && (r.ruleOperand? 0).any isSelection

/-- Whether blocks can realize a rule: a partition block rule or a value block rule. -/
def isBlockRule : Rule → Bool
  | ⟨template, className, operands, cost, tieBreak⟩ =>
    isPartitionBlock ⟨template, className, operands, cost, tieBreak⟩ ||
      match operands with
      | _ :: .rule inner :: _ => template.valueStatistic.isSome && isBlockRule inner
      | _ => false

/-- A statistic of a block rule. -/
def isValueBlock (r : Rule) : Bool :=
  r.template.valueStatistic.isSome && (r.ruleOperand? 1).any isBlockRule

def classify (r : Rule) : RuleClass :=
  if r.isSelection then .selection
  else if r.isPartitionBlock then .partitionBlock
  else if r.isValueBlock then .valueBlock
  else .standard

/-- The selection a rule takes its table from, which may be the rule itself. -/
def selectionRule? (r : Rule) : Option Rule :=
  if r.isSelection then some r else (r.ruleOperand? 0).filter isSelection

/-- The part that says which member of a block realizes a rule. -/
def usedPart? : Rule → Option Part
  | ⟨template, className, operands, cost, tieBreak⟩ =>
    let r : Rule := ⟨template, className, operands, cost, tieBreak⟩
    match r.classify with
    | .selection => r.partOperand? 1
    | .partitionBlock => (r.ruleOperand? 0).bind (partOperand? · 1)
    | .valueBlock =>
      match operands with
      | _ :: .rule inner :: _ => usedPart? inner
      | _ => none
    | .standard => none

mutual

/-- Whether a selection occurs in a rule. -/
def usesSelection : Rule → Bool
  | ⟨template, _, operands, _, _⟩ => template.selection || anyUsesSelection operands

/-- Whether a selection occurs in one of some operands. -/
def anyUsesSelection : List (RuleOperand Rule) → Bool
  | [] => false
  | .rule inner :: rest => usesSelection inner || anyUsesSelection rest
  | .field .. :: rest => anyUsesSelection rest
  | .part _ :: rest => anyUsesSelection rest

end

mutual

/-- The greatest number of selections on one path from a rule to an operand. -/
def selectionsOnPath : Rule → Nat
  | ⟨template, _, operands, _, _⟩ =>
    selectionsBelow operands + if template.selection then 1 else 0

/-- The greatest number of selections on one path from some operands. -/
def selectionsBelow : List (RuleOperand Rule) → Nat
  | [] => 0
  | .rule inner :: rest => max (selectionsOnPath inner) (selectionsBelow rest)
  | .field .. :: rest => selectionsBelow rest
  | .part _ :: rest => selectionsBelow rest

end

mutual

/-- The parts a rule names, depth first. -/
def parts : Rule → List Part
  | ⟨_, _, operands, _, _⟩ => partsList operands

/-- The parts some operands name, depth first. -/
def partsList : List (RuleOperand Rule) → List Part
  | [] => []
  | .rule inner :: rest => parts inner ++ partsList rest
  | .part part :: rest => part :: partsList rest
  | .field .. :: rest => partsList rest

end

end Rule

end FeatureSynth
