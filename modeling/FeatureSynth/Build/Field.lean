/-
# Fields for rules

A rule gets a field in one of two ways.  Directly, the field computes the whole
formula of the rule.  With sharing, every rule operand gets a field of its own
first and the formula refers to them, so that a sub-rule common to several rules
is computed once.  Either way a field that computes the formula already is used
as it is.
-/
import FeatureSynth.Build.State

namespace FeatureSynth

namespace Build

/-- The field of a class with a formula: one that exists, or a new one. -/
def fieldFor (className : String) (formula : Formula) (type : Except BuildError FieldType)
    (make : NameSource → Space → Except BuildError (String × NameSource)) : Build String := do
  match (← record className).field? formula with
  | some name => reuse name
  | none =>
    let name ← freeName className make
    insertDerived className (.derived name (← lift type) formula)

/-- The field that computes the whole formula of a rule. -/
def directField (r : Rule) : Build String := do
  let (existing, c) ← lift ((← record r.className).lookupRule (← get).space r)
  setRecord r.className c
  match existing with
  | some name => reuse name
  | none =>
    let formula ← lift ((← get).space.formula r)
    fieldFor r.className formula r.resultType (·.ofRule · r false)

/-- The field of a rule whose formula over the fields of its operands is given; the ledger knows
it from now on. -/
def formulaField (r : Rule) (formula : Formula) : Build String := do
  let name ← fieldFor r.className formula r.resultType (·.ofRule · r false)
  recordField r name
  return name

mutual

/-- The shared field of a rule. -/
def sharedField : Rule → Build String
  | ⟨template, className, operands, cost, tieBreak⟩ => do
    let r : Rule := ⟨template, className, operands, cost, tieBreak⟩
    match (← get).fieldOf? r with
    | some name => return name
    | none =>
      let operands ← sharedOperands operands
      formulaField r (template.formula operands)

/-- The operands of a rule over shared fields. -/
def sharedOperands : List (RuleOperand Rule) → Build (List Operand)
  | [] => return []
  | .field name _ :: rest => do return .field name :: (← sharedOperands rest)
  | .rule inner :: rest => do
    let name ← sharedField inner
    return .field name :: (← sharedOperands rest)
  | .part part :: rest => do
    let f ← lift ((← get).space.partFormula part)
    return .ofFormula f :: (← sharedOperands rest)

end

end Build

end FeatureSynth
