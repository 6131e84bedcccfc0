/-
# Formulas of rules

A rule becomes a formula operand by operand: a field becomes a reference, a rule
its formula, and a part the criterion that its records meet.  The criterion of a
part compares each dimension with a partile; over several axes the comparisons
are joined by `And`.  A dimension that has a field in the schema in work is
referred to by it, and spelled out as a formula otherwise.
-/
import FeatureSynth.Space.Resolve

namespace FeatureSynth

/-- A partition criterion on one operand: it is met by the values of a partile. -/
def Partile.criterion (operand : Operand) (kind : Kind) (partile : Partile) :
    Except BuildError Formula :=
  match kind, partile with
  | .symbol, .value v _ [] => .ok ⟨"EQc", [operand, .symbol v]⟩
  | .symbol, .value _ _ outside =>
    .ok ⟨"Not", [.nested "InGroup" [.nested "ValueGroup" (outside.map .symbol), operand]]⟩
  | .continuous, .interval lower upper index =>
    if upper == Scalar.missing then .ok ⟨"EQ", [operand, .missing]⟩
    else if lower == Scalar.missing && upper == Scalar.maxValue then
      .ok ⟨"NEQ", [operand, .missing]⟩
    else if upper == Scalar.maxValue then .ok ⟨"G", [operand, .continuous lower]⟩
    else if lower == Scalar.missing && index == 0 then .ok ⟨"LE", [operand, .continuous upper]⟩
    else
      .ok ⟨"InInterval", [.nested "IntervalBounds" [.continuous lower, .continuous upper], operand]⟩
  | kind, _ => breach (.partileMismatch kind)

/-- One criterion, or several joined. -/
def Formula.conjunction : List Formula → Formula
  | [f] => f
  | fs => ⟨"And", fs.map .ofFormula⟩

namespace Rule

mutual

/-- The formula of a rule, from the formulas of parts. -/
def formulaWith (parts : Part → Except BuildError Formula) : Rule → Except BuildError Formula
  | ⟨template, _, operands, _, _⟩ =>
    match operandFormulasWith parts operands with
    | .ok operands => .ok (template.formula operands)
    | .error e => .error e

/-- The formula operands of operands, from the formulas of parts. -/
def operandFormulasWith (parts : Part → Except BuildError Formula) :
    List (RuleOperand Rule) → Except BuildError (List Operand)
  | [] => .ok []
  | .field name _ :: rest =>
    match operandFormulasWith parts rest with
    | .ok operands => .ok (.field name :: operands)
    | .error e => .error e
  | .rule inner :: rest =>
    match formulaWith parts inner with
    | .error e => .error e
    | .ok f =>
      match operandFormulasWith parts rest with
      | .ok operands => .ok (.ofFormula f :: operands)
      | .error e => .error e
  | .part part :: rest =>
    match parts part with
    | .error e => .error e
    | .ok f =>
      match operandFormulasWith parts rest with
      | .ok operands => .ok (.ofFormula f :: operands)
      | .error e => .error e

end

end Rule

namespace Space

/-- The operand that stands for a dimension: its field, or the formula of its rule. -/
def dimensionOperandWith (parts : Part → Except BuildError Formula) (d : Dimension) :
    Except BuildError Operand :=
  match d.origin, d.selectionField with
  | .field name _, _ => .ok (.field name)
  | .rule _, some name => .ok (.field name)
  | .rule r, none => (r.formulaWith parts).map .ofFormula

/-- The criterion of one axis of a part, from the formulas of parts. -/
def axisCriterionWith (s : Space) (parts : Part → Except BuildError Formula) (a : Axis)
    (index : Nat) : Except BuildError Formula := do
  let (d, partile) ← s.resolve a index
  let operand ← dimensionOperandWith parts d
  partile.criterion operand d.kind

/-- The criterion that the records of a part meet, a bounded number of steps down.  No way down is
as long as the depth of a space that is well founded.  In one that is not the program may go down
without an end, where this stops at the criterion that all records meet. -/
def partFormulaWithin (s : Space) : (fuel : Nat) → Part → Except BuildError Formula
  | 0, _ => .ok (.conjunction [])
  | fuel + 1, part => do
    let criteria ← (s.axesOf part).mapM fun (a, index) =>
      s.axisCriterionWith (s.partFormulaWithin fuel) a index
    return .conjunction criteria

/-- The criterion that the records of a part meet. -/
def partFormula (s : Space) (part : Part) : Except BuildError Formula :=
  s.partFormulaWithin s.depth part

/-- The formula of a rule. -/
def formula (s : Space) (r : Rule) : Except BuildError Formula := r.formulaWith s.partFormula

/-- Whether every part a rule names has a criterion. -/
def resolves (s : Space) (r : Rule) : Bool := r.parts.all fun part => (s.partFormula part).isOk

end Space

end FeatureSynth
