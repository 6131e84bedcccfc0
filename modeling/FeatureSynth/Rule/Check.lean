/-
# Checked rules

A rule fits its template when the operands fill the slots: fields and rules of
the right kind, rules evaluated in the right class, and a part in the last slot
of a selection and nowhere else.  The part has to be in its partition, and the
partition has to cut the very table the selection restricts.  No path from a rule
to an operand meets two selections.
-/
import FeatureSynth.Space.Basic

namespace FeatureSynth

namespace Rule

/-- Refuses a rule for a fault of its own. -/
def refuse {α : Type} (r : Rule) (fault : RuleFault) : Except BuildError α :=
  breach (.rule r.name r.className fault)

/-- The table and part of a selection belong together. -/
def checkSelection (s : Space) (r : Rule) : Except BuildError Unit :=
  if r.isSelection then
    match r.fieldOperand? 0, r.partOperand? 1 with
    | some (table, _), some part =>
      match s.partitions[part.partition]? with
      | some p =>
        if p.table ≠ table ∨ p.parentClass ≠ r.className then
          r.refuse (.foreignPartition table p.parentClass p.table)
        else .ok ()
      | none => r.refuse (.unknownPart part.indexes)
    | _, _ => r.refuse .selectionIncomplete
  else .ok ()

/-- A rule operand, checked by itself, fits a slot. -/
def checkInner (r inner : Rule) (index : Nat) (slot : Kind) : Except BuildError Unit := do
  let result ← inner.resultType
  if result.kind ≠ slot then r.refuse (.resultKind index result slot)
  else
    let expected ← r.operandClass index
    if inner.className ≠ expected then r.refuse (.evaluationClass index inner.className expected)
    else .ok ()

/-- A part operand stands in the slot of a selection and is in its partition. -/
def checkPart (s : Space) (r : Rule) (part : Part) (index : Nat) (slot : Kind) :
    Except BuildError Unit :=
  if slot ≠ .part ∨ !r.isSelection ∨ index + 1 ≠ r.template.slots.length then
    r.refuse (.partOutsideSlot index)
  else if (s.part? part).isNone then r.refuse (.unknownPart part.indexes)
  else .ok ()

mutual

/-- Accepts the rules that fit their templates and the space. -/
def check (s : Space) : Rule → Except BuildError Unit
  | ⟨template, className, operands, cost, tieBreak⟩ =>
    let r : Rule := ⟨template, className, operands, cost, tieBreak⟩
    if 1 < r.selectionsOnPath then r.refuse .selectionsNested
    else if template.slots.length ≠ operands.length then
      r.refuse (.operandCount template.slots.length operands.length)
    else
      match checkOperands s r 0 template.slots operands with
      | .ok () => checkSelection s r
      | .error e => .error e

/-- Accepts the operands of a rule, from an index on, that fill the slots from there on. -/
def checkOperands (s : Space) (r : Rule) :
    (index : Nat) → List Kind → List (RuleOperand Rule) → Except BuildError Unit
  | index, slot :: slots, .field name type :: rest =>
    if type.kind ≠ slot then r.refuse (.fieldKind index name type slot)
    else checkOperands s r (index + 1) slots rest
  | index, slot :: slots, .rule inner :: rest =>
    match check s inner with
    | .error e => .error e
    | .ok () =>
      match r.checkInner inner index slot with
      | .error e => .error e
      | .ok () => checkOperands s r (index + 1) slots rest
  | index, slot :: slots, .part part :: rest =>
    match r.checkPart s part index slot with
    | .error e => .error e
    | .ok () => checkOperands s r (index + 1) slots rest
  | _, _, _ => .ok ()

end

end Rule

end FeatureSynth
