/-
# Block members for rules

A statistic of a selection is not computed part by part.  The table is cut once,
into a block with one member per part; a statistics block computes the statistic
of every member at once, and the field of one rule is the member of it that holds
the rule's part:

    Customer
      Partition(Orders) per amount(4)          Partition(IntervalBounds(10, 25))
      [TablePartition(Orders) per amount(4)]   TablePartition(Orders, <partition>, amount)
          Orders where amount <= 10            key 1
          Orders where amount > 25             key 3
      [Count(Orders) per amount(4)]            TablePartitionCount(<table block>)
          Count(Orders) where amount <= 10     key 1

A statistic of such a rule is a member of a block over that block, under the same
key.  Every other rule gets a field of its own.
-/
import FeatureSynth.Build.Field
import FeatureSynth.Space.Descriptor

namespace FeatureSynth

namespace Build

/-! ## Blocks -/

/-- Adds a member to a block of a class, or to a new block with the given formula if there is none
yet, and both to the registry.  Returns the block. -/
def insertMember (className : String) (block : Option String) (formula : Formula) (f : Field)
    (make : NameSource → Space → Except BuildError (String × NameSource)) : Build String := do
  let block ← match block with
    | some block =>
      edit className (·.insertMember block f)
      pure block
    | none =>
      let block ← freeName className make
      register className (·.registerBlock ⟨block, formula⟩)
      edit className fun e => .ok (e.addBlock ⟨block, formula⟩ f)
      noteBlock className block
      pure block
  register className (·.registerMember formula { f with block := some block })
  noteField className f.name
  return block

/-- A partition of the space. -/
def partition (rank : Nat) : Build Partition := do
  match (← get).space.partitions[rank]? with
  | some p => return p
  | none => lift (breach (.unknownPartition rank))

/-- Changes a partition of the space. -/
def modifyPartition (rank : Nat) (change : Partition → Partition) : Build Unit :=
  modify fun b => { b with space := b.space.modifyPartition rank change }

/-- The field that holds the descriptor of a partition. -/
def descriptorField (rank : Nat) : Build String := do
  let p ← partition rank
  match p.descriptorField with
  | some name => return name
  | none =>
    let (formula, space) ← lift ((← get).space.describe rank)
    modify fun b => { b with space }
    let name ← fieldFor p.parentClass formula (.ok (.structured "Partition")) (·.ofPartition · rank)
    modifyPartition rank fun p => { p with descriptorField := some name }
    return name

/-- The block of parts of the table that a part is cut from, with a member for the part. -/
def tableBlock (part : Part) : Build String := do
  let rank := part.partition
  let _ ← descriptorField rank
  let space := (← get).space
  let formula ← lift (space.tableBlockFormula rank)
  let key ← lift (space.key part)
  let p ← partition rank
  let c ← record p.parentClass
  let known := p.tableBlock.or (c.block? formula)
  let block ← match (c.member? formula key).isSome, known with
    | true, some block => pure block
    | _, known =>
      let name ← freeName p.parentClass (·.ofPart · part)
      insertMember p.parentClass known formula (.member name (.objectArray p.className) "" key)
        (·.ofTableBlock · rank)
  modifyPartition rank fun p => { p with tableBlock := some block }
  return block

/-- The member of a rule in the block with a formula, under a key: one that exists, or a new one in
a block that exists or a new one.  The ledgers know both from now on. -/
def blockMember (r : Rule) (formula : Formula) (key : Nat) : Build String := do
  let c ← record r.className
  let name ← match c.member? formula key with
    | some name => reuse name
    | none => do
      let name ← freeName r.className (·.ofRule · r false)
      let type ← lift r.resultType
      let block ← insertMember r.className (c.block? formula) formula (.member name type "" key)
        (·.ofRule · r true)
      modify fun b => { b with blockOf := b.blockOf.update b.space.compareBlock r block }
      pure name
  recordField r name
  return name

/-! ## Rules -/

/-- The references to the operands of a partition block rule after the first. -/
def statisticOperands (r : Rule) : List (RuleOperand Rule) → Build (List Operand)
  | [] => return []
  | .field name _ :: rest => do return .field name :: (← statisticOperands r rest)
  | .rule inner :: rest => do
    let name ← sharedField inner
    return .field name :: (← statisticOperands r rest)
  | .part _ :: _ => lift (breach (.rule r.name r.className .strayPart))

/-- The member of a partition block rule: its statistic of the block of parts of the table. -/
def partitionBlockMember (r : Rule) : Build String := do
  match r.template.partitionStatistic, r.usedPart? with
  | none, _ => lift (breach (.rule r.name r.className .noPartitionStatistic))
  | some _, none => lift (breach (.rule r.name r.className .noUsedPart))
  | some operator, some part =>
    let table ← tableBlock part
    let operands ← statisticOperands r (r.operands.drop 1)
    let key ← lift ((← get).space.key part)
    blockMember r ⟨operator, .field table :: operands⟩ key

/-- The reference to the table of a value block rule. -/
def tableOperand (r : Rule) : Build Operand := do
  match r.operands with
  | .field name _ :: _ => return .field name
  | .rule inner :: _ => return .field (← sharedField inner)
  | _ => lift (breach (.rule r.name r.className .noTableOperand))

/-- The member of a value block rule, from the member of its second operand: its statistic of the
block of that member, under the same key.  None if that rule has a field of its own. -/
def valueBlockMember (r : Rule) (operator member : String) : Build (Option String) := do
  let owner ← entity (← lift (r.operandClass 1))
  match owner.field? member with
  | some ⟨_, _, _, _, _, _, _, some block, some key⟩ =>
    let table ← tableOperand r
    return some (← blockMember r ⟨operator, [table, .field block]⟩ key)
  | _ => return none

mutual

/-- The field of a rule where blocks are built: a member of a block for the block rules collected,
a field of its own for the others. -/
def sparseField : Rule → Build String
  | ⟨template, className, operands, cost, tieBreak⟩ => do
    let r : Rule := ⟨template, className, operands, cost, tieBreak⟩
    let b ← get
    match b.fieldOf? r with
    | some name => return name
    | none =>
      let plain : Build String := do
        let operands ← sparseOperands operands
        formulaField r (template.formula operands)
      match b.blockOf.contains b.space.compareBlock r, r.classify with
      | true, .partitionBlock => partitionBlockMember r
      | true, .valueBlock =>
        match template.valueStatistic, operands with
        | some operator, _ :: .rule inner :: _ =>
          let member ← sparseField inner
          match ← valueBlockMember r operator member with
          | some name => return name
          | none => plain
        | some _, _ => lift (breach (.rule r.name r.className .noInnerRule))
        | none, _ => lift (breach (.rule r.name r.className .noValueStatistic))
      | _, _ => plain

/-- The operands of a rule over the fields that realize them; selections are shared. -/
def sparseOperands : List (RuleOperand Rule) → Build (List Operand)
  | [] => return []
  | .field name _ :: rest => do return .field name :: (← sparseOperands rest)
  | .rule inner :: rest => do
    let name ← if inner.isSelection then sharedField inner else sparseField inner
    return .field name :: (← sparseOperands rest)
  | .part part :: rest => do
    let f ← lift ((← get).space.partFormula part)
    return .ofFormula f :: (← sparseOperands rest)

end

end Build

end FeatureSynth
