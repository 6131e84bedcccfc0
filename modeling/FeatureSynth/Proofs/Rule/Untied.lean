/-
# Rules without their tie-breaks

Beside what it computes a rule carries a number that decides between candidates of equal cost.
But for that decision nothing looks at it: neither names nor formulas, nor classes of rules, nor
the two orders that ledgers are kept in.  So what is done with a ledger can be done without
tie-breaks as well.
-/
import FeatureSynth.Ledger
import FeatureSynth.Rule.Formula
import FeatureSynth.Rule.Name
import FeatureSynth.Space.Use
import Mathlib.Data.List.InsertIdx

namespace FeatureSynth

/-! ## Rules -/

namespace Rule

/-- A rule without its tie-break. -/
def untied (r : Rule) : Rule := { r with tieBreak := 0 }

/-- What is noted for a rule, and the rule without its tie-break. -/
def untiedNote {α : Type} (note : Rule × α) : Rule × α := (note.1.untied, note.2)

variable (r : Rule)

@[simp] theorem className_untied : r.untied.className = r.className := rfl

@[simp] theorem template_untied : r.untied.template = r.template := rfl

@[simp] theorem operands_untied : r.untied.operands = r.operands := rfl

@[simp] theorem cost_untied : r.untied.cost = r.cost := rfl

@[simp] theorem signature_untied : r.untied.signature = r.signature := by
  cases r
  rfl

@[simp] theorem parts_untied : r.untied.parts = r.parts := by
  cases r
  rfl

@[simp] theorem resultType_untied : r.untied.resultType = r.resultType := by
  cases r
  unfold untied resultType
  rfl

@[simp] theorem usedPart?_untied : r.untied.usedPart? = r.usedPart? := by
  cases r
  unfold untied usedPart?
  rfl

@[simp] theorem classify_untied : r.untied.classify = r.classify := by
  cases r
  rfl

theorem formulaWith_untied (parts : Part → Except BuildError Formula) :
    r.untied.formulaWith parts = r.formulaWith parts := by
  cases r
  rfl

theorem operandClass_untied (i : Nat) : r.untied.operandClass i = r.operandClass i := by
  cases r
  rfl

/-- The name of an operand is that of the operand: the rule only says where there is none. -/
theorem operandNameWith_untied (names : SelectionNames) (asBlock : Bool) :
    ∀ (xs : List (RuleOperand Rule)) (position index : Nat),
      operandNameWith names asBlock r.untied xs position index =
        operandNameWith names asBlock r xs position index
  | [], position, _ => by cases position <;> simp [operandNameWith, name]
  | x :: rest, 0, _ => by cases x <;> simp [operandNameWith, name]
  | x :: rest, position + 1, index => by
      simpa only [operandNameWith] using operandNameWith_untied names asBlock rest position index

/-- A rule that is no selection takes its table from an operand. -/
theorem selectionRule?_untied : r.untied.selectionRule? = r.selectionRule? ∨
    r.selectionRule? = some r ∧ r.untied.selectionRule? = some r.untied := by
  unfold selectionRule?
  cases h : r.isSelection with
  | true => exact .inr ⟨rfl, if_pos h⟩
  | false =>
    have hsame : r.untied.isSelection = false := h
    exact .inl (by rw [hsame]; rfl)

theorem tableName_untied : r.untied.tableName = r.tableName := by
  unfold tableName
  rcases r.selectionRule?_untied with h | ⟨h, h'⟩
  · rw [h]
    rfl
  · rw [h, h']
    rfl

theorem selectionSuffix_untied (names : SelectionNames) (asBlock : Bool) :
    r.untied.selectionSuffix names asBlock = r.selectionSuffix names asBlock := by
  unfold selectionSuffix
  rcases r.selectionRule?_untied with h | ⟨h, h'⟩
  · rw [h]
  · rw [h, h']
    rfl

theorem isNone_selectionRule?_untied :
    r.untied.selectionRule?.isNone = r.selectionRule?.isNone := by
  rcases r.selectionRule?_untied with h | ⟨h, h'⟩
  · rw [h]
  · rw [h, h']
    rfl

theorem nameWith_untied (names : SelectionNames) (asBlock : Bool) :
    r.untied.nameWith names asBlock = r.nameWith names asBlock := by
  have hname : ∀ asBlock, operandNameWith names asBlock r.untied =
      operandNameWith names asBlock r := by
    intro asBlock
    funext xs position index
    exact operandNameWith_untied r names asBlock xs position index
  have htable := tableName_untied r
  have hsuffix := selectionSuffix_untied r names asBlock
  have hselection := isNone_selectionRule?_untied r
  cases r
  unfold untied at hname htable hsuffix hselection ⊢
  unfold nameWith
  simp only [hname, htable, hsuffix, hselection]

theorem compareCostName_untied (s : Space) (a b : Rule) :
    s.compareCostName a.untied b.untied = s.compareCostName a b := by
  cases a
  cases b
  rfl

theorem compareBlock_untied (s : Space) (a b : Rule) :
    s.compareBlock a.untied b.untied = s.compareBlock a b := by
  cases a
  cases b
  rfl

variable {a b : Rule}

theorem map_untied_subrules (s : Space) (h : a.untied = b.untied) :
    (s.subrules a).map untied = (s.subrules b).map untied := by
  obtain ⟨t, C, xs, cost, tie⟩ := a
  obtain ⟨u, D, ys, cost', tie'⟩ := b
  cases h
  simp [untied, Space.subrules, Rule.subrulesWith]

theorem map_untied_blockRules (s : Space) (h : a.untied = b.untied) :
    (s.blockRules a).map untied = (s.blockRules b).map untied := by
  obtain ⟨t, C, xs, cost, tie⟩ := a
  obtain ⟨u, D, ys, cost', tie'⟩ := b
  cases h
  unfold Space.blockRules Rule.blockRulesWith
  dsimp only
  split <;> simp [untied]

end Rule

/-- Rules make the same uses without their tie-breaks. -/
theorem Space.countUses_untied (s : Space) (rules : List Rule) :
    s.countUses (rules.map Rule.untied) = s.countUses rules := by
  have huse : ∀ (s : Space) (r : Rule), s.useRule r.untied = s.useRule r := by
    intro s r
    rw [useRule, Rule.parts_untied, useRule]
  simp only [countUses, List.foldl_map, huse]

/-! ## Ledgers -/

namespace Ledger

/-- A ledger without the tie-breaks of its rules. -/
def untied (l : Ledger) : Ledger := ⟨l.entries.map Rule.untiedNote⟩

variable {order : Rule → Rule → Ordering}

theorem map_untied_modify (entries : List (Rule × Option String)) (i : Nat) (n : String) :
    (entries.modify i fun entry => (entry.1, some n)).map Rule.untiedNote =
      (entries.map Rule.untiedNote).modify i fun entry => (entry.1, some n) := by
  refine List.ext_getElem? fun j => ?_
  simp only [List.getElem?_map, List.getElem?_modify]
  cases entries[j]? with
  | none => rfl
  | some entry => by_cases hij : i = j <;> simp [hij, Rule.untiedNote]

section Search

variable (h : ∀ a b : Rule, order a.untied b.untied = order a b)
variable (l : Ledger) (r : Rule) (n : String)

include h

theorem search_untied : l.untied.search order r.untied = l.search order r := by
  have hat : ∀ i : Nat, l.untied.entries[i]?.map (order ·.1 r.untied) =
      l.entries[i]?.map (order ·.1 r) := by
    intro i
    simp only [untied, List.getElem?_map, Option.map_map, Function.comp_def, Rule.untiedNote, h]
  simp only [search, bisectList, hat]
  simp only [untied, List.length_map]

theorem get?_untied : l.untied.get? order r.untied = l.get? order r := by
  unfold get?
  rw [search_untied h]
  cases (l.search order r).found? with
  | none => rfl
  | some i =>
    simp only [Option.bind_some, untied, List.getElem?_map, Option.map_map, Function.comp_def,
      Rule.untiedNote]

theorem contains_untied : l.untied.contains order r.untied = l.contains order r := by
  unfold contains
  rw [search_untied h]

theorem enter_untied : (l.enter order r).untied = l.untied.enter order r.untied := by
  unfold enter
  rw [search_untied h]
  cases l.search order r with
  | found i => rfl
  | vacant i => simp only [untied, List.map_insertIdx, Rule.untiedNote]

theorem update_untied : (l.update order r n).untied = l.untied.update order r.untied n := by
  unfold update
  rw [search_untied h]
  cases l.search order r with
  | found i => simp only [untied, map_untied_modify]
  | vacant i => rfl

theorem record_untied : (l.record order r n).untied = l.untied.record order r.untied n := by
  unfold record
  rw [search_untied h]
  cases l.search order r with
  | found i => simp only [untied, map_untied_modify]
  | vacant i => simp only [untied, List.map_insertIdx, Rule.untiedNote]

theorem foldl_enter_untied (rules : List Rule) :
    (rules.foldl (·.enter order ·) l).untied =
      (rules.map Rule.untied).foldl (·.enter order ·) l.untied := by
  induction rules generalizing l with
  | nil => rfl
  | cons r rules ih => rw [List.foldl_cons, ih, enter_untied h, List.map_cons, List.foldl_cons]

end Search

end Ledger

end FeatureSynth
