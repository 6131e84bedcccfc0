/-
# Ledgers of rules

A ledger maps rules to the names that realize them, where they are known.  It is
kept sorted by an order of rules and searched by halving; rules that the order
finds equal share an entry.  The order is an argument of every operation and
stays the same over the life of a ledger.

Two ledgers serve a build: the sub-rules of the candidates, in order of cost and
structure, and the block rules among them, one entry per block.
-/
import FeatureSynth.Bisect
import FeatureSynth.Rule.Order

namespace FeatureSynth

/-- Rules in increasing order, with the name that realizes each, once it is known. -/
structure Ledger where
  entries : List (Rule × Option String)

namespace Ledger

def empty : Ledger := ⟨[]⟩

/-- Where a rule is, or belongs. -/
def search (order : Rule → Rule → Ordering) (l : Ledger) (r : Rule) : Spot :=
  bisectList l.entries fun entry => order entry.1 r

/-- The entry of a rule. -/
def get? (order : Rule → Rule → Ordering) (l : Ledger) (r : Rule) : Option (Option String) :=
  ((l.search order r).found?.bind fun i => l.entries[i]?).map (·.2)

/-- The name that realizes a rule, if it is known. -/
def name? (order : Rule → Rule → Ordering) (l : Ledger) (r : Rule) : Option String :=
  (l.get? order r).join

def contains (order : Rule → Rule → Ordering) (l : Ledger) (r : Rule) : Bool :=
  (l.search order r).found?.isSome

/-- The ledger with an entry for a rule, without a name if it is new. -/
def enter (order : Rule → Rule → Ordering) (l : Ledger) (r : Rule) : Ledger :=
  match l.search order r with
  | .found _ => l
  | .vacant i => ⟨l.entries.insertIdx i (r, none)⟩

/-- The ledger with a name for a rule, if it has an entry. -/
def update (order : Rule → Rule → Ordering) (l : Ledger) (r : Rule) (name : String) : Ledger :=
  match l.search order r with
  | .found i => ⟨l.entries.modify i fun entry => (entry.1, some name)⟩
  | .vacant _ => l

/-- The ledger with a name for a rule. -/
def record (order : Rule → Rule → Ordering) (l : Ledger) (r : Rule) (name : String) : Ledger :=
  match l.search order r with
  | .found i => ⟨l.entries.modify i fun entry => (entry.1, some name)⟩
  | .vacant i => ⟨l.entries.insertIdx i (r, some name)⟩

def size (l : Ledger) : Nat := l.entries.length

end Ledger

/-! ## Collection -/

namespace Rule

mutual

/-- The rules met in a rule, itself the last, from those met in parts. -/
def subrulesWith (parts : Part → List Rule) : Rule → List Rule
  | ⟨template, className, operands, cost, tieBreak⟩ =>
    subrulesIn parts operands ++ [⟨template, className, operands, cost, tieBreak⟩]

/-- The rules met in operands, from those met in parts. -/
def subrulesIn (parts : Part → List Rule) : List (RuleOperand Rule) → List Rule
  | [] => []
  | .field .. :: rest => subrulesIn parts rest
  | .rule inner :: rest => subrulesWith parts inner ++ subrulesIn parts rest
  | .part part :: rest => parts part ++ subrulesIn parts rest

end

/-- What a traversal finds of the operands of a rule: whether the first is a selection, whether the
second is a block rule, and the block rules met. -/
structure BlockSearch where
  firstSelects : Bool
  secondIsBlock : Bool
  found : List Rule

mutual

/-- Whether a rule is a block rule, and the block rules met in it, from those met in parts. -/
def blockRulesWith (parts : Part → List Rule) : Rule → Bool × List Rule
  | ⟨template, className, operands, cost, tieBreak⟩ =>
    let below := blockRulesIn parts 0 operands
    let isBlock := (template.partitionStatistic.isSome && below.firstSelects) ||
      (template.valueStatistic.isSome && below.secondIsBlock)
    if isBlock then (true, below.found ++ [⟨template, className, operands, cost, tieBreak⟩])
    else (false, below.found)

/-- What is found of operands, the first of which has the given index. -/
def blockRulesIn (parts : Part → List Rule) : (index : Nat) → List (RuleOperand Rule) → BlockSearch
  | _, [] => ⟨false, false, []⟩
  | index, .field .. :: rest => blockRulesIn parts (index + 1) rest
  | index, .rule inner :: rest =>
    let (isBlock, found) := blockRulesWith parts inner
    let below := blockRulesIn parts (index + 1) rest
    { firstSelects := if index = 0 then inner.isSelection else below.firstSelects
      secondIsBlock := if index = 1 then isBlock else below.secondIsBlock
      found := found ++ below.found }
  | index, .part part :: rest =>
    let below := blockRulesIn parts (index + 1) rest
    { below with found := parts part ++ below.found }

end

end Rule

namespace Space

/-- The rules met in the rules of a part's dimensions. -/
def partSubrules (s : Space) : (fuel : Nat) → Part → List Rule
  | 0, _ => []
  | fuel + 1, part => (s.dimensionRules part).flatMap (Rule.subrulesWith (s.partSubrules fuel))

/-- Every rule met in a rule: in its operands and in the dimensions its parts are cut along, each
before the rules it is met in. -/
def subrules (s : Space) (r : Rule) : List Rule := r.subrulesWith (s.partSubrules s.depth)

/-- The block rules met in the rules of a part's dimensions. -/
def partBlockRules (s : Space) : (fuel : Nat) → Part → List Rule
  | 0, _ => []
  | fuel + 1, part =>
    (s.dimensionRules part).flatMap fun r => (r.blockRulesWith (s.partBlockRules fuel)).2

/-- Every block rule met in a rule. -/
def blockRules (s : Space) (r : Rule) : List Rule :=
  (r.blockRulesWith (s.partBlockRules s.depth)).2

end Space

end FeatureSynth
