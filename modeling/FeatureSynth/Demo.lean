/-
# The demo domain

Customers place orders of products.  The candidates of the demo are some plain
statistics of the orders and, for every part of four partitions of them, three
statistics of the part.  A candidate costs more the deeper it is and the more parts
its partition has.
-/
import FeatureSynth.Request
import FeatureSynth.Template.Default

namespace FeatureSynth

namespace Demo

/-! ## Schema -/

/-- Type of the orders of a customer. -/
def orders : FieldType := .objectArray "Orders"

def schema : Schema :=
  ⟨[ { name := "Customer", blocks := []
       fields :=
        [ .native "id" .symbol, .native "birthdate" .date, .native "signup" .timestamp,
          .native "churn" .symbol, .native "Orders" orders ] },
     { name := "Orders", blocks := []
       fields :=
        [ .native "amount" .continuous, .native "channel" .symbol, .native "date" .date,
          .native "Product" (.object "Product") ] },
     { name := "Product", blocks := []
       fields := [.native "price" .continuous, .native "category" .symbol] } ]⟩

/-! ## Plain candidates -/

/-- A default template applied to operands. -/
def rule (name className : String) (operands : List (RuleOperand Rule)) (cost : Float) :
    Except BuildError Rule :=
  match Catalogue.default.template? name with
  | some template => .ok ⟨template, className, operands, cost, 0⟩
  | none => breach (.noTemplate name)

def table : RuleOperand Rule := .field "Orders" orders

def amount : RuleOperand Rule := .field "amount" .continuous

def channel : RuleOperand Rule := .field "channel" .symbol

/-- The price of the product of an order. -/
def price : Except BuildError Rule :=
  rule "GetValue" "Orders" [.field "Product" (.object "Product"), .field "price" .continuous] 0

/-- The day of the year of an order. -/
def yearDay : Except BuildError Rule := rule "YearDay" "Orders" [.field "date" .date] 0

/-- The candidates that select nothing. -/
def plainCandidates : Except BuildError (List Rule) := do
  let price ← price
  return [
    ← rule "TableCount" "Customer" [table] 1,
    ← rule "TableSum" "Customer" [table, amount] 1.5,
    ← rule "TableMean" "Customer" [table, amount] 1.5,
    ← rule "TableMode" "Customer" [table, channel] 1.5,
    ← rule "TableMean" "Customer" [table, .rule price] 2,
    ← rule "TableMax" "Customer" [table, .rule price] 2,
    ← rule "YearDay" "Customer" [.field "birthdate" .date] 1,
    ← rule "GetDate" "Customer" [.field "signup" .timestamp] 1 ]

/-! ## Candidates on parts -/

/-- The statistics of one part. -/
def partCandidates (part : Part) (cost : Float) : Except BuildError (List Rule) := do
  let selection ← rule "TableSelection" "Customer" [table, .part part] 0
  return [
    ← rule "TableCount" "Customer" [.rule selection] cost,
    ← rule "TableSum" "Customer" [.rule selection, amount] (cost + 0.5),
    ← rule "TableMode" "Customer" [.rule selection, channel] (cost + 0.5) ]

/-- The index vectors of a partition, the first axis running fastest. -/
def indexVectors : (granularities : List Nat) → List (List Nat)
  | [] => [[]]
  | g :: rest => (indexVectors rest).flatMap fun tail => (List.range g).map (· :: tail)

/-- A space, and the candidates found so far. -/
structure Progress where
  space : Space
  candidates : List Rule

/-- Adds a part and its statistics. -/
def addPart (rank : Nat) (cost : Float) (p : Progress) (indexes : List Nat) :
    Except BuildError Progress := do
  let (part, space) ← p.space.addPart rank indexes cost
  return ⟨space, p.candidates ++ (← partCandidates part cost)⟩

/-- Adds the partition of the orders along axes, with all its parts and their statistics. -/
def addPartition (p : Progress) (axes : List Axis) : Except BuildError Progress := do
  let (rank, space) ← p.space.addPartition "Customer" "Orders" orders axes
  let vectors := indexVectors (axes.map (·.granularity))
  vectors.foldlM (addPart rank (2 + Float.ofNat vectors.length.log2)) ⟨space, p.candidates⟩

/-- The partition space of the demo, and all candidates. -/
def setUp : Except BuildError Progress := do
  let (amount, space) ← Space.empty.addFieldDimension "Orders" "amount" .continuous
  let (channel, space) ← space.addFieldDimension "Orders" "channel" .symbol
  let (yearDay, space) ← space.addRuleDimension (← yearDay)
  [[⟨amount, 2⟩], [⟨amount, 4⟩], [⟨channel, 4⟩], [⟨yearDay, 2⟩, ⟨amount, 2⟩]].foldlM addPartition
    ⟨space, ← plainCandidates⟩

/-- The request of the demo. -/
def request : Except BuildError Request := do
  let p ← setUp
  return ⟨schema, p.space, p.candidates⟩

end Demo

end FeatureSynth
