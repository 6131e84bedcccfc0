/-
# Demo data

Orders are drawn from a seed, so that a seed always gives the same ones.  A
customer places up to seven orders; most baskets are small, and a few are large.
-/
import FeatureSynth.Calendar.Date
import FeatureSynth.Sample.Memory

namespace FeatureSynth

namespace Demo

/-- What is drawn of an order. -/
structure Order where
  amount : Float
  channel : String
  /-- Day of the year. -/
  yearDay : Nat

/-! ## Drawing -/

/-- Draws depend on a state that each of them changes. -/
abbrev Draw := StateM UInt64

/-- A number below a bound. -/
def below (bound : Nat) : Draw Nat := do
  let state := (← get) * 6364136223846793005 + 1442695040888963407
  set state
  return (state >>> 33).toNat % bound

/-- An amount, in cents: four of five baskets are small. -/
def amountCents : Draw Nat := do
  if (← below 5) < 4 then return 500 + (← below 5500) else return 6000 + (← below 44000)

/-- The channels, each with its share of a hundred orders. -/
def channels : List (String × Nat) := [("web", 50), ("store", 30), ("phone", 15), ("partner", 5)]

/-- The channel that a number below a hundred falls to. -/
def channelAt : List (String × Nat) → Nat → String
  | [], _ => "web"
  | (name, share) :: rest, n => if n < share then name else channelAt rest (n - share)

/-- An order of the two years up to a date. -/
def order (reference : Date) : Draw Order := do
  let cents ← amountCents
  let channel := channelAt channels (← below 100)
  let age ← below 730
  return {
    amount := Float.ofNat cents / 100
    channel
    yearDay := Date.dayOfYearBefore reference.year reference.dayOfYear age }

/-- The orders of one customer in front of others. -/
def ordersOfOne (reference : Date) (others : List Order) : Draw (List Order) := do
  let count ← below 8
  (List.range count).foldlM (fun orders _ => return (← order reference) :: orders) others

/-- The orders of some customers. -/
def drawOrders (reference : Date) (customers : Nat) : Draw (List Order) :=
  customers.foldM (fun _ _ orders => ordersOfOne reference orders) []

/-! ## Columns -/

/-- The orders of the demo, from a seed. -/
def ordersFor (customers seed : Nat) (reference : Date) : List Order :=
  ((drawOrders reference customers).run (UInt64.ofNat seed)).1

/-- What samplers need of orders. -/
def samples (customers : Nat) (orders : List Order) : Samples :=
  .ofColumns customers
    [ (⟨"Orders", "amount"⟩, .continuous (orders.map (·.amount))),
      (⟨"Orders", "channel"⟩, .symbol (orders.map (·.channel))),
      (⟨"Orders", "YearDay(date)"⟩, .continuous (orders.map fun o => Float.ofNat o.yearDay)) ]

end Demo

end FeatureSynth
