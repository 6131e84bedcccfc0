/-
# Orders of rules

Two orders are built from one another.  The *structural* order compares class,
template, number of operands and operands; fields count by name, and parts by
what their partition cuts along, so that ranks play no part in it.  The *cost*
orders start from the rounded cost and then from simplicity: few operands, cheap
nested rules, cheap parts.

A block gathers the rules that differ in the indexes of one part only, the first
one met depth first.  `compareBlock` counts the parts it meets, and of the first
pair it compares the partitions only.

Orders of rules descend through parts to the rules of dimensions.  Each is given
in two steps: the order of rules from an order of parts, by recursion on the
rules, and the order of parts by recursion on a bound for the way down.  Orders by
cost see a cost through a rounding only, and are given for any.
-/
import FeatureSynth.Space.Basic

namespace FeatureSynth

/-- A cost rounded to seven decimals, in units of the last one. -/
def roundedCost (cost : Float) : Int := Scalar.floorInt64 (cost * 1e7 + 0.5)

namespace Rule

/-! ## Structure -/

mutual

/-- Structural order of rules, from an order of parts. -/
def compareWith (parts : Part → Part → Ordering) : Rule → Rule → Ordering
  | ⟨t, c, xs, _, _⟩, ⟨u, d, ys, _, _⟩ =>
    (compare c d).then ((compare t.name u.name).then
      ((compare xs.length ys.length).then (compareOperandsWith parts xs ys)))

/-- Structural order of operand lists, from an order of parts. -/
def compareOperandsWith (parts : Part → Part → Ordering) :
    List (RuleOperand Rule) → List (RuleOperand Rule) → Ordering
  | .field x _ :: xs, .field y _ :: ys => (compare x y).then (compareOperandsWith parts xs ys)
  | .rule x :: xs, .rule y :: ys => (compareWith parts x y).then (compareOperandsWith parts xs ys)
  | .part x :: xs, .part y :: ys => (parts x y).then (compareOperandsWith parts xs ys)
  | x :: xs, y :: ys => (x.origin.compare y.origin).then (compareOperandsWith parts xs ys)
  | _, _ => .eq

end

/-! ## Structure up to the first part -/

/-- Goes on with the count of a comparison that decided nothing. -/
def goOn (first : Ordering × Nat) (next : Nat → Ordering × Nat) : Ordering × Nat :=
  match first with
  | (.eq, seen) => next seen
  | decided => decided

mutual

/-- Structural order of rules that leaves out the indexes of the first part, from an order of
partitions and the number of parts seen before; with the number of parts seen after. -/
def compareBlockWith (partitions : Nat → Nat → Ordering) :
    (seen : Nat) → Rule → Rule → Ordering × Nat
  | seen, ⟨t, c, xs, _, _⟩, ⟨u, d, ys, _, _⟩ =>
    goOn ((compare c d).then ((compare t.name u.name).then (compare xs.length ys.length)), seen)
      fun seen => compareBlockOperandsWith partitions seen xs ys

/-- The same of operand lists. -/
def compareBlockOperandsWith (partitions : Nat → Nat → Ordering) :
    (seen : Nat) → List (RuleOperand Rule) → List (RuleOperand Rule) → Ordering × Nat
  | seen, .field x _ :: xs, .field y _ :: ys =>
    goOn (compare x y, seen) fun seen => compareBlockOperandsWith partitions seen xs ys
  | seen, .rule x :: xs, .rule y :: ys =>
    goOn (compareBlockWith partitions seen x y) fun seen =>
      compareBlockOperandsWith partitions seen xs ys
  | seen, .part x :: xs, .part y :: ys =>
    let order := partitions x.partition y.partition
    goOn (if seen = 0 then order else order.then (compare x.indexes y.indexes), seen + 1) fun seen =>
      compareBlockOperandsWith partitions seen xs ys
  | seen, x :: xs, y :: ys =>
    goOn (x.origin.compare y.origin, seen) fun seen => compareBlockOperandsWith partitions seen xs ys
  | seen, _, _ => (.eq, seen)

end

/-! ## Cost -/

mutual

/-- Order of rules by cost and simplicity, from a rounding and such an order of parts. -/
def compareCostWith (round : Float → Int) (parts : Part → Part → Ordering) : Rule → Rule → Ordering
  | ⟨_, _, xs, a, _⟩, ⟨_, _, ys, b, _⟩ =>
    (compare (round a) (round b)).then
      ((compare xs.length ys.length).then (compareOperandCostsWith round parts xs ys))

/-- Order of operand lists by origin and cost, from a rounding and such an order of parts. -/
def compareOperandCostsWith (round : Float → Int) (parts : Part → Part → Ordering) :
    List (RuleOperand Rule) → List (RuleOperand Rule) → Ordering
  | .rule x :: xs, .rule y :: ys =>
    (compareCostWith round parts x y).then (compareOperandCostsWith round parts xs ys)
  | .part x :: xs, .part y :: ys => (parts x y).then (compareOperandCostsWith round parts xs ys)
  | x :: xs, y :: ys => (x.origin.compare y.origin).then (compareOperandCostsWith round parts xs ys)
  | _, _ => .eq

end

end Rule

namespace Space

/-! ## Structure -/

/-- Order of two lists up to the shorter one. -/
def compareZip {α : Type} (order : α → α → Ordering) : List α → List α → Ordering
  | x :: xs, y :: ys => (order x y).then (compareZip order xs ys)
  | _, _ => .eq

/-- Order of axes, from an order of dimensions: granularity first. -/
def compareAxisWith (s : Space) (dimensions : Dimension → Dimension → Ordering) (a b : Axis) :
    Ordering :=
  (compare a.granularity b.granularity).then
    (match s.dimensions[a.dimension]?, s.dimensions[b.dimension]? with
    | some d, some e => dimensions d e
    | _, _ => .eq)

/-- Order of partitions, from an order of dimensions: classes, table, number of axes, axes. -/
def comparePartitionsWith (s : Space) (dimensions : Dimension → Dimension → Ordering) (a b : Nat) :
    Ordering :=
  if a = b then .eq
  else
    match s.partitions[a]?, s.partitions[b]? with
    | some p, some q =>
      (compare p.className q.className).then ((compare p.parentClass q.parentClass).then
        ((compare p.table q.table).then ((compare p.axes.length q.axes.length).then
          (compareZip (s.compareAxisWith dimensions) p.axes q.axes))))
    | _, _ => compare a b

/-- Order of parts, from an order of partitions: indexes come last. -/
def comparePartsWith (partitions : Nat → Nat → Ordering) (x y : Part) : Ordering :=
  (partitions x.partition y.partition).then (compare x.indexes y.indexes)

/-- Order of dimensions: fields by name, then rules by structure. -/
def compareDimensions (s : Space) : (fuel : Nat) → Dimension → Dimension → Ordering
  | 0, _, _ => .eq
  | fuel + 1, d, e =>
    match d.origin, e.origin with
    | .field x _, .field y _ => compare x y
    | .rule x, .rule y =>
      x.compareWith (comparePartsWith (s.comparePartitionsWith (s.compareDimensions fuel))) y
    | .field .., .rule _ => .lt
    | .rule _, .field .. => .gt

/-- Order of partitions by what they cut along. -/
def comparePartitions (s : Space) (a b : Nat) : Ordering :=
  s.comparePartitionsWith (s.compareDimensions s.depth) a b

/-- Order of parts: partition, then indexes. -/
def compareParts (s : Space) : Part → Part → Ordering := comparePartsWith s.comparePartitions

/-- The structural order of rules. -/
def compareRules (s : Space) (a b : Rule) : Ordering := a.compareWith s.compareParts b

/-- Rounded cost, then structure up to the indexes of the first part of each rule. -/
def compareBlock (s : Space) (a b : Rule) : Ordering :=
  (compare (roundedCost a.cost) (roundedCost b.cost)).then
    (Rule.compareBlockWith s.comparePartitions 0 a b).1

/-! ## Cost -/

/-- Rounded cost of a part; nothing is known of a part outside its partition. -/
def partCost (s : Space) (round : Float → Int) (part : Part) : Int :=
  match s.part? part with
  | some e => round e.cost
  | none => 0

/-- Order of dimensions by cost, from such an order of rules: fields first, all alike. -/
def compareDimensionCostsWith (rules : Rule → Rule → Ordering) (d e : Dimension) : Ordering :=
  match d.origin, e.origin with
  | .rule x, .rule y => rules x y
  | .field .., .rule _ => .lt
  | .rule _, .field .. => .gt
  | .field .., .field .. => .eq

/-- Order of parts: cost, number of indexes, then the costs of the dimensions cut along. -/
def comparePartCosts (s : Space) (round : Float → Int) : (fuel : Nat) → Part → Part → Ordering
  | 0, _, _ => .eq
  | fuel + 1, x, y =>
    (compare (s.partCost round x) (s.partCost round y)).then
      ((compare x.indexes.length y.indexes.length).then
        (match s.partitions[x.partition]?, s.partitions[y.partition]? with
        | some p, some q =>
          compareZip
            (compareDimensionCostsWith (Rule.compareCostWith round (s.comparePartCosts round fuel)))
            (s.axisDimensions p) (s.axisDimensions q)
        | _, _ => .eq))

section Rounding

variable (s : Space) (round : Float → Int) (a b : Rule)

/-- Rounded cost, then simplicity: number and origins of operands, costs of nested rules and
parts. -/
def compareCostBy : Ordering := a.compareCostWith round (s.comparePartCosts round s.depth) b

/-- Cost, then the tie-break. -/
def compareCostTieBy : Ordering := (s.compareCostBy round a b).then (compare a.tieBreak b.tieBreak)

/-- Cost, then structure. -/
def compareCostNameBy : Ordering := (s.compareCostBy round a b).then (s.compareRules a b)

end Rounding

/-- The order of cost, to seven decimals. -/
def compareCost (s : Space) : Rule → Rule → Ordering := s.compareCostBy roundedCost

/-- The order of cost and tie-break, to seven decimals. -/
def compareCostTie (s : Space) : Rule → Rule → Ordering := s.compareCostTieBy roundedCost

/-- The order of cost and structure, to seven decimals. -/
def compareCostName (s : Space) : Rule → Rule → Ordering := s.compareCostNameBy roundedCost

end Space

end FeatureSynth
