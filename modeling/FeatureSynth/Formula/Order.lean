/-
# Order of formulas

Formulas are keys of sorted indexes.  References come before constants and
constants before nested formulas; numbers come before symbols; formulas compare
by operator, then operand by operand, a shorter list before its extensions.
-/
import FeatureSynth.Formula.Basic

namespace FeatureSynth

/-- Numbers in the total order of doubles, then symbols by code points. -/
def Constant.compare : Constant → Constant → Ordering
  | .continuous a, .continuous b => Scalar.compare a b
  | .symbol a, .symbol b => Ord.compare a b
  | .continuous _, .symbol _ => .lt
  | .symbol _, .continuous _ => .gt

namespace Operand

mutual

/-- References, then constants, then nested formulas. -/
def compare : Operand → Operand → Ordering
  | .field a, .field b => Ord.compare a b
  | .constant a, .constant b => a.compare b
  | .nested f xs, .nested g ys => (Ord.compare f g).then (compareList xs ys)
  | .field _, _ => .lt
  | _, .field _ => .gt
  | .constant _, .nested .. => .lt
  | .nested .., .constant _ => .gt

/-- Lexicographic order of operand lists. -/
def compareList : List Operand → List Operand → Ordering
  | [], [] => .eq
  | [], _ :: _ => .lt
  | _ :: _, [] => .gt
  | x :: xs, y :: ys => (compare x y).then (compareList xs ys)

end

end Operand

/-- Operator first, then operands. -/
def Formula.compare (f g : Formula) : Ordering :=
  (Ord.compare f.name g.name).then (Operand.compareList f.operands g.operands)

end FeatureSynth
