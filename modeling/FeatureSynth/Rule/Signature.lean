/-
# Signatures of rules

The signature of a rule is what it computes, without what it costs: class,
template name, and operands, where a field counts by its name and a part by its
partition and indexes.  Rules with one signature have one formula, so lookups are
remembered under signatures.
-/
import FeatureSynth.Rule.Basic

namespace FeatureSynth

/-- An operand of a signature. -/
inductive SignatureOperand (σ : Type) where
  | field (name : String)
  | rule (signature : σ)
  | part (part : Part)

/-- The structure of a rule. -/
structure Signature where
  className : String
  name : String
  operands : List (SignatureOperand Signature)

namespace Rule

mutual

/-- The signature of a rule. -/
def signature : Rule → Signature
  | ⟨template, className, operands, _, _⟩ => ⟨className, template.name, signatureList operands⟩

/-- The signatures of operands. -/
def signatureList : List (RuleOperand Rule) → List (SignatureOperand Signature)
  | [] => []
  | .field name _ :: rest => .field name :: signatureList rest
  | .rule inner :: rest => .rule (signature inner) :: signatureList rest
  | .part part :: rest => .part part :: signatureList rest

end

end Rule

namespace Signature

mutual

/-- Class, then name, then operands. -/
def compare : Signature → Signature → Ordering
  | ⟨c, n, xs⟩, ⟨d, m, ys⟩ =>
    (Ord.compare c d).then ((Ord.compare n m).then (compareList xs ys))

/-- Lexicographic order of operands; fields come before rules and rules before parts. -/
def compareList :
    List (SignatureOperand Signature) → List (SignatureOperand Signature) → Ordering
  | [], [] => .eq
  | [], _ :: _ => .lt
  | _ :: _, [] => .gt
  | .field x :: xs, .field y :: ys => (Ord.compare x y).then (compareList xs ys)
  | .rule x :: xs, .rule y :: ys => (compare x y).then (compareList xs ys)
  | .part x :: xs, .part y :: ys =>
    (Ord.compare x.partition y.partition).then
      ((Ord.compare x.indexes y.indexes).then (compareList xs ys))
  | .field _ :: _, _ :: _ => .lt
  | _ :: _, .field _ :: _ => .gt
  | .rule _ :: _, .part _ :: _ => .lt
  | .part _ :: _, .rule _ :: _ => .gt

end

end Signature

end FeatureSynth
