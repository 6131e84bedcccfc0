/-
# Formulas

A formula is an operator applied to an ordered list of operands: references to
fields, constants, and further formulas.  It is what a rule becomes once its
parts are known, and the identity of a derived field: two fields of one class
with the same formula are the same field.

`Operand` nests through lists only, and a `Formula` is the content of a nested
operand, so every traversal is one recursion on an operand beside one on a list.
Equality is structural and decidable; on continuous constants it compares bits.
-/
import FeatureSynth.Scalar

namespace FeatureSynth

/-- A constant operand. -/
inductive Constant where
  | continuous (value : Float)
  | symbol (text : String)
deriving DecidableEq

/-- What an operator is applied to. -/
inductive Operand where
  | field (name : String)
  | constant (value : Constant)
  | nested (name : String) (operands : List Operand)

/-- An operator applied to operands. -/
structure Formula where
  name : String
  operands : List Operand

namespace Operand

/-- The missing value as an operand. -/
def missing : Operand := .constant (.continuous Scalar.missing)

def continuous (value : Float) : Operand := .constant (.continuous value)

def symbol (text : String) : Operand := .constant (.symbol text)

/-- A formula as an operand of another one. -/
def ofFormula (f : Formula) : Operand := .nested f.name f.operands

/-! ## Equality -/

mutual

/-- Whether two operands are equal. -/
def same : Operand → Operand → Bool
  | .field a, .field b => a == b
  | .constant a, .constant b => decide (a = b)
  | .nested f xs, .nested g ys => f == g && sameList xs ys
  | _, _ => false

/-- Whether two operand lists are equal. -/
def sameList : List Operand → List Operand → Bool
  | [], [] => true
  | x :: xs, y :: ys => same x y && sameList xs ys
  | _, _ => false

end

mutual

theorem same_iff : ∀ a b : Operand, same a b = true ↔ a = b
  | .field a, .field b => by simp [same]
  | .constant a, .constant b => by simp [same]
  | .nested f xs, .nested g ys => by simp [same, sameList_iff xs ys]
  | .field _, .constant _ => by simp [same]
  | .field _, .nested .. => by simp [same]
  | .constant _, .field _ => by simp [same]
  | .constant _, .nested .. => by simp [same]
  | .nested .., .field _ => by simp [same]
  | .nested .., .constant _ => by simp [same]

theorem sameList_iff : ∀ xs ys : List Operand, sameList xs ys = true ↔ xs = ys
  | [], [] => by simp [sameList]
  | x :: xs, y :: ys => by simp [sameList, same_iff x y, sameList_iff xs ys]
  | [], _ :: _ => by simp [sameList]
  | _ :: _, [] => by simp [sameList]

end

instance : DecidableEq Operand := fun a b => decidable_of_iff (same a b = true) (same_iff a b)

/-! ## References -/

mutual

/-- Field names an operand refers to, depth first. -/
def refs : Operand → List String
  | .field name => [name]
  | .constant _ => []
  | .nested _ operands => refsList operands

/-- Field names a list of operands refers to, depth first. -/
def refsList : List Operand → List String
  | [] => []
  | x :: xs => refs x ++ refsList xs

end

end Operand

deriving instance DecidableEq for Formula

namespace Formula

/-- Every field name a formula refers to, depth first. -/
def refs (f : Formula) : List String := Operand.refsList f.operands

end Formula

end FeatureSynth
