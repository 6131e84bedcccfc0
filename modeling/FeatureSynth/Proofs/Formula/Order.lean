/-
# The order of formulas is total

Sorted indexes keyed by formulas keep an entry only if formulas compare as in a total
order, with nothing equal but what is the same.  A formula is its tree of names, symbols
and patterns of bits (`Formula.bits`), and the order is that of these trees
(`compare_bits`): it reads nothing else of a number.  So it is proved total on trees, of
all patterns of 64 bits, among them those of every NaN.

Trees compare by kind first, and among trees of one kind by what they hold.  Where kinds
tell two apart, what the trees hold does not matter, and this is the shape in which the
laws are proved: they chain link by link (`Chains.then`), and the recursion only ever
meets trees of one kind.
-/
import FeatureSynth.Formula.Order
import FeatureSynth.Proofs.Rule.Lawful
import FeatureSynth.Proofs.Scalar.Rank

namespace FeatureSynth

/-! ## Trees -/

/-- An operand with the bits of its numbers. -/
inductive OperandBits where
  | field (name : String)
  | number (bits : UInt64)
  | symbol (text : String)
  | nested (name : String) (operands : List OperandBits)

/-- A formula with the bits of its numbers. -/
structure FormulaBits where
  name : String
  operands : List OperandBits

namespace OperandBits

/-- References come first, then numbers, symbols, and nested formulas. -/
def kindRank : OperandBits → Nat
  | .field _ => 0
  | .number _ => 1
  | .symbol _ => 2
  | .nested .. => 3

mutual

/-- Order of operands of one kind. -/
def compareAlike : OperandBits → OperandBits → Ordering
  | .field a, .field b => Ord.compare a b
  | .number a, .number b => Ord.compare (Scalar.rankOfBits a) (Scalar.rankOfBits b)
  | .symbol a, .symbol b => Ord.compare a b
  | .nested f xs, .nested g ys => (Ord.compare f g).then (compareList xs ys)
  | _, _ => .eq

/-- Lexicographic order of operand lists. -/
def compareList : List OperandBits → List OperandBits → Ordering
  | [], [] => .eq
  | [], _ :: _ => .lt
  | _ :: _, [] => .gt
  | x :: xs, y :: ys =>
    (Ord.compare x.kindRank y.kindRank).then ((compareAlike x y).then (compareList xs ys))

end

/-! ## Laws -/

mutual

theorem swap_compareAlike : ∀ x y : OperandBits, compareAlike y x = (compareAlike x y).swap
  | .field a, .field b | .symbol a, .symbol b => by
      rw [compareAlike, compareAlike]
      exact Std.OrientedCmp.eq_swap
  | .number a, .number b => by
      rw [compareAlike, compareAlike]
      exact Std.OrientedCmp.eq_swap
  | .nested f xs, .nested g ys => by
      have hname : Ord.compare g f = (Ord.compare f g).swap := Std.OrientedCmp.eq_swap
      rw [compareAlike, compareAlike, Ordering.swap_then, swap_compareList xs ys, hname]
  | .field _, .number _ | .field _, .symbol _ | .field _, .nested .. | .number _, .field _
  | .number _, .symbol _ | .number _, .nested .. | .symbol _, .field _ | .symbol _, .number _
  | .symbol _, .nested .. | .nested .., .field _ | .nested .., .number _ | .nested .., .symbol _ => rfl

theorem swap_compareList : ∀ xs ys : List OperandBits, compareList ys xs = (compareList xs ys).swap
  | [], [] | [], _ :: _ | _ :: _, [] => rfl
  | x :: xs, y :: ys => by
      have hkind : Ord.compare y.kindRank x.kindRank = (Ord.compare x.kindRank y.kindRank).swap :=
        Std.OrientedCmp.eq_swap
      rw [compareList, compareList, Ordering.swap_then, Ordering.swap_then, hkind,
        swap_compareAlike x y, swap_compareList xs ys]

end

mutual

theorem chains_compareAlike : ∀ x y z : OperandBits, Ord.compare x.kindRank y.kindRank = .eq →
    Ord.compare y.kindRank z.kindRank = .eq →
      Chains (compareAlike x y) (compareAlike y z) (compareAlike x z)
  | .field a, .field b, .field c, _, _ | .symbol a, .symbol b, .symbol c, _, _ => by
      rw [compareAlike, compareAlike, compareAlike]
      exact chains_compare a b c
  | .number a, .number b, .number c, _, _ => by
      rw [compareAlike, compareAlike, compareAlike]
      exact chains_compare _ _ _
  | .nested f xs, .nested g ys, .nested h zs, _, _ => by
      rw [compareAlike, compareAlike, compareAlike]
      exact (chains_compare f g h).then fun _ _ => chains_compareList xs ys zs

theorem chains_compareList : ∀ xs ys zs : List OperandBits,
    Chains (compareList xs ys) (compareList ys zs) (compareList xs zs)
  | [], [], [] | [], [], _ :: _ | [], _ :: _, _ :: _ => fun _ _ => rfl
  -- a list is not before the empty one
  | _, _ :: _, [] => fun _ h => absurd rfl h
  | _ :: _, [], _ => fun h _ => absurd rfl h
  | x :: xs, y :: ys, z :: zs => by
      rw [compareList, compareList, compareList]
      refine (chains_compare x.kindRank y.kindRank z.kindRank).then fun hxy hyz => ?_
      exact (chains_compareAlike x y z hxy hyz).then fun _ _ => chains_compareList xs ys zs

end

mutual

theorem compareAlike_eq_iff : ∀ x y : OperandBits, Ord.compare x.kindRank y.kindRank = .eq →
    (compareAlike x y = .eq ↔ x = y)
  | .field a, .field b, _ => by rw [compareAlike, Std.compare_eq_iff_eq, field.injEq]
  | .symbol a, .symbol b, _ => by rw [compareAlike, Std.compare_eq_iff_eq, symbol.injEq]
  | .number a, .number b, _ => by
      rw [compareAlike, Std.compare_eq_iff_eq, Scalar.rankOfBits_inj, number.injEq]
  | .nested f xs, .nested g ys, _ => by
      rw [compareAlike, Ordering.then_eq_eq, Std.compare_eq_iff_eq, compareList_eq_iff xs ys,
        nested.injEq]

theorem compareList_eq_iff : ∀ xs ys : List OperandBits, compareList xs ys = .eq ↔ xs = ys
  | [], [] => iff_of_true rfl rfl
  | [], _ :: _ | _ :: _, [] => by simp [compareList]
  | x :: xs, y :: ys => by
      rw [compareList, Ordering.then_eq_eq, Ordering.then_eq_eq, List.cons.injEq,
        compareList_eq_iff xs ys]
      constructor
      · rintro ⟨hkind, hxy, hrest⟩
        exact ⟨(compareAlike_eq_iff x y hkind).mp hxy, hrest⟩
      · rintro ⟨rfl, rfl⟩
        have hkind : Ord.compare x.kindRank x.kindRank = .eq := Std.compare_eq_iff_eq.mpr rfl
        exact ⟨hkind, (compareAlike_eq_iff x x hkind).mpr rfl, rfl⟩

end

end OperandBits

/-- A comparison that is that of a total order. -/
structure TotalOrder {α : Type} (order : α → α → Ordering) : Prop where
  refl : ∀ a, order a a = .eq
  swap : ∀ a b, order b a = (order a b).swap
  trans : ∀ a b c, order a b ≠ .gt → order b c ≠ .gt → order a c ≠ .gt
  total : ∀ a b, order a b ≠ .gt ∨ order b a ≠ .gt
  eq_iff : ∀ a b, order a b = .eq ↔ a = b

/-- A lawful order is total if it finds nothing equal but what is. -/
theorem LawfulOn.totalOrder {α : Type} {order : α → α → Ordering}
    (h : LawfulOn (fun _ => True) order) (heq : ∀ a b, order a b = .eq ↔ a = b) : TotalOrder order where
  refl := fun a => h.refl trivial
  swap := fun a b => h.swap a b trivial trivial
  trans := by
    intro a b c hab hbc
    rw [h.chains a b c trivial trivial trivial hab hbc]
    cases hfirst : order a b with
    | lt => exact Ordering.noConfusion
    | eq => exact hbc
    | gt => exact absurd hfirst hab
  total := by
    intro a b
    rw [h.swap a b trivial trivial]
    cases order a b with
    | lt | eq => exact .inl Ordering.noConfusion
    | gt => exact .inr Ordering.noConfusion
  eq_iff := heq

namespace FormulaBits

/-- Operator first, then operands. -/
def compare (f g : FormulaBits) : Ordering :=
  (Ord.compare f.name g.name).then (OperandBits.compareList f.operands g.operands)

theorem lawfulOn_compare : LawfulOn (fun _ => True) compare :=
  (LawfulOn.of_compare name).both
    { swap := fun f g _ _ => OperandBits.swap_compareList f.operands g.operands
      chains := fun f g h _ _ _ => OperandBits.chains_compareList f.operands g.operands h.operands }

theorem totalOrder_compare : TotalOrder compare :=
  lawfulOn_compare.totalOrder fun f g => by
    obtain ⟨n, xs⟩ := f
    obtain ⟨m, ys⟩ := g
    rw [compare, Ordering.then_eq_eq, Std.compare_eq_iff_eq, OperandBits.compareList_eq_iff, mk.injEq]

end FormulaBits

/-! ## Formulas as trees -/

namespace Operand

mutual

/-- The tree of an operand. -/
def bits : Operand → OperandBits
  | .field name => .field name
  | .constant (.continuous value) => .number value.toBits
  | .constant (.symbol text) => .symbol text
  | .nested name operands => .nested name (bitsList operands)

/-- The trees of operands. -/
def bitsList : List Operand → List OperandBits
  | [] => []
  | x :: xs => bits x :: bitsList xs

end

mutual

theorem compare_bits : ∀ x y : Operand, x.compare y =
    (Ord.compare x.bits.kindRank y.bits.kindRank).then (OperandBits.compareAlike x.bits y.bits)
  | .field a, .field b => rfl
  | .constant (.continuous a), .constant (.continuous b) => rfl
  | .constant (.symbol a), .constant (.symbol b) => rfl
  | .nested f xs, .nested g ys => by
      rw [compare, compareList_bits xs ys]
      rfl
  | .field _, .constant c | .constant c, .field _ => by cases c <;> rfl
  | .constant c, .nested .. | .nested .., .constant c => by cases c <;> rfl
  | .field _, .nested .. | .nested .., .field _ => rfl
  | .constant (.continuous _), .constant (.symbol _) => rfl
  | .constant (.symbol _), .constant (.continuous _) => rfl

theorem compareList_bits : ∀ xs ys : List Operand,
    compareList xs ys = OperandBits.compareList (bitsList xs) (bitsList ys)
  | [], [] | [], _ :: _ | _ :: _, [] => rfl
  | x :: xs, y :: ys => by
      rw [compareList, compare_bits x y, compareList_bits xs ys, Ordering.then_assoc]
      rfl

end

mutual

theorem bits_inj : ∀ x y : Operand, x.bits = y.bits ↔ x = y
  | .field a, .field b => by simp [bits]
  | .constant (.continuous a), .constant (.continuous b) => by simp [bits, Scalar.toBits_inj]
  | .constant (.symbol a), .constant (.symbol b) => by simp [bits]
  | .nested f xs, .nested g ys => by simp [bits, bitsList_inj xs ys]
  | .field _, .constant c | .constant c, .field _ => by cases c <;> simp [bits]
  | .constant c, .nested .. | .nested .., .constant c => by cases c <;> simp [bits]
  | .field _, .nested .. | .nested .., .field _ => by simp [bits]
  | .constant (.continuous _), .constant (.symbol _) => by simp [bits]
  | .constant (.symbol _), .constant (.continuous _) => by simp [bits]

theorem bitsList_inj : ∀ xs ys : List Operand, bitsList xs = bitsList ys ↔ xs = ys
  | [], [] => by simp
  | [], _ :: _ | _ :: _, [] => by simp [bitsList]
  | x :: xs, y :: ys => by simp [bitsList, bits_inj x y, bitsList_inj xs ys]

end

end Operand

namespace Formula

/-- The tree of a formula. -/
def bits (f : Formula) : FormulaBits := ⟨f.name, Operand.bitsList f.operands⟩

theorem compare_bits (f g : Formula) : f.compare g = f.bits.compare g.bits := by
  rw [compare, Operand.compareList_bits]
  rfl

theorem bits_inj {f g : Formula} : f.bits = g.bits ↔ f = g := by
  obtain ⟨n, xs⟩ := f
  obtain ⟨m, ys⟩ := g
  simp [bits, Operand.bitsList_inj]

/-- Formulas are in a total order, of whatever depth they are: comparing is reflexive, reverses with
its arguments, is transitive and total.  Two formulas compare equal exactly if their trees are the
same, of the same names and symbols and bit by bit of the same numbers, and exactly if the test for
equality finds them equal.  The order is that of the trees, which is total for numbers of all
patterns of bits. -/
theorem compare_total_order :
    TotalOrder compare ∧
      (∀ f g : Formula, f.compare g = .eq ↔ f.bits = g.bits) ∧
      (∀ f g : Formula, (f == g) = true ↔ f.compare g = .eq) ∧
      (∀ f g : Formula, f.compare g = f.bits.compare g.bits) ∧ TotalOrder FormulaBits.compare := by
  have htrees := FormulaBits.totalOrder_compare
  have heq (f g : Formula) : f.compare g = .eq ↔ f.bits = g.bits := by
    rw [compare_bits, htrees.eq_iff]
  have horder : TotalOrder compare :=
    LawfulOn.totalOrder
      { swap := fun f g _ _ => by rw [compare_bits, compare_bits, htrees.swap]
        chains := fun f g h _ _ _ => by
          rw [compare_bits, compare_bits, compare_bits]
          exact FormulaBits.lawfulOn_compare.chains _ _ _ trivial trivial trivial }
      fun f g => (heq f g).trans bits_inj
  exact ⟨horder, heq, fun f g => beq_iff_eq.trans (horder.eq_iff f g).symm, compare_bits, htrees⟩

/-- A formula of one constant. -/
def ofConstant (value : Float) : Formula := ⟨"F", [.continuous value]⟩

/-- The two zeros are different constants, and NaN is greater than both. -/
theorem zeros_in_order :
    (ofConstant (-0.0)).compare (ofConstant 0) ≠ .gt ∧
      (ofConstant 0).compare (ofConstant (0 / 0)) ≠ .gt ∧
      (ofConstant (-0.0)).compare (ofConstant (0 / 0)) ≠ .gt ∧
      (ofConstant (-0.0)).compare (ofConstant 0) ≠ .eq ∧
      (ofConstant (0 / 0)).compare (ofConstant (0 / 0)) = .eq := by
  have hzeros : (ofConstant (-0.0)).compare (ofConstant 0) = .lt := by decide +kernel
  have hnan : (ofConstant 0).compare (ofConstant (0 / 0)) = .lt := by decide +kernel
  obtain ⟨horder, -⟩ := compare_total_order
  have hle : (ofConstant (-0.0)).compare (ofConstant 0) ≠ .gt := by rw [hzeros]; decide
  have hle' : (ofConstant 0).compare (ofConstant (0 / 0)) ≠ .gt := by rw [hnan]; decide
  exact ⟨hle, hle', horder.trans _ _ _ hle hle', by rw [hzeros]; decide, horder.refl _⟩

end Formula

end FeatureSynth
