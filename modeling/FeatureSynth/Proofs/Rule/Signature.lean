/-
# One signature, one formula

The comparison of signatures finds two of them equal exactly when they are, so an
answer remembered under a signature is an answer for every rule that has it.  It
is the right answer as well: a formula is made of what the signature keeps.
-/
import FeatureSynth.Rule.Formula

namespace FeatureSynth

namespace Signature

mutual

theorem compare_eq_iff : ∀ σ τ : Signature, σ.compare τ = .eq ↔ σ = τ
  | ⟨c, n, xs⟩, ⟨d, m, ys⟩ => by
      simp only [compare, Ordering.then_eq_eq, Std.compare_eq_iff_eq, compareList_eq_iff xs ys,
        mk.injEq]

theorem compareList_eq_iff : ∀ xs ys : List (SignatureOperand Signature),
    compareList xs ys = .eq ↔ xs = ys
  | [], [] => by simp [compareList]
  | [], _ :: _ => by simp [compareList]
  | _ :: _, [] => by simp [compareList]
  | .field x :: xs, .field y :: ys => by
      simp only [compareList, Ordering.then_eq_eq, Std.compare_eq_iff_eq, compareList_eq_iff xs ys,
        List.cons.injEq, SignatureOperand.field.injEq]
  | .rule σ :: xs, .rule τ :: ys => by
      simp only [compareList, Ordering.then_eq_eq, compare_eq_iff σ τ, compareList_eq_iff xs ys,
        List.cons.injEq, SignatureOperand.rule.injEq]
  | .part ⟨i, is⟩ :: xs, .part ⟨j, js⟩ :: ys => by
      simp only [compareList, Ordering.then_eq_eq, Std.compare_eq_iff_eq, compareList_eq_iff xs ys,
        List.cons.injEq, SignatureOperand.part.injEq, Part.mk.injEq, and_assoc]
  | .field _ :: _, .rule _ :: _ => by simp [compareList]
  | .field _ :: _, .part _ :: _ => by simp [compareList]
  | .rule _ :: _, .field _ :: _ => by simp [compareList]
  | .rule _ :: _, .part _ :: _ => by simp [compareList]
  | .part _ :: _, .field _ :: _ => by simp [compareList]
  | .part _ :: _, .rule _ :: _ => by simp [compareList]

end

instance : DecidableEq Signature := fun σ τ =>
  decidable_of_iff (σ.compare τ = .eq) (compare_eq_iff σ τ)

end Signature

namespace Rule

theorem className_eq_of_signature {r r' : Rule} (h : r.signature = r'.signature) :
    r.className = r'.className := by
  cases r; cases r'
  exact congrArg Signature.className h

/-! ## Two rules of one signature -/

/-- The cases of an induction on two rules of one signature: `P` for the rules, `Q` for the lists of
their operands. -/
structure SameSignature (P : Rule → Rule → Prop)
    (Q : List (RuleOperand Rule) → List (RuleOperand Rule) → Prop) : Prop where
  rule : ∀ t u c xs ys a b i j, t.name = u.name → signatureList xs = signatureList ys → Q xs ys →
    P ⟨t, c, xs, a, i⟩ ⟨u, c, ys, b, j⟩
  nil : Q [] []
  field : ∀ name type type' xs ys, Q xs ys → Q (.field name type :: xs) (.field name type' :: ys)
  nested : ∀ x y xs ys, x.signature = y.signature → signatureList xs = signatureList ys → P x y →
    Q xs ys → Q (.rule x :: xs) (.rule y :: ys)
  part : ∀ p xs ys, Q xs ys → Q (.part p :: xs) (.part p :: ys)

namespace SameSignature

variable {P : Rule → Rule → Prop} {Q : List (RuleOperand Rule) → List (RuleOperand Rule) → Prop}

mutual

theorem rules (h : SameSignature P Q) : ∀ x y : Rule, x.signature = y.signature → P x y
  | ⟨t, c, xs, a, i⟩, ⟨u, d, ys, b, j⟩, hsig => by
      simp only [signature, Signature.mk.injEq] at hsig
      obtain ⟨rfl, hname, hoperands⟩ := hsig
      exact h.rule t u c xs ys a b i j hname hoperands (operands h xs ys hoperands)

theorem operands (h : SameSignature P Q) : ∀ xs ys : List (RuleOperand Rule),
    signatureList xs = signatureList ys → Q xs ys
  | [], [], _ => h.nil
  | .field x _ :: xs, .field y _ :: ys, hsig => by
      simp only [signatureList, List.cons.injEq, SignatureOperand.field.injEq] at hsig
      obtain ⟨rfl, hrest⟩ := hsig
      exact h.field x _ _ xs ys (operands h xs ys hrest)
  | .rule x :: xs, .rule y :: ys, hsig => by
      simp only [signatureList, List.cons.injEq, SignatureOperand.rule.injEq] at hsig
      exact h.nested x y xs ys hsig.1 hsig.2 (rules h x y hsig.1) (operands h xs ys hsig.2)
  | .part x :: xs, .part y :: ys, hsig => by
      simp only [signatureList, List.cons.injEq, SignatureOperand.part.injEq] at hsig
      obtain ⟨rfl, hrest⟩ := hsig
      exact h.part x xs ys (operands h xs ys hrest)
  | [], y :: ys, hsig => by cases y <;> simp [signatureList] at hsig
  | x :: xs, [], hsig => by cases x <;> simp [signatureList] at hsig
  | .field .. :: _, .rule _ :: _, hsig => by simp [signatureList] at hsig
  | .field .. :: _, .part _ :: _, hsig => by simp [signatureList] at hsig
  | .rule _ :: _, .field .. :: _, hsig => by simp [signatureList] at hsig
  | .rule _ :: _, .part _ :: _, hsig => by simp [signatureList] at hsig
  | .part _ :: _, .field .. :: _, hsig => by simp [signatureList] at hsig
  | .part _ :: _, .rule _ :: _, hsig => by simp [signatureList] at hsig

end

end SameSignature

/-- Rules of one signature have one formula. -/
theorem formulaWith_congr {parts : Part → Except BuildError Formula} :
    ∀ r r' : Rule, r.signature = r'.signature → formulaWith parts r = formulaWith parts r' :=
  SameSignature.rules
    (Q := fun xs ys => operandFormulasWith parts xs = operandFormulasWith parts ys)
    { rule := fun t u c xs ys a b i j hname _ ih => by
        simp only [formulaWith, ih, Template.formula, hname]
      nil := rfl
      field := fun name type type' xs ys ih => by simp only [operandFormulasWith, ih]
      nested := fun x y xs ys _ _ hx ih => by simp only [operandFormulasWith, hx, ih]
      part := fun p xs ys ih => by simp only [operandFormulasWith, ih] }

/-- Rules of one signature name the same parts. -/
theorem parts_congr : ∀ r r' : Rule, r.signature = r'.signature → r.parts = r'.parts :=
  SameSignature.rules (Q := fun xs ys => partsList xs = partsList ys)
    { rule := fun t u c xs ys a b i j _ _ ih => by simp only [parts, ih]
      nil := rfl
      field := fun name type type' xs ys ih => by simp only [partsList, ih]
      nested := fun x y xs ys _ _ hx ih => by simp only [partsList, hx, ih]
      part := fun p xs ys ih => by simp only [partsList, ih] }

end Rule

namespace Space

theorem formula_congr (s : Space) {r r' : Rule} (h : r.signature = r'.signature) :
    s.formula r = s.formula r' :=
  Rule.formulaWith_congr r r' h

end Space

end FeatureSynth
