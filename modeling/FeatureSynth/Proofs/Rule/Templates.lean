/-
# Rules over one catalogue

A signature keeps the name of a template, and so do the orders of rules.  Where the
templates of two rules, and of the rules they are built from, are those that one
catalogue has under their names, nothing is lost by that: rules of one signature
are realized in the same way, and by the member for the same part.
-/
import FeatureSynth.Proofs.Rule.Alike

namespace FeatureSynth

namespace Rule

mutual

/-- The templates of a rule, and of the rules it is built from, are those of a catalogue under their
names. -/
def Over (ts : Catalogue) : Rule → Prop
  | ⟨template, _, operands, _, _⟩ => ts.template? template.name = some template ∧ OverIn ts operands

/-- The templates of the rules that operands are built from are those of a catalogue. -/
def OverIn (ts : Catalogue) : List (RuleOperand Rule) → Prop
  | [] => True
  | .field .. :: rest => OverIn ts rest
  | .rule inner :: rest => Over ts inner ∧ OverIn ts rest
  | .part _ :: rest => OverIn ts rest

end

theorem over_of_overIn {ts : Catalogue} {inner : Rule} : ∀ {xs : List (RuleOperand Rule)},
    OverIn ts xs → .rule inner ∈ xs → inner.Over ts
  | .field .. :: rest, h, hinner => by
      rw [OverIn] at h
      rcases List.mem_cons.mp hinner with heq | hinner
      · cases heq
      · exact over_of_overIn h hinner
  | .rule x :: rest, h, hinner => by
      rcases List.mem_cons.mp hinner with heq | hinner
      · cases heq
        exact h.1
      · exact over_of_overIn h.2 hinner
  | .part _ :: rest, h, hinner => by
      rw [OverIn] at h
      rcases List.mem_cons.mp hinner with heq | hinner
      · cases heq
      · exact over_of_overIn h hinner

/-- The operands of a rule over a catalogue are over it. -/
theorem over_operand {ts : Catalogue} {r inner : Rule} (h : r.Over ts)
    (hinner : .rule inner ∈ r.operands) : inner.Over ts := by
  obtain ⟨template, className, operands, cost, tieBreak⟩ := r
  exact over_of_overIn h.2 hinner

/-! ## How a rule is realized -/

theorem isBlockRule_eq : ∀ r : Rule, r.isBlockRule = (r.isPartitionBlock || r.isValueBlock)
  | ⟨template, className, [], cost, tieBreak⟩ | ⟨template, className, [_], cost, tieBreak⟩
  | ⟨template, className, _ :: .field .. :: _, cost, tieBreak⟩
  | ⟨template, className, _ :: .part _ :: _, cost, tieBreak⟩ => by
      simp [isBlockRule, isValueBlock, ruleOperand?]
  | ⟨template, className, _ :: .rule inner :: _, cost, tieBreak⟩ => by
      simp only [isBlockRule, isValueBlock, ruleOperand?, List.getElem?_cons_succ,
        List.getElem?_cons_zero, Option.any_some]

theorem isPartitionBlock_of_classify {r : Rule} (h : r.classify = .partitionBlock) :
    r.isPartitionBlock = true := by
  unfold classify at h
  split at h
  · cases h
  · split at h
    · assumption
    · split at h <;> cases h

theorem not_isPartitionBlock_of_classify {r : Rule} (h : r.classify = .valueBlock) :
    r.isPartitionBlock = false := by
  unfold classify at h
  split at h
  · cases h
  · split at h
    · cases h
    · exact Bool.eq_false_iff.mpr ‹_›

theorem isBlockRule_of_classify {r : Rule}
    (h : r.classify = .partitionBlock ∨ r.classify = .valueBlock) : r.isBlockRule = true := by
  rw [isBlockRule_eq, Bool.or_eq_true]
  refine h.imp isPartitionBlock_of_classify fun hvalue => ?_
  by_contra hno
  simp [classify, hno] at hvalue
  split at hvalue
  · cases hvalue
  · split at hvalue <;> cases hvalue

/-- The part a rule uses, by its class. -/
theorem usedPart?_eq : ∀ r : Rule, r.usedPart? =
    match r.classify with
    | .selection => r.partOperand? 1
    | .partitionBlock => (r.ruleOperand? 0).bind (partOperand? · 1)
    | .valueBlock => (r.ruleOperand? 1).bind usedPart?
    | .standard => none
  | ⟨template, className, [], cost, tieBreak⟩ | ⟨template, className, [_], cost, tieBreak⟩
  | ⟨template, className, _ :: .field .. :: _, cost, tieBreak⟩
  | ⟨template, className, _ :: .part _ :: _, cost, tieBreak⟩
  | ⟨template, className, _ :: .rule _ :: _, cost, tieBreak⟩ => by
      simp only [usedPart?]
      generalize classify _ = sort
      cases sort <;> rfl

/-- Rules that are realized in the same way, by the member for the same part. -/
structure Agree (a b : Rule) : Prop where
  template : a.template = b.template
  classify : a.classify = b.classify
  block : a.isBlockRule = b.isBlockRule
  part : a.partOperand? 1 = b.partOperand? 1
  used : a.usedPart? = b.usedPart?

/-- Operands at one place of rules that agree. -/
def OperandsAgree : RuleOperand Rule → RuleOperand Rule → Prop
  | .field .., .field .. => True
  | .rule x, .rule y => x.Agree y
  | .part p, .part q => p = q
  | _, _ => False

section Agree

variable {a b : Rule} {ts : Catalogue}

theorem partOperand?_agree (h : List.Forall₂ OperandsAgree a.operands b.operands) (i : Nat) :
    a.partOperand? i = b.partOperand? i := by
  unfold partOperand?
  rcases getElem?_forall₂ h i with ⟨hx, hy⟩ | ⟨x, y, hx, hy, hxy⟩
  · rw [hx, hy]
  · rw [hx, hy]
    match x, y, hxy with
    | .field .., .field .., _ => rfl
    | .rule _, .rule _, _ => rfl
    | .part _, .part _, rfl => rfl

theorem ruleOperand?_agree (h : List.Forall₂ OperandsAgree a.operands b.operands) (i : Nat) :
    (a.ruleOperand? i = none ∧ b.ruleOperand? i = none) ∨
      ∃ x y, a.ruleOperand? i = some x ∧ b.ruleOperand? i = some y ∧ x.Agree y := by
  unfold ruleOperand?
  rcases getElem?_forall₂ h i with ⟨hx, hy⟩ | ⟨x, y, hx, hy, hxy⟩
  · rw [hx, hy]
    exact .inl ⟨rfl, rfl⟩
  · rw [hx, hy]
    match x, y, hxy with
    | .field .., .field .., _ => exact .inl ⟨rfl, rfl⟩
    | .rule x, .rule y, hxy => exact .inr ⟨x, y, rfl, rfl, hxy⟩
    | .part _, .part _, _ => exact .inl ⟨rfl, rfl⟩

/-- Rules of one template agree if their operands do. -/
theorem agree_of_operands (htemplate : a.template = b.template)
    (h : List.Forall₂ OperandsAgree a.operands b.operands) : a.Agree b := by
  have hselects : a.isSelection = b.isSelection := by rw [isSelection, htemplate, isSelection]
  have hfirst : (a.ruleOperand? 0).any isSelection = (b.ruleOperand? 0).any isSelection ∧
      (a.ruleOperand? 0).bind (partOperand? · 1) = (b.ruleOperand? 0).bind (partOperand? · 1) := by
    rcases ruleOperand?_agree h 0 with ⟨hx, hy⟩ | ⟨x, y, hx, hy, hxy⟩
    · rw [hx, hy]
      exact ⟨rfl, rfl⟩
    · rw [hx, hy]
      refine ⟨?_, hxy.part⟩
      rw [Option.any_some, Option.any_some, isSelection, hxy.template, isSelection]
  have hsecond : (a.ruleOperand? 1).any isBlockRule = (b.ruleOperand? 1).any isBlockRule ∧
      (a.ruleOperand? 1).bind usedPart? = (b.ruleOperand? 1).bind usedPart? := by
    rcases ruleOperand?_agree h 1 with ⟨hx, hy⟩ | ⟨x, y, hx, hy, hxy⟩
    · rw [hx, hy]
      exact ⟨rfl, rfl⟩
    · rw [hx, hy]
      exact ⟨hxy.block, hxy.used⟩
  have hpartition : a.isPartitionBlock = b.isPartitionBlock := by
    rw [isPartitionBlock, htemplate, hfirst.1, isPartitionBlock]
  have hvalue : a.isValueBlock = b.isValueBlock := by
    rw [isValueBlock, htemplate, hsecond.1, isValueBlock]
  have hclassify : a.classify = b.classify := by
    rw [Rule.classify, hselects, hpartition, hvalue, Rule.classify]
  refine ⟨htemplate, hclassify, ?_, partOperand?_agree h 1, ?_⟩
  · rw [isBlockRule_eq, isBlockRule_eq, hpartition, hvalue]
  · rw [usedPart?_eq, usedPart?_eq, hclassify, partOperand?_agree h 1, hfirst.2, hsecond.2]

/-- Rules of one signature over one catalogue agree. -/
theorem agree_of_signature : ∀ a b : Rule, a.signature = b.signature → a.Over ts → b.Over ts →
    a.Agree b :=
  SameSignature.rules
    (Q := fun xs ys => OverIn ts xs → OverIn ts ys → List.Forall₂ OperandsAgree xs ys)
    { rule := fun t u c xs ys a b i j hname _ ih ha hb => by
        have htemplate : t = u := by
          have ht := ha.1
          rw [hname, hb.1] at ht
          exact (Option.some.inj ht).symm
        exact agree_of_operands htemplate (ih ha.2 hb.2)
      nil := fun _ _ => .nil
      field := fun name type type' xs ys ih ha hb => .cons trivial (ih ha hb)
      nested := fun x y xs ys _ _ hx ih ha hb => .cons (hx ha.1 hb.1) (ih ha.2 hb.2)
      part := fun p xs ys ih ha hb => .cons rfl (ih ha hb) }

end Agree

end Rule

end FeatureSynth
