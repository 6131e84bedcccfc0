/-
# What a readable name depends on

A readable name is spelled out of templates, field names and the partiles that parts mean.
Costs and places have no share in it, and of a space only its cuts and the levels of its
dimensions have.  So rules of one signature over one catalogue are called the same, and a
rule is called the same all along a build.

What is put together here is the name of a rule from what its operands contribute: their
names, and for a selection its table and its part.
-/
import FeatureSynth.Proofs.Rule.Templates
import FeatureSynth.Proofs.Space.Bound
import FeatureSynth.Proofs.Space.SameLevels
import FeatureSynth.Rule.Name

namespace FeatureSynth

namespace Rule

variable {names : SelectionNames} {a b : Rule} {xs ys : List (RuleOperand Rule)}

/-! ## Names and signatures -/

/-- Two rules contribute the same to the name of a rule they are operands of. -/
structure CalledAlike (names : SelectionNames) (a b : Rule) : Prop where
  template : a.template = b.template
  name : ∀ asBlock, a.nameWith names asBlock = b.nameWith names asBlock
  table : (a.fieldOperand? 0).map (·.1) = (b.fieldOperand? 0).map (·.1)
  part : a.partOperand? 1 = b.partOperand? 1

/-- Operands at one place of two rules contribute the same to the names. -/
def OperandsCalledAlike (names : SelectionNames) : RuleOperand Rule → RuleOperand Rule → Prop
  | .field x _, .field y _ => x = y
  | .rule x, .rule y => x.CalledAlike names y
  | .part p, .part q => p = q
  | _, _ => False

theorem fieldOperand?_calledAlike
    (h : List.Forall₂ (OperandsCalledAlike names) a.operands b.operands) (i : Nat) :
    (a.fieldOperand? i).map (·.1) = (b.fieldOperand? i).map (·.1) := by
  unfold fieldOperand?
  rcases getElem?_forall₂ h i with ⟨hx, hy⟩ | ⟨x, y, hx, hy, hxy⟩
  · rw [hx, hy]
  · rw [hx, hy]
    match x, y, hxy with
    | .field .., .field .., rfl => rfl
    | .rule _, .rule _, _ => rfl
    | .part _, .part _, _ => rfl

theorem partOperand?_calledAlike
    (h : List.Forall₂ (OperandsCalledAlike names) a.operands b.operands) (i : Nat) :
    a.partOperand? i = b.partOperand? i := by
  unfold partOperand?
  rcases getElem?_forall₂ h i with ⟨hx, hy⟩ | ⟨x, y, hx, hy, hxy⟩
  · rw [hx, hy]
  · rw [hx, hy]
    match x, y, hxy with
    | .field .., .field .., _ => rfl
    | .rule _, .rule _, _ => rfl
    | .part _, .part _, rfl => rfl

/-- The selections that two rules take their tables from name one table and one part. -/
theorem selectionRule?_calledAlike (htemplate : a.template = b.template)
    (h : List.Forall₂ (OperandsCalledAlike names) a.operands b.operands) :
    (a.selectionRule? = none ∧ b.selectionRule? = none) ∨
      ∃ x y, a.selectionRule? = some x ∧ b.selectionRule? = some y ∧ x.name = y.name ∧
        (x.fieldOperand? 0).map (·.1) = (y.fieldOperand? 0).map (·.1) ∧
          x.partOperand? 1 = y.partOperand? 1 := by
  have hname : a.name = b.name := congrArg Template.name htemplate
  unfold selectionRule? isSelection
  rw [htemplate]
  split
  · exact .inr ⟨a, b, rfl, rfl, hname, fieldOperand?_calledAlike h 0,
      partOperand?_calledAlike h 1⟩
  · unfold ruleOperand?
    rcases getElem?_forall₂ h 0 with ⟨hx, hy⟩ | ⟨x, y, hx, hy, hxy⟩
    · rw [hx, hy]
      exact .inl ⟨rfl, rfl⟩
    · rw [hx, hy]
      match x, y, hxy with
      | .field .., .field .., _ => exact .inl ⟨rfl, rfl⟩
      | .part _, .part _, _ => exact .inl ⟨rfl, rfl⟩
      | .rule x, .rule y, hxy =>
        dsimp only
        cases hselects : y.template.selection with
        | false => exact .inl ⟨by simp [hxy.template, hselects], by simp [hselects]⟩
        | true =>
          exact .inr ⟨x, y, by simp [hxy.template, hselects], by simp [hselects],
            congrArg Template.name hxy.template, hxy.table, hxy.part⟩

theorem tableName_calledAlike (htemplate : a.template = b.template)
    (h : List.Forall₂ (OperandsCalledAlike names) a.operands b.operands) :
    a.tableName = b.tableName := by
  have hname : a.name = b.name := congrArg Template.name htemplate
  rcases selectionRule?_calledAlike htemplate h with ⟨hx, hy⟩ | ⟨x, y, hx, hy, -, htable, -⟩
  · unfold tableName
    rw [hx, hy, hname]
    generalize a.operands = xs at h
    generalize b.operands = ys at h
    match xs, ys, h with
    | [], [], _ => rfl
    | .field .. :: _, .field .. :: _, .cons hxy _ => rw [show _ = _ from hxy]
    | .rule _ :: _, .rule _ :: _, _ => rfl
    | .part _ :: _, .part _ :: _, _ => rfl
  · unfold tableName
    rw [hx, hy, hname]
    dsimp only
    cases hfirst : x.fieldOperand? 0 with
    | none =>
      rw [hfirst, Option.map_none] at htable
      rw [Option.map_eq_none_iff.mp htable.symm]
    | some field =>
      obtain ⟨name, type⟩ := field
      rw [hfirst, Option.map_some] at htable
      obtain ⟨⟨_, type'⟩, hfirst', rfl⟩ := Option.map_eq_some_iff.mp htable.symm
      rw [hfirst']

theorem selectionSuffix_calledAlike (htemplate : a.template = b.template)
    (h : List.Forall₂ (OperandsCalledAlike names) a.operands b.operands) (asBlock : Bool) :
    a.selectionSuffix names asBlock = b.selectionSuffix names asBlock := by
  unfold selectionSuffix
  rcases selectionRule?_calledAlike htemplate h with ⟨hx, hy⟩ | ⟨x, y, hx, hy, hname, -, hpart⟩
  · rw [hx, hy]
  · rw [hx, hy]
    simp only [hpart, hname]

theorem operandNameWith_calledAlike (hname : a.name = b.name) (asBlock : Bool)
    {xs ys : List (RuleOperand Rule)} (h : List.Forall₂ (OperandsCalledAlike names) xs ys)
    (position index : Nat) : operandNameWith names asBlock a xs position index =
      operandNameWith names asBlock b ys position index := by
  induction h generalizing position with
  | nil => simp only [operandNameWith, hname]
  | @cons x y xs ys hxy _ ih =>
    cases position with
    | succ position =>
      rw [operandNameWith, operandNameWith]
      exact ih position
    | zero =>
      cases x <;> cases y <;> try exact hxy.elim
      · rw [operandNameWith, operandNameWith, show _ = _ from hxy]
      · rw [operandNameWith, operandNameWith]
        exact hxy.name asBlock
      · simp only [operandNameWith, hname]

/-- Rules of one template whose operands contribute the same are called the same. -/
theorem nameWith_calledAlike (htemplate : a.template = b.template)
    (h : List.Forall₂ (OperandsCalledAlike names) a.operands b.operands) (asBlock : Bool) :
    a.nameWith names asBlock = b.nameWith names asBlock := by
  have hname : a.name = b.name := congrArg Template.name htemplate
  have hlength := h.length_eq
  have htable := tableName_calledAlike htemplate h
  have hsuffix := selectionSuffix_calledAlike htemplate h asBlock
  have hnone : a.selectionRule?.isNone = b.selectionRule?.isNone := by
    rcases selectionRule?_calledAlike htemplate h with ⟨hx, hy⟩ | ⟨x, y, hx, hy, -⟩ <;>
      rw [hx, hy]
    rfl
  have hoperand : ∀ asBlock i, operandNameWith names asBlock a a.operands i i =
      operandNameWith names asBlock b b.operands i i :=
    fun asBlock i => operandNameWith_calledAlike hname asBlock h i i
  obtain ⟨t, c, xs, _, _⟩ := a
  obtain ⟨u, d, ys, _, _⟩ := b
  obtain rfl : t = u := htemplate
  dsimp only at hoperand hlength hnone
  unfold nameWith
  cases t.family with
  | date | time | timestamp | timestampTZ => simp only [hoperand]
  | entity => simp only [hoperand, hlength]
  | table => simp only [hoperand, hlength, htable, hsuffix, hnone]

/-- Rules of one signature over one catalogue are called the same. -/
theorem nameWith_eq_of_signature {ts : Catalogue} : ∀ a b : Rule, a.signature = b.signature →
    a.Over ts → b.Over ts → a.CalledAlike names b :=
  SameSignature.rules
    (Q := fun xs ys => OverIn ts xs → OverIn ts ys → List.Forall₂ (OperandsCalledAlike names) xs ys)
    { rule := fun t u c xs ys a b i j hname _ ih ha hb => by
        have htemplate : t = u := by
          have ht := ha.1
          rw [hname, hb.1] at ht
          exact (Option.some.inj ht).symm
        have hoperands := ih ha.2 hb.2
        exact ⟨htemplate, nameWith_calledAlike htemplate hoperands,
          fieldOperand?_calledAlike hoperands 0, partOperand?_calledAlike hoperands 1⟩
      nil := fun _ _ => .nil
      field := fun name type type' xs ys ih ha hb => .cons rfl (ih ha hb)
      nested := fun x y xs ys _ _ hx ih ha hb => .cons (hx ha.1 hb.1) (ih ha.2 hb.2)
      part := fun p xs ys ih ha hb => .cons rfl (ih ha hb) }

end Rule

namespace Space

variable {s s' : Space}

theorem ruleName_eq_of_signature {ts : Catalogue} {a b : Rule} (h : a.signature = b.signature)
    (ha : a.Over ts) (hb : b.Over ts) (asBlock : Bool) :
    s.ruleName a asBlock = s.ruleName b asBlock :=
  (Rule.nameWith_eq_of_signature a b h ha hb).name asBlock

/-! ## Names and spaces -/

theorem SameLevels.dimension?_none (h : s.SameLevels s') {k : Nat} (hk : s.dimensions[k]? = none) :
    s'.dimensions[k]? = none := by
  cases hd : s'.dimensions[k]? with
  | none => rfl
  | some d' =>
    obtain ⟨d, hd, -⟩ := h.symm.dimension hd
    rw [hk] at hd
    cases hd

/-- Selections are called the same over spaces of the same cuts and levels. -/
theorem selectionNames_of_sameLevels (h : s.SameLevels s') :
    ∀ fuel, s'.selectionNames fuel = s.selectionNames fuel
  | 0 => rfl
  | fuel + 1 => by
      have ih := selectionNames_of_sameLevels h fuel
      have hdimension : ∀ {d d' : Dimension}, d'.origin = d.origin →
          dimensionNameWith (s'.selectionNames fuel) d' =
            dimensionNameWith (s.selectionNames fuel) d := by
        intro d d' ho
        rw [dimensionNameWith, ho, ih, dimensionNameWith]
      unfold selectionNames
      dsimp only
      congr 1
      · funext rank
        rw [h.axes?_eq rank]
        congr 2
        funext a
        cases hd : s.dimensions[a.dimension]? with
        | none => rw [h.dimension?_none hd]
        | some d =>
          obtain ⟨d', hd', -, ho, -⟩ := h.dimension hd
          simp only [hd', hdimension ho]
      · funext part
        rw [h.axesOf_eq part]
        congr 2
        funext ⟨a, i⟩
        unfold resolve
        cases hd : s.dimensions[a.dimension]? with
        | none =>
          rw [h.dimension?_none hd]
          rfl
        | some d =>
          obtain ⟨d', hd', -, ho, hlevels⟩ := h.dimension hd
          simp only [hd', hlevels]
          cases d.levels.bind fun levels => levels.partile? a.granularity i with
          | none => rfl
          | some x => simp only [bind, Except.bind, hdimension ho, kind_of_origin ho]

/-- So are rules. -/
theorem ruleName_of_sameLevels (h : s.SameLevels s') (r : Rule) (asBlock : Bool) :
    s'.ruleName r asBlock = s.ruleName r asBlock := by
  have hdepth : s'.depth = s.depth := by
    have hlength := congrArg List.length h.levels
    rw [List.length_map, List.length_map] at hlength
    rw [depth, hlength, depth]
  rw [ruleName, hdepth, selectionNames_of_sameLevels h, ruleName]

end Space

end FeatureSynth
