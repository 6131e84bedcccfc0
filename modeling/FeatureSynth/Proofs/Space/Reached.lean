/-
# Rules reached

A rule is made from its operands, and from the rules of the dimensions that its parts are cut along.
What it is made from it *reaches*, and what that is made from, and on.

Collection goes the same ways.  Over a well-founded space the rules met in a rule are those it
reaches, for the way down ends before its bound.  The block rules met are those of them that are
block rules: the traversal carries two marks up from the operands of a rule, and by them it tells
what the definition tells by looking down again.
-/
import FeatureSynth.Proofs.Rule.Templates
import FeatureSynth.Proofs.Space.Costs

namespace FeatureSynth

/-! ## Block rules met -/

namespace Rule

variable {parts blocks : Part → List Rule}

/-- Whether an operand is a rule that passes a test. -/
def passes (test : Rule → Bool) : Option (RuleOperand Rule) → Bool
  | some (.rule inner) => test inner
  | _ => false

theorem any_ruleOperand? (test : Rule → Bool) (r : Rule) (k : Nat) :
    (r.ruleOperand? k).any test = passes test r.operands[k]? := by
  unfold ruleOperand?
  split <;> simp_all [passes]

/-- Block rules are told by their templates and their first two operands. -/
theorem isBlockRule_eq_passes (r : Rule) :
    r.isBlockRule = ((r.template.partitionStatistic.isSome && passes isSelection r.operands[0]?) ||
      (r.template.valueStatistic.isSome && passes isBlockRule r.operands[1]?)) := by
  rw [isBlockRule_eq, isPartitionBlock, isValueBlock, any_ruleOperand?, any_ruleOperand?]

mutual

/-- One traversal tells a block rule as the definition does, and finds those among the rules met. -/
theorem blockRulesWith_eq (h : ∀ p, blocks p = (parts p).filter isBlockRule) :
    ∀ r : Rule, blockRulesWith blocks r = (r.isBlockRule, (subrulesWith parts r).filter isBlockRule)
  | ⟨template, className, operands, cost, tieBreak⟩ => by
      have hblock := isBlockRule_eq_passes ⟨template, className, operands, cost, tieBreak⟩
      dsimp only at hblock
      rw [blockRulesWith, blockRulesIn_eq h operands 0, subrulesWith, List.filter_append]
      dsimp only
      rw [beq_self_eq_true, Bool.true_and, decide_eq_true (Nat.zero_le 1), Bool.true_and, ← hblock]
      cases hr : isBlockRule ⟨template, className, operands, cost, tieBreak⟩ <;> simp [hr]

/-- The marks are about the operands in front and next to it, wherever the traversal stands. -/
theorem blockRulesIn_eq (h : ∀ p, blocks p = (parts p).filter isBlockRule) :
    ∀ (xs : List (RuleOperand Rule)) (index : Nat), blockRulesIn blocks index xs =
      ⟨index == 0 && passes isSelection xs[0]?, index ≤ 1 && passes isBlockRule xs[1 - index]?,
        (subrulesIn parts xs).filter isBlockRule⟩
  | [], index => by simp [blockRulesIn, subrulesIn, passes]
  | .field .. :: rest, index => by
      rw [blockRulesIn, subrulesIn, blockRulesIn_eq h rest (index + 1)]
      match index with
      | 0 | 1 | n + 2 => simp [passes]
  | .rule inner :: rest, index => by
      rw [blockRulesIn, subrulesIn, blockRulesWith_eq h inner, blockRulesIn_eq h rest (index + 1)]
      match index with
      | 0 | 1 | n + 2 => simp [passes]
  | .part p :: rest, index => by
      rw [blockRulesIn, subrulesIn, h, blockRulesIn_eq h rest (index + 1)]
      match index with
      | 0 | 1 | n + 2 => simp [passes]

end

end Rule

namespace Space

variable {s s' : Space} {rules : List Rule} {r x : Rule} {part : Part}

theorem partBlockRules_eq (s : Space) : ∀ (fuel : Nat) (part : Part),
    s.partBlockRules fuel part = (s.partSubrules fuel part).filter Rule.isBlockRule
  | 0, _ => rfl
  | fuel + 1, part => by
      rw [partBlockRules, partSubrules, List.filter_flatMap]
      refine List.flatMap_congr fun r _ => ?_
      rw [Rule.blockRulesWith_eq (s.partBlockRules_eq fuel)]

/-- The block rules met in a rule are among the rules met in it. -/
theorem blockRules_eq (s : Space) (r : Rule) :
    s.blockRules r = (s.subrules r).filter Rule.isBlockRule := by
  rw [blockRules, Rule.blockRulesWith_eq (s.partBlockRules_eq s.depth), subrules]

theorem blockRules_subset (s : Space) (r : Rule) : s.blockRules r ⊆ s.subrules r := by
  rw [blockRules_eq]
  exact List.filter_subset_self _

/-! ## Frames -/

theorem dimensionRules_of_frame (h : s'.frame = s.frame) (part : Part) :
    s'.dimensionRules part = s.dimensionRules part := by
  have hrules : ∀ ds : List Dimension, ds.filterMap (·.rule?) =
      (ds.map (·.origin)).filterMap fun o => (⟨"", o, 0, none, none⟩ : Dimension).rule? := by
    intro ds
    rw [List.filterMap_map]
    rfl
  unfold dimensionRules
  cases hp : s.partitions[part.partition]? with
  | none =>
    cases hp' : s'.partitions[part.partition]? with
    | none => rfl
    | some p' =>
      obtain ⟨p, hp₀, -⟩ := partition_of_frame h.symm hp'
      cases hp.symm.trans hp₀
  | some p =>
    obtain ⟨p', hp', -, haxes⟩ := partition_of_frame h hp
    rw [hp']
    dsimp only
    rw [hrules, hrules, origins_axisDimensions h haxes]

theorem subrules_of_frame (h : s'.frame = s.frame) (r : Rule) : s'.subrules r = s.subrules r := by
  have hparts : ∀ fuel part, s'.partSubrules fuel part = s.partSubrules fuel part := by
    intro fuel
    induction fuel with
    | zero => exact fun _ => rfl
    | succ fuel ih =>
      intro part
      rw [partSubrules, partSubrules, funext ih, dimensionRules_of_frame h]
  rw [subrules, subrules, depth_of_frame h, funext (hparts _)]

theorem blockRules_of_frame (h : s'.frame = s.frame) (r : Rule) :
    s'.blockRules r = s.blockRules r := by
  rw [blockRules_eq, blockRules_eq, subrules_of_frame h]

theorem madeFrom_of_frame (h : s'.frame = s.frame) : s'.MadeFrom = s.MadeFrom := by
  have himp : ∀ {s s' : Space}, s'.frame = s.frame → ∀ r x, s.MadeFrom r x → s'.MadeFrom r x := by
    intro s s' h r x hx
    cases hx with
    | operand hx => exact .operand hx
    | dimension hpart hx => exact .dimension hpart ((dimensionRules_of_frame h _).symm ▸ hx)
  funext r x
  exact propext ⟨himp h.symm r x, himp h r x⟩

/-! ## Reaching -/

/-- One of some rules, or what a rule reached from them is made from. -/
def Reached (s : Space) (rules : List Rule) (x : Rule) : Prop :=
  ∃ r ∈ rules, Relation.ReflTransGen s.MadeFrom r x

namespace Reached

theorem of_mem (h : r ∈ rules) : s.Reached rules r := ⟨r, h, .refl⟩

theorem made (h : s.Reached rules r) (hx : s.MadeFrom r x) : s.Reached rules x := by
  obtain ⟨y, hy, hr⟩ := h
  exact ⟨y, hy, hr.tail hx⟩

theorem trans (h : s.Reached rules r) (hx : Relation.ReflTransGen s.MadeFrom r x) :
    s.Reached rules x := by
  obtain ⟨y, hy, hr⟩ := h
  exact ⟨y, hy, hr.trans hx⟩

protected theorem hereditary (s : Space) (rules : List Rule) :
    Rule.Hereditary (s.Reached rules) :=
  fun _ _ hr hinner => hr.made (.operand hinner)

/-- What holds of the parts that some rules name holds of those that rules reached name, if it passes
on to the rules of dimensions. -/
theorem partsIn {P : Part → Prop}
    (honward : ∀ part, P part → ∀ y ∈ s.dimensionRules part, y.PartsIn P)
    (hrules : ∀ r ∈ rules, r.PartsIn P) (h : s.Reached rules x) : x.PartsIn P := by
  obtain ⟨r, hr, hreaches⟩ := h
  induction hreaches with
  | refl => exact hrules r hr
  | tail _ hmade ih => exact hmade.partsIn honward ih

end Reached

theorem reached_singleton : s.Reached [r] x ↔ Relation.ReflTransGen s.MadeFrom r x := by
  simp [Reached]

theorem reached_of_frame (h : s'.frame = s.frame) (rules : List Rule) :
    s'.Reached rules = s.Reached rules := by
  unfold Reached
  rw [madeFrom_of_frame h]

mutual

/-- The rules of dimensions of a part are reached however deep in a rule the part is named. -/
theorem reaches_of_mem_parts (hx : x ∈ s.dimensionRules part) :
    ∀ r : Rule, part ∈ r.parts → Relation.ReflTransGen s.MadeFrom r x
  | ⟨_, _, xs, _, _⟩, hpart => by
      rcases reaches_of_mem_partsList hx xs hpart with hpart | ⟨inner, hinner, hreaches⟩
      · exact .single (.dimension hpart hx)
      · exact .head (.operand hinner) hreaches

theorem reaches_of_mem_partsList (hx : x ∈ s.dimensionRules part) :
    ∀ xs : List (RuleOperand Rule), part ∈ Rule.partsList xs →
      .part part ∈ xs ∨ ∃ inner, .rule inner ∈ xs ∧ Relation.ReflTransGen s.MadeFrom inner x
  | .field .. :: rest, hpart =>
      (reaches_of_mem_partsList hx rest hpart).imp (List.mem_cons_of_mem _)
        fun ⟨inner, hinner, hreaches⟩ => ⟨inner, List.mem_cons_of_mem _ hinner, hreaches⟩
  | .rule y :: rest, hpart => by
      rcases List.mem_append.mp hpart with hpart | hpart
      · exact .inr ⟨y, List.mem_cons_self, reaches_of_mem_parts hx y hpart⟩
      · exact (reaches_of_mem_partsList hx rest hpart).imp (List.mem_cons_of_mem _)
          fun ⟨inner, hinner, hreaches⟩ => ⟨inner, List.mem_cons_of_mem _ hinner, hreaches⟩
  | .part p :: rest, hpart => by
      rcases List.mem_cons.mp hpart with rfl | hpart
      · exact .inl List.mem_cons_self
      · exact (reaches_of_mem_partsList hx rest hpart).imp (List.mem_cons_of_mem _)
          fun ⟨inner, hinner, hreaches⟩ => ⟨inner, List.mem_cons_of_mem _ hinner, hreaches⟩

end

/-! ## What collection meets -/

theorem self_mem_subrules (s : Space) (r : Rule) : r ∈ s.subrules r := by
  obtain ⟨t, c, xs, a, i⟩ := r
  rw [subrules, Rule.subrulesWith]
  exact List.mem_append_right _ List.mem_cons_self

/-- Whatever is met is reached, however small the bound for the way down. -/
theorem reaches_of_mem_subrules (h : x ∈ s.subrules r) : Relation.ReflTransGen s.MadeFrom r x := by
  let Q : Rule → Prop := Relation.ReflTransGen s.MadeFrom r
  have hQ : Rule.Hereditary Q := fun y inner hy hinner => hy.tail (.operand hinner)
  have hparts : ∀ fuel y part, Q y → .part part ∈ y.operands →
      ∀ x ∈ s.partSubrules fuel part, Q x := by
    intro fuel
    induction fuel with
    | zero => exact fun _ _ _ _ x hx => absurd hx List.not_mem_nil
    | succ fuel ih =>
      intro y part hy hpart x hx
      obtain ⟨z, hz, hx⟩ := List.mem_flatMap.mp hx
      exact Rule.of_mem_subrulesWith hQ ih z (hy.tail (.dimension hpart hz)) x hx
  exact Rule.of_mem_subrulesWith hQ (hparts s.depth) r .refl x h

/-- Over a well-founded space the rules met in a rule are those it reaches. -/
theorem mem_subrules_iff (hs : s.WellFounded) :
    x ∈ s.subrules r ↔ Relation.ReflTransGen s.MadeFrom r x := by
  refine ⟨reaches_of_mem_subrules, fun h => ?_⟩
  induction h using Relation.ReflTransGen.head_induction_on with
  | refl => exact s.self_mem_subrules x
  | head hmade _ ih => exact (hmade.subrules_sublist hs).subset ih

theorem mem_blockRules_iff (hs : s.WellFounded) :
    x ∈ s.blockRules r ↔ Relation.ReflTransGen s.MadeFrom r x ∧ x.isBlockRule = true := by
  rw [blockRules_eq, List.mem_filter, mem_subrules_iff hs]

end Space

end FeatureSynth
