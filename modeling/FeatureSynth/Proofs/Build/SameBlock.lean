/-
# One block for mates

The formula of a statistics block is made of names: those of the table, of the other operands,
and of the block upstream.  A name is noted for a rule with all its costs, so rules of one
signature may go by two names.  Where all rules of one signature have the same costs they have
one name, and then so have the formulas of mates: members for mates are in one block.
-/
import FeatureSynth.Proofs.Build.Sparse
import FeatureSynth.Proofs.Rule.Mates

namespace FeatureSynth

/-- Some rules have equal costs wherever they have one signature. -/
def Rule.SameCosts (A : Rule → Prop) : Prop :=
  ∀ x y, A x → A y → x.signature = y.signature → x.costs = y.costs

namespace BuildState

/-- A member for a rule is in a block. -/
def InBlock (b : BuildState) (r : Rule) (B : String) : Prop :=
  ∃ n, b.MemberOf r n ∧ b.HasCore r.className fun f => f.name = n ∧ f.block = some B

variable {b b' : BuildState} {s : Space} {ts : Catalogue} {r inner : Rule} {C n B U : String}
variable {φ : Formula} {key : Nat} {A : Rule → Prop}

theorem Onward.inBlock (h : Onward b b') (hB : b.InBlock r B) : b'.InBlock r B := by
  obtain ⟨n, hmember, hcore⟩ := hB
  exact ⟨n, h.memberOf hmember, h.hasCore hcore⟩

namespace Sound

/-- The block of a member is known by the formula the member is known by. -/
theorem knowsBlock_of_member (h : Sound s ts b) (hn : b.KnowsMember C φ key n)
    (hB : b.HasCore C fun f => f.name = n ∧ f.block = some B) : b.KnowsBlock C φ B := by
  obtain ⟨e, c, he, hc, hn⟩ := hn
  obtain ⟨f, hf, hname, hblock⟩ := (h.sharp C e c he hc).own φ key n hn
  obtain ⟨g, hg, hg'⟩ := h.core_unique (P := fun g => g.block = c.block? φ)
    ⟨e, c, he, hc, f, hf, hname, hblock⟩ hB
  exact ⟨e, c, he, hc, hg.symm.trans hg'⟩

theorem hasCore_of_knowsBlock (h : Sound s ts b) (hn : b.KnowsMember C φ key n)
    (hB : b.KnowsBlock C φ B) : b.HasCore C fun f => f.name = n ∧ f.block = some B := by
  obtain ⟨e, c, he, hc, hn⟩ := hn
  obtain ⟨e', c', -, hc', hB⟩ := hB
  obtain rfl : c = c' := Option.some.inj (hc.symm.trans hc')
  obtain ⟨f, hf, hname, hblock⟩ := (h.sharp C e c he hc).own φ key n hn
  exact ⟨e, c, he, hc, f, hf, hname, hblock.trans hB⟩

/-- Rules that are alike have one name. -/
theorem name_unique (h : Sound s ts b) (hr : r.Told s ts) (halike : inner.Alike r) {m : String}
    (hn : b.HasName r n) (hm : b.HasName inner m) : n = m := by
  obtain ⟨x, hx, hxm⟩ := hm
  have hm : b.HasName r m := ⟨x, hx, hxm.trans halike⟩
  exact Option.some.inj ((h.fieldOf?_of_hasName hr hn).symm.trans (h.fieldOf?_of_hasName hr hm))

/-- The same stands for operands of one signature, where that goes with equal costs. -/
theorem stands_unique (h : Sound s ts b) (htold : ∀ r, A r → r.Told s ts)
    (hsame : Rule.SameCosts A) : ∀ {xs xs' : List (RuleOperand Rule)} {ys ys' : List Operand},
    Rule.signatureList xs = Rule.signatureList xs' → (∀ r, .rule r ∈ xs → A r) →
    (∀ r, .rule r ∈ xs' → A r) → List.Forall₂ b.Stands xs ys → List.Forall₂ b.Stands xs' ys' →
      ys = ys'
  | [], [], _, _, _, _, _, .nil, .nil => rfl
  | .field name type :: xs, .field name' type' :: xs', y :: ys, y' :: ys', hsignature, hA, hA',
      .cons hy hys, .cons hy' hys' => by
      simp only [Rule.signatureList, List.cons.injEq, SignatureOperand.field.injEq] at hsignature
      obtain ⟨rfl, hrest⟩ := hsignature
      obtain rfl : y = .field name := hy
      obtain rfl : y' = .field name := hy'
      rw [h.stands_unique htold hsame hrest (fun r hr => hA r (List.mem_cons_of_mem _ hr))
        (fun r hr => hA' r (List.mem_cons_of_mem _ hr)) hys hys']
  | .rule x :: xs, .rule x' :: xs', y :: ys, y' :: ys', hsignature, hA, hA', .cons hy hys,
      .cons hy' hys' => by
      simp only [Rule.signatureList, List.cons.injEq, SignatureOperand.rule.injEq] at hsignature
      obtain ⟨hx, hrest⟩ := hsignature
      obtain ⟨n, hn, rfl⟩ := hy
      obtain ⟨n', hn', rfl⟩ := hy'
      have hAx := hA x List.mem_cons_self
      have hcosts := hsame x x' hAx (hA' x' List.mem_cons_self) hx
      rw [h.name_unique (htold x hAx) ⟨hx.symm, hcosts.symm⟩ hn hn',
        h.stands_unique htold hsame hrest (fun r hr => hA r (List.mem_cons_of_mem _ hr))
          (fun r hr => hA' r (List.mem_cons_of_mem _ hr)) hys hys']
  | .part _ :: _, _, _, _, _, _, _, .cons hy _, _ => hy.elim
  | [], .field .. :: _, _, _, hsignature, _, _, _, _ => by simp [Rule.signatureList] at hsignature
  | [], .rule _ :: _, _, _, hsignature, _, _, _, _ => by simp [Rule.signatureList] at hsignature
  | _, .part _ :: _, _, _, _, _, _, _, .cons hy _ => hy.elim
  | .field .. :: _, [], _, _, hsignature, _, _, _, _ => by simp [Rule.signatureList] at hsignature
  | .rule _ :: _, [], _, _, hsignature, _, _, _, _ => by simp [Rule.signatureList] at hsignature
  | .field .. :: _, .rule _ :: _, _, _, hsignature, _, _, _, _ => by
      simp [Rule.signatureList] at hsignature
  | .rule _ :: _, .field .. :: _, _, _, hsignature, _, _, _, _ => by
      simp [Rule.signatureList] at hsignature

end Sound

namespace Placed

/-- The member that a rule is named by is one for the rule. -/
theorem inBlock (h : Placed s ts b) (hr : r.Over ts) (hn : b.HasName r n)
    (hB : b.HasCore r.className fun f => f.name = n ∧ f.block = some B) : b.InBlock r B := by
  obtain ⟨z, hz, halike⟩ := hn
  rcases h.said z n hz with hplain | hmember
  · unfold IsPlain at hplain
    rw [Rule.className_eq_of_signature halike.signature] at hplain
    obtain ⟨f, hf, hnone⟩ := h.sound.core_unique hB hplain
    cases hf.symm.trans hnone
  · exact ⟨n, hmember.congr halike.symm hr (h.sound.sorted.within _ hz).named, hB⟩

/-- The member upstream of a statistic is one for the rule upstream. -/
theorem inBlock_of_upstream (h : Placed s ts b) (hr : r.Over ts) {u : String} (hu : b.HasName r u)
    (hU : b.HasCore r.className fun f => f.name = u ∧ f.block = some U ∧ f.key = some key) :
    b.InBlock r U := by
  obtain ⟨e, c, he, hc, f, hf, hname, hblock, -⟩ := hU
  exact h.inBlock hr hu ⟨e, c, he, hc, f, hf, hname, hblock⟩

/-- Members for mates are in one block, if all rules of one signature have the same costs. -/
theorem same_block (h : Placed s ts b) (hA : Rule.Hereditary A) (htold : ∀ r, A r → r.Told s ts)
    (hsame : Rule.SameCosts A) {x r : Rule} (hmates : Rule.Mates x r) : A x → A r →
      ∀ {B B' : String}, b.InBlock x B → b.InBlock r B' → B = B' := by
  have hoperands : ∀ {y : Rule}, A y → ∀ inner, .rule inner ∈ y.operands.drop 1 → A inner :=
    fun hy inner hinner => hA _ inner hy (List.mem_of_mem_drop hinner)
  induction hmates with
  | @partition x r p q template className sort sort' used used' cut operands =>
    rintro hx hr B B' ⟨n, hmember, hB⟩ ⟨m, hmember', hB'⟩
    cases hmember with
    | value sort₁ => cases sort.symm.trans sort₁
    | @partition op part key p₁ φ T t xs _ statistic used₁ _ _ _ formula table _ stands member =>
      cases hmember' with
      | value sort₁ => cases sort'.symm.trans sort₁
      | @partition op' part' key' p₁' φ' T' t' xs' _ statistic' used₁' _ _ _ formula' table' _ stands'
          member' =>
        obtain rfl : p = part := Option.some.inj (used.symm.trans used₁)
        obtain rfl : q = part' := Option.some.inj (used'.symm.trans used₁')
        rw [cut] at formula
        obtain rfl : φ = φ' := Except.ok.inj (formula.symm.trans formula')
        rw [template] at statistic
        obtain rfl : op = op' := Option.some.inj (statistic.symm.trans statistic')
        rw [className] at table hB member
        obtain rfl := table.unique table'
        obtain rfl := h.sound.stands_unique htold hsame operands (hoperands hx) (hoperands hr)
          stands stands'
        exact (h.sound.knowsBlock_of_member member hB).unique
          (h.sound.knowsBlock_of_member member' hB')
  | @value x r y inner name type type' template className sort sort' first first' second second'
      below ih =>
    rintro hx hr B B' ⟨n, hmember, hB⟩ ⟨m, hmember', hB'⟩
    cases hmember with
    | partition sort₁ => cases sort.symm.trans sort₁
    | @value op inner₁ part key u U x₀ y₀ _ statistic second₁ _ _ upstream upMember first₁ table
        member =>
      cases hmember' with
      | partition sort₁ => cases sort'.symm.trans sort₁
      | @value op' inner₁' part' key' u' U' x₀' y₀' _ statistic' second₁' _ _ upstream' upMember'
          first₁' table' member' =>
        obtain rfl : y = inner₁ := Option.some.inj (second.symm.trans second₁)
        obtain rfl : inner = inner₁' := Option.some.inj (second'.symm.trans second₁')
        obtain rfl := Option.some.inj (first.symm.trans first₁)
        obtain rfl := Option.some.inj (first'.symm.trans first₁')
        obtain rfl : y₀ = .field name := table
        obtain rfl : y₀' = .field name := table'
        rw [template] at statistic
        obtain rfl : op = op' := Option.some.inj (statistic.symm.trans statistic')
        have hy := hA x y hx (List.mem_of_getElem? (Rule.getElem?_of_ruleOperand? second))
        have hinner := hA r inner hr (List.mem_of_getElem? (Rule.getElem?_of_ruleOperand? second'))
        obtain rfl : U = U' := ih hy hinner
          (h.inBlock_of_upstream (htold y hy).named upstream upMember)
          (h.inBlock_of_upstream (htold inner hinner).named upstream' upMember')
        rw [className] at hB member
        exact (h.sound.knowsBlock_of_member member hB).unique
          (h.sound.knowsBlock_of_member member' hB')

end Placed

end BuildState

end FeatureSynth
