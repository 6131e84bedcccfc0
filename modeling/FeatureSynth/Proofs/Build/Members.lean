/-
# Members of the right blocks

Where blocks are built, the name that the ledger has for a rule is that of a field in
no block, or it is that of a member, and then the block, the key and the rule belong
together.  `MemberOf` says how, in the terms of the registry: the member is known by
its key and a formula, and the formula is a statistic over a block that is known by
its own formula, and has a member under the same key.

The key of a member is that of the part its rule uses, also for statistics of
statistics: the key is taken over from the member upstream, which is that of a rule
that uses the same part.
-/
import FeatureSynth.Proofs.Build.Noted

namespace FeatureSynth

namespace BuildState

variable {b b' : BuildState} {s : Space} {ts : Catalogue} {r x : Rule} {n : String}

/-! ## Operands and keys -/

/-- What stands for an operand of a statistic: a field name, or the name of a rule operand. -/
def Stands (b : BuildState) : RuleOperand Rule → Operand → Prop
  | .field name _, y => y = .field name
  | .rule inner, y => ∃ name, b.HasName inner name ∧ y = .field name
  | .part _, _ => False

theorem Onward.stands (h : Onward b b') : ∀ {x : RuleOperand Rule} {y : Operand}, b.Stands x y →
    b'.Stands x y
  | .field .., _, hy => hy
  | .rule _, _, ⟨name, hname, hy⟩ => ⟨name, h.hasName hname, hy⟩

/-- The same stands for operands that are alike. -/
theorem Stands.congr : ∀ {x x' : RuleOperand Rule} {y : Operand}, Rule.OperandsAlike x x' →
    b.Stands x' y → b.Stands x y
  | .field .., .field .., _, rfl, hy => hy
  | .rule _, .rule _, _, halike, ⟨name, ⟨z, hz, hzx⟩, hy⟩ =>
      ⟨name, ⟨z, hz, hzx.trans (Rule.Alike.symm halike)⟩, hy⟩

theorem forall₂_stands_congr : ∀ {xs xs' : List (RuleOperand Rule)} {ys : List Operand},
    List.Forall₂ Rule.OperandsAlike xs xs' → List.Forall₂ b.Stands xs' ys →
      List.Forall₂ b.Stands xs ys
  | _, _, _, .nil, .nil => .nil
  | _, _, _, .cons hx hxs, .cons hy hys => .cons (hy.congr hx) (forall₂_stands_congr hxs hys)

/-- The key of a part, where it is fixed: the descriptor of the partition is there. -/
def Keyed (b : BuildState) (part : Part) (key : Nat) : Prop :=
  b.space.key part = .ok key ∧
    ∃ p P, b.space.partitions[part.partition]? = some p ∧ p.descriptorField = some P

theorem Onward.keyed (h : Onward b b') {part : Part} {key : Nat} (hk : b.Keyed part key) :
    b'.Keyed part key := by
  obtain ⟨hkey, p, P, hp, hP⟩ := hk
  obtain ⟨p', hp', hsettles⟩ := h.settles.partition _ p hp
  exact ⟨(h.settles.key_eq hp hP).trans hkey, p', P, hp', (hsettles.described P hP).1⟩

/-! ## Members -/

/-- A member of a block for a rule, in the terms of the registry. -/
inductive MemberOf (b : BuildState) (r : Rule) (n : String) : Prop
  /-- A statistic of the block of parts of the table of a partition, which has the part. -/
  | partition {operator : String} {part : Part} {key : Nat} {p : Partition} {φ : Formula}
      {T t : String} {xs : List Operand}
      (sort : r.classify = .partitionBlock)
      (statistic : r.template.partitionStatistic = some operator)
      (used : r.usedPart? = some part) (keyed : b.Keyed part key)
      (cut : b.space.partitions[part.partition]? = some p) (owner : p.parentClass = r.className)
      (formula : b.space.tableBlockFormula part.partition = .ok φ)
      (table : b.KnowsBlock r.className φ T) (tableMember : b.KnowsMember r.className φ key t)
      (operands : List.Forall₂ b.Stands (r.operands.drop 1) xs)
      (member : b.KnowsMember r.className ⟨operator, .field T :: xs⟩ key n)
  /-- A statistic of the block of the member for the second operand. -/
  | value {operator : String} {inner : Rule} {part : Part} {key : Nat} {u U : String}
      {x : RuleOperand Rule} {y : Operand}
      (sort : r.classify = .valueBlock)
      (statistic : r.template.valueStatistic = some operator)
      (second : r.ruleOperand? 1 = some inner)
      (used : r.usedPart? = some part) (keyed : b.Keyed part key)
      (upstream : b.HasName inner u)
      (upstreamMember : b.HasCore inner.className fun f =>
        f.name = u ∧ f.block = some U ∧ f.key = some key)
      (first : r.operands[0]? = some x) (table : b.Stands x y)
      (member : b.KnowsMember r.className ⟨operator, [y, .field U]⟩ key n)

/-- What is said of the name of a rule: it is that of a field in no block, or that of a member. -/
def Tells (b : BuildState) (r : Rule) (n : String) : Prop :=
  b.IsPlain r.className n ∨ b.MemberOf r n

theorem Onward.memberOf (h : Onward b b') : b.MemberOf r n → b'.MemberOf r n
  | .partition sort statistic used keyed cut owner formula table tableMember operands member => by
      obtain ⟨p', hp', hsettles⟩ := h.settles.partition _ _ cut
      exact .partition sort statistic used (h.keyed keyed) hp' (hsettles.parentClass.trans owner)
        (h.settles.tableBlockFormula_eq formula) (h.grew.knowsBlock table)
        (h.grew.knowsMember tableMember) (operands.imp fun _ _ => h.stands)
        (h.grew.knowsMember member)
  | .value sort statistic second used keyed upstream upstreamMember first table member =>
      .value sort statistic second used (h.keyed keyed) (h.hasName upstream)
        (h.hasCore upstreamMember) first (h.stands table) (h.grew.knowsMember member)

theorem lasting_tells : Lasting Tells where
  onward := fun _ _ h _ _ => Or.imp h.hasCore h.memberOf
  plain := fun _ _ _ => .inl

theorem ruleOperand?_alike (h : x.Alike r) {i : Nat} {inner : Rule}
    (hinner : r.ruleOperand? i = some inner) :
    ∃ inner', x.ruleOperand? i = some inner' ∧ inner'.Alike inner := by
  have hi := Rule.getElem?_of_ruleOperand? hinner
  rcases Rule.getElem?_forall₂ h.operands i with ⟨-, hnone⟩ | ⟨y, z, hy, hz, hyz⟩
  · cases hnone.symm.trans hi
  · obtain rfl : z = .rule inner := Option.some.inj (hz.symm.trans hi)
    match y, hyz with
    | .rule inner', halike => exact ⟨inner', by rw [Rule.ruleOperand?, hy], halike⟩

/-- A member for a rule is one for every rule that a ledger does not tell from it. -/
theorem MemberOf.congr (halike : x.Alike r) (hx : x.Over ts) (hr : r.Over ts) :
    b.MemberOf r n → b.MemberOf x n := by
  have hclass := Rule.className_eq_of_signature halike.signature
  have hagree := Rule.agree_of_signature x r halike.signature hx hr
  rintro (⟨sort, statistic, used, keyed, cut, owner, formula, table, tableMember, operands, member⟩ |
    ⟨sort, statistic, second, used, keyed, upstream, upstreamMember, first, table, member⟩)
  · rw [← hclass] at owner table tableMember member
    rw [← hagree.template] at statistic
    have hoperands := forall₂_stands_congr (List.forall₂_drop 1 halike.operands) operands
    exact .partition (hagree.classify.trans sort) statistic (hagree.used.trans used) keyed cut owner
      formula table tableMember hoperands member
  · rw [← hclass] at member
    rw [← hagree.template] at statistic
    obtain ⟨inner', hinner', hinner⟩ := ruleOperand?_alike halike second
    obtain ⟨z, hz, hzinner⟩ := upstream
    rw [← Rule.className_eq_of_signature hinner.signature] at upstreamMember
    rcases Rule.getElem?_forall₂ halike.operands 0 with ⟨-, hnone⟩ | ⟨y, y', hy, hy', hyy'⟩
    · cases hnone.symm.trans first
    · obtain rfl := Option.some.inj (hy'.symm.trans first)
      exact .value (hagree.classify.trans sort) statistic hinner' (hagree.used.trans used) keyed
        ⟨z, hz, hzinner.trans hinner.symm⟩ upstreamMember hy (table.congr hyy') member

namespace Sound

theorem hasCore_of_member (h : Sound s ts b) {C : String} {φ : Formula} {key : Nat}
    (hn : b.KnowsMember C φ key n) :
    b.HasCore C fun f => f.name = n ∧ f.key = some key ∧ f.block.isSome = true := by
  obtain ⟨e, c, he, hc, hn⟩ := hn
  obtain ⟨-, f, hf, B, hname, hkey, hB, -⟩ := (h.linked.indexes C e c he hc).member φ key n hn
  exact ⟨e, c, he, hc, f, hf, hname, hkey, by rw [hB]; rfl⟩

/-- The member for a rule has the key of the part that the rule uses. -/
theorem keyed_of_tells (h : Sound s ts b) (hr : b.Tells r n) {U : String} {key : Nat}
    (hn : b.HasCore r.className fun f => f.name = n ∧ f.block = some U ∧ f.key = some key) :
    ∃ part, r.usedPart? = some part ∧ b.Keyed part key := by
  rcases hr with hplain | hmember
  · obtain ⟨f, ⟨hU, -⟩, hnone⟩ := h.core_unique hn hplain
    cases hU.symm.trans hnone
  · obtain ⟨part, key', φ, hused, hkeyed, hmember⟩ : ∃ part key' φ, r.usedPart? = some part ∧
        b.Keyed part key' ∧ b.KnowsMember r.className φ key' n := by
      rcases hmember with ⟨-, -, hused, hkeyed, -, -, -, -, -, -, hmember⟩ |
        ⟨-, -, -, hused, hkeyed, -, -, -, -, hmember⟩
      · exact ⟨_, _, _, hused, hkeyed, hmember⟩
      · exact ⟨_, _, _, hused, hkeyed, hmember⟩
    obtain ⟨f, ⟨-, hkey⟩, hkey', -⟩ := h.core_unique hn (h.hasCore_of_member hmember)
    obtain rfl : key = key' := Option.some.inj (hkey.symm.trans hkey')
    exact ⟨part, hused, hkeyed⟩

end Sound

/-- A rule is told of only in a class that has a record. -/
theorem Tells.registered (h : b.Tells r n) : ∃ c, b.registry.class? r.className = some c := by
  rcases h with ⟨-, c, -, hc, -⟩ | hmember
  · exact ⟨c, hc⟩
  · rcases hmember with ⟨-, -, -, -, -, -, -, -, -, -, -, c, -, hc, -⟩ |
      ⟨-, -, -, -, -, -, -, -, -, -, c, -, hc, -⟩
    · exact ⟨c, hc⟩
    · exact ⟨c, hc⟩

end BuildState

/-- A rule of a build: it is checked, and a ledger tells it apart. -/
structure Rule.Fit (s : Space) (ts : Catalogue) (r : Rule) : Prop where
  told : r.Told s ts
  checked : r.check s = .ok ()

theorem Rule.Fit.operand {s : Space} {ts : Catalogue} {r inner : Rule} (h : r.Fit s ts)
    (hinner : .rule inner ∈ r.operands) : inner.Fit s ts :=
  ⟨hereditary_told s ts r inner h.told hinner, check_operand h.checked hinner⟩

/-- A statistic of a selection selects from a table of its class. -/
theorem BuildState.Sound.owner {s : Space} {ts : Catalogue} {b : BuildState} {r : Rule}
    (h : Sound s ts b) (hr : r.Fit s ts) (hsort : r.classify = .partitionBlock) {part : Part}
    (hused : r.usedPart? = some part) {p : Partition}
    (hp : b.space.partitions[part.partition]? = some p) : p.parentClass = r.className := by
  rw [Rule.usedPart?_eq, hsort] at hused
  obtain ⟨q, hq, hclass⟩ := Rule.parentClass_of_partitionBlock hr.checked
    (Rule.isPartitionBlock_of_classify hsort) hused
  rcases h.cuts.partition? part.partition with ⟨hnone, -⟩ | ⟨q', p', hq', hp', hcut, -⟩
  · cases hnone.symm.trans hq
  · obtain rfl := Option.some.inj (hq'.symm.trans hq)
    obtain rfl := Option.some.inj (hp'.symm.trans hp)
    exact (congrArg (·.2.1) hcut).trans hclass

namespace Build

open BuildState

variable {b b' : BuildState} {s : Space} {ts : Catalogue} {r : Rule} {n : String}
variable {T : BuildState → Rule → String → Prop}

/-! ## Members for rules -/

/-- A member for a rule without a name. -/
theorem writes_blockMember (h : Sound s ts b) (hr : r.Told s ts) (hnone : ∀ n, ¬ b.HasName r n)
    {φ : Formula} {key : Nat}
    (hmember : ∀ b₁, Onward b b₁ → b₁.KnowsMember r.className φ key n → b₁.MemberOf r n)
    (hrun : (blockMember r φ key).Gives b n b') :
    Writes s ts Tells (r.costs.length + 1) b b' ∧ b'.HasName r n := by
  obtain ⟨b₁, hlinks, hknows, hrecord⟩ := links_blockMember h.linked hrun
  have hnone₁ : ∀ n, ¬ b₁.HasName r n := by
    rintro n ⟨x, hx, halike⟩
    exact hnone n ⟨x, hlinks.fieldOf ▸ hx, halike⟩
  have hsaid : ∀ x, x.Told s ts → x.Alike r → b₁.Tells x n := fun x hx halike =>
    .inr ((hmember b₁ (.of_links hlinks) hknows).congr halike hx.named hr.named)
  obtain ⟨hwrites, hname⟩ :=
    writes_recordField lasting_tells (h.of_links hlinks) hr hnone₁ hsaid hrecord
  exact ⟨(Writes.of_links h hlinks).trans lasting_tells hwrites, hname⟩

/-- The operands of a statistic stand for those of its rule. -/
theorem writes_statisticOperands (hT : Lasting T) : ∀ (operands : List (RuleOperand Rule))
    (bound : Nat) (b b' : BuildState) (xs : List Operand), Sound s ts b →
    (∀ inner, .rule inner ∈ operands → inner.Told s ts ∧ inner.costs.length < bound) →
    (statisticOperands r operands).Gives b xs b' →
      Writes s ts T bound b b' ∧ List.Forall₂ b'.Stands operands xs
  | [], bound, b, b', xs, h, _, hrun => by
      rw [statisticOperands, gives_pure] at hrun
      obtain ⟨rfl, rfl⟩ := hrun
      exact ⟨.refl h, .nil⟩
  | .field name type :: rest, bound, b, b', xs, h, hrest, hrun => by
      rw [statisticOperands, gives_bind] at hrun
      obtain ⟨ys, b₁, hrun, hpure⟩ := hrun
      obtain ⟨rfl, rfl⟩ := gives_pure.mp hpure
      obtain ⟨hwrites, hstands⟩ := writes_statisticOperands hT rest bound b _ ys h
        (fun inner hinner => hrest inner (List.mem_cons_of_mem _ hinner)) hrun
      exact ⟨hwrites, .cons rfl hstands⟩
  | .rule inner :: rest, bound, b, b', xs, h, hrest, hrun => by
      rw [statisticOperands, gives_bind] at hrun
      obtain ⟨name, b₁, hfield, hrun⟩ := hrun
      obtain ⟨ys, b₂, hrun, hpure⟩ := gives_bind.mp hrun
      obtain ⟨rfl, rfl⟩ := gives_pure.mp hpure
      obtain ⟨htold, hlt⟩ := hrest inner List.mem_cons_self
      obtain ⟨hwrites, hname⟩ := writes_sharedField hT inner b b₁ name h htold hfield
      obtain ⟨hwrites', hstands⟩ := writes_statisticOperands hT rest bound b₁ _ ys hwrites.sound
        (fun x hx => hrest x (List.mem_cons_of_mem _ hx)) hrun
      exact ⟨(hwrites.mono hlt).trans hT hwrites',
        .cons ⟨name, hwrites'.toOnward.hasName hname, rfl⟩ hstands⟩
  | .part part :: rest, bound, b, b', xs, h, _, hrun => by
      rw [statisticOperands, gives_lift] at hrun
      cases hrun.1

/-- The table of a statistic of a block stands for the first operand of its rule. -/
theorem writes_tableOperand (hT : Lasting T) {y : Operand} (h : Sound s ts b) (hr : r.Told s ts)
    (hrun : (tableOperand r).Gives b y b') :
    Writes s ts T r.costs.length b b' ∧ ∃ x, r.operands[0]? = some x ∧ b'.Stands x y := by
  unfold tableOperand at hrun
  split at hrun
  · rename_i name type rest hoperands
    obtain ⟨rfl, rfl⟩ := gives_pure.mp hrun
    exact ⟨.refl h, .field name type, by rw [hoperands]; rfl, rfl⟩
  · rename_i inner rest hoperands
    obtain ⟨name, b₁, hfield, hpure⟩ := gives_bind.mp hrun
    obtain ⟨rfl, rfl⟩ := gives_pure.mp hpure
    have hinner : .rule inner ∈ r.operands := by
      rw [hoperands]
      exact List.mem_cons_self
    obtain ⟨hwrites, hname⟩ := writes_sharedField hT inner b _ name h
      (Rule.hereditary_told s ts r inner hr hinner) hfield
    exact ⟨hwrites.mono (Rule.length_costs_lt hinner), .rule inner, by rw [hoperands]; rfl, name,
      hname, rfl⟩
  · rw [gives_lift] at hrun
    cases hrun.1

/-- A statistic of a selection is a member of the statistic of the block of parts. -/
theorem writes_partitionBlockMember (h : Sound s ts b) (hr : r.Fit s ts)
    (hsort : r.classify = .partitionBlock) (hnone : ∀ n, ¬ b.HasName r n)
    (hrun : (partitionBlockMember r).Gives b n b') :
    Writes s ts Tells (r.costs.length + 1) b b' ∧ b'.HasName r n := by
  unfold partitionBlockMember at hrun
  split at hrun
  · rw [gives_lift] at hrun
    cases hrun.1
  · rw [gives_lift] at hrun
    cases hrun.1
  · rename_i operator part hstatistic hused
    obtain ⟨table, b₁, htable, hrun⟩ := gives_bind.mp hrun
    obtain ⟨xs, b₂, hoperands, hrun⟩ := gives_bind.mp hrun
    simp only [gives_get_bind, gives_lift_bind] at hrun
    obtain ⟨key, hkey, hrun⟩ := hrun
    obtain ⟨hlinks, p, φ, key₁, t, hp, -, hφ, hkey₁, hT, ht⟩ := links_tableBlock h.linked htable
    have h₁ := h.of_links hlinks
    obtain ⟨hwrites, hstands⟩ := writes_statisticOperands (r := r) lasting_tells _ r.costs.length
      b₁ b₂ xs h₁ (fun inner hinner =>
        ⟨Rule.hereditary_told s ts r inner hr.told (List.mem_of_mem_drop hinner),
          Rule.length_costs_lt (List.mem_of_mem_drop hinner)⟩) hoperands
    have howner := h₁.owner hr hsort hused hp
    obtain ⟨P, -, hP, -, -⟩ := Space.tableBlockFormula_eq_ok hp hφ
    have hkeyed : b₂.Keyed part key₁ := hwrites.toOnward.keyed ⟨hkey₁, p, P, hp, hP⟩
    obtain rfl : key = key₁ := Except.ok.inj (hkey.symm.trans hkeyed.1)
    obtain ⟨p₂, hp₂, hsettles⟩ := hwrites.settles.partition _ p hp
    rw [howner] at hT ht
    have hmember : ∀ b₃, Onward b₂ b₃ →
        b₃.KnowsMember r.className ⟨operator, .field table :: xs⟩ key n → b₃.MemberOf r n := by
      intro b₃ h₃ hknows
      have h₁₃ := hwrites.toOnward.trans h₃
      obtain ⟨p₃, hp₃, hsettles₃⟩ := h₃.settles.partition _ p₂ hp₂
      exact .partition hsort hstatistic hused (h₃.keyed hkeyed) hp₃
        ((hsettles.trans hsettles₃).parentClass.trans howner)
        (h₁₃.settles.tableBlockFormula_eq hφ) (h₁₃.grew.knowsBlock hT) (h₁₃.grew.knowsMember ht)
        (hstands.imp fun _ _ => h₃.stands) hknows
    have hbefore : Writes s ts Tells r.costs.length b b₂ :=
      (Writes.of_links h hlinks).trans lasting_tells hwrites
    obtain ⟨hlast, hname⟩ :=
      writes_blockMember hwrites.sound hr.told (hbefore.nameless hnone) hmember hrun
    exact ⟨(hbefore.mono (Nat.le_succ _)).trans lasting_tells hlast, hname⟩

/-- A statistic of a member is the member of the statistic of its block. -/
theorem writes_valueBlockMember (h : Sound s ts b) (hsaid : b.Said Tells) (hr : r.Fit s ts)
    (hsort : r.classify = .valueBlock) (hnone : ∀ n, ¬ b.HasName r n) {operator u : String}
    (hstatistic : r.template.valueStatistic = some operator) {inner : Rule}
    (hinner : r.ruleOperand? 1 = some inner) (hu : b.HasName inner u) {known : Option String}
    (hrun : (valueBlockMember r operator u).Gives b known b') :
    (known = none ∧ b' = b) ∨ ∃ n, known = some n ∧
      Writes s ts Tells (r.costs.length + 1) b b' ∧ b'.HasName r n := by
  unfold valueBlockMember at hrun
  rw [gives_lift_bind] at hrun
  obtain ⟨C, hC, hrun⟩ := hrun
  rw [gives_entity_bind] at hrun
  obtain ⟨e, he, hrun⟩ := hrun
  obtain rfl : inner.className = C :=
    Except.ok.inj ((Rule.operandClass_of_check hr.checked hinner).symm.trans hC)
  split at hrun
  · rename_i name type used loaded formula cost notes U key hf
    obtain ⟨y, b₁, htable, hrun⟩ := gives_bind.mp hrun
    obtain ⟨n, b₂, hblock, hpure⟩ := gives_bind.mp hrun
    obtain ⟨rfl, rfl⟩ := gives_pure.mp hpure
    refine .inr ⟨n, rfl, ?_⟩
    -- the key is that of the part, for the member upstream is one for a rule of the ledger
    obtain ⟨z, hz, halike⟩ := hu
    have hclass := Rule.className_eq_of_signature halike.signature
    have htells := hsaid z u hz
    obtain ⟨c, hc⟩ := htells.registered
    have hmember : b.HasCore inner.className fun g =>
        g.name = u ∧ g.block = some U ∧ g.key = some key := by
      refine ⟨e, c, he, hclass ▸ hc, _, Entity.core_mem_cores (List.mem_of_find?_eq_some hf), ?_⟩
      exact ⟨by simpa using List.find?_some hf, rfl, rfl⟩
    obtain ⟨part, hused, hkeyed⟩ := h.keyed_of_tells htells (hclass ▸ hmember)
    have hinnerMem := List.mem_of_getElem? (Rule.getElem?_of_ruleOperand? hinner)
    have hfit := hr.operand hinnerMem
    have hagree := Rule.agree_of_signature z inner halike.signature (h.sorted.within _ hz).named
      hfit.told.named
    have hpart : r.usedPart? = some part := by
      rw [Rule.usedPart?_eq, hsort, hinner, Option.bind_some, ← hagree.used, hused]
    obtain ⟨hwrites, x, hx, hy⟩ := writes_tableOperand lasting_tells h hr.told htable
    have hmemberOf : ∀ b₃, Onward b₁ b₃ →
        b₃.KnowsMember r.className ⟨operator, [y, .field U]⟩ key n → b₃.MemberOf r n := by
      intro b₃ h₃ hknows
      have h₁₃ := hwrites.toOnward.trans h₃
      exact .value hsort hstatistic hinner hpart (h₁₃.keyed hkeyed)
        (h₁₃.hasName ⟨z, hz, halike⟩) (h₁₃.hasCore hmember) hx (h₃.stands hy) hknows
    obtain ⟨hlast, hname⟩ :=
      writes_blockMember hwrites.sound hr.told (hwrites.nameless hnone) hmemberOf hblock
    exact ⟨(hwrites.mono (Nat.le_succ _)).trans lasting_tells hlast, hname⟩
  · obtain ⟨rfl, rfl⟩ := gives_pure.mp hrun
    exact .inl ⟨rfl, rfl⟩

/-! ## Rules -/

/-- A field of its own for a rule, after the operands. -/
theorem writes_plainField {b₁ : BuildState} (hr : r.Told s ts) (hnone : ∀ n, ¬ b.HasName r n)
    (h : Writes s ts Tells r.costs.length b b₁)
    (hoperands : ∀ xs b₂, (sparseOperands r.operands).Gives b₁ xs b₂ →
      Writes s ts Tells r.costs.length b₁ b₂)
    (hrun : (do
      let xs ← sparseOperands r.operands
      formulaField r (r.template.formula xs)).Gives b₁ n b') :
    Writes s ts Tells (r.costs.length + 1) b b' ∧ b'.HasName r n := by
  obtain ⟨xs, b₂, hxs, hrun⟩ := gives_bind.mp hrun
  have hbefore := h.trans lasting_tells (hoperands xs b₂ hxs)
  obtain ⟨hlast, hname⟩ :=
    writes_formulaField lasting_tells hbefore.sound hr (hbefore.nameless hnone) hrun
  exact ⟨(hbefore.mono (Nat.le_succ _)).trans lasting_tells hlast, hname⟩

mutual

/-- The field of a rule where blocks are built is noted as its name, and it is in no block or the
member it should be. -/
theorem writes_sparseField : ∀ (r : Rule) (b b' : BuildState) (n : String), Sound s ts b →
    b.Said Tells → r.Fit s ts → (sparseField r).Gives b n b' →
      Writes s ts Tells (r.costs.length + 1) b b' ∧ b'.HasName r n
  | ⟨template, className, operands, cost, tieBreak⟩, b, b', n, h, hsaid, hr, hrun => by
      -- the operands have fewer costs, before the rule has a name and after
      have hfewer : ∀ inner, .rule inner ∈ operands → inner.Fit s ts ∧
          inner.costs.length < (Rule.costs ⟨template, className, operands, cost, tieBreak⟩).length :=
        fun inner hinner => ⟨hr.operand hinner,
          Rule.length_costs_lt (r := ⟨template, className, operands, cost, tieBreak⟩) hinner⟩
      have hoperands : ∀ b₁, Writes s ts Tells
          (Rule.costs ⟨template, className, operands, cost, tieBreak⟩).length b b₁ →
          ∀ xs b₂, (sparseOperands operands).Gives b₁ xs b₂ → Writes s ts Tells
            (Rule.costs ⟨template, className, operands, cost, tieBreak⟩).length b₁ b₂ :=
        fun b₁ h₁ xs b₂ => writes_sparseOperands operands _ b₁ b₂ xs h₁.sound
          (h₁.said lasting_tells hsaid) hfewer
      rw [sparseField, gives_get_bind] at hrun
      split at hrun
      · rename_i name hname
        obtain ⟨rfl, rfl⟩ := gives_pure.mp hrun
        exact ⟨.refl h, h.hasName_of_fieldOf? hname⟩
      · rename_i hunknown
        have hnone : ∀ n, ¬ b.HasName ⟨template, className, operands, cost, tieBreak⟩ n :=
          fun m hm => by cases hunknown.symm.trans (h.fieldOf?_of_hasName hr.told hm)
        dsimp only at hrun
        split at hrun
        · rename_i hsort
          exact writes_partitionBlockMember h hr hsort hnone hrun
        · rename_i hcollected hsort
          split at hrun
          · rename_i operator x inner rest hstatistic
            obtain ⟨u, b₁, hfield, hrun⟩ := gives_bind.mp hrun
            obtain ⟨hfit, hlt⟩ := hfewer inner (List.mem_cons_of_mem _ List.mem_cons_self)
            obtain ⟨hwrites, hu⟩ := writes_sparseField inner b b₁ u h hsaid hfit hfield
            have hbefore := hwrites.mono hlt
            obtain ⟨known, b₂, hblock, hrest⟩ := gives_bind.mp hrun
            rcases writes_valueBlockMember hwrites.sound (hwrites.said lasting_tells hsaid) hr hsort
              (hbefore.nameless hnone) hstatistic rfl hu hblock with ⟨rfl, rfl⟩ | ⟨m, rfl, hlast, hm⟩
            · exact writes_plainField hr.told hnone hbefore (hoperands _ hbefore) hrest
            · obtain ⟨rfl, rfl⟩ := gives_pure.mp hrest
              exact ⟨(hbefore.mono (Nat.le_succ _)).trans lasting_tells hlast, hm⟩
          · rw [gives_lift] at hrun
            cases hrun.1
          · rw [gives_lift] at hrun
            cases hrun.1
        · exact writes_plainField hr.told hnone (.refl h) (hoperands b (.refl h)) hrun

theorem writes_sparseOperands : ∀ (operands : List (RuleOperand Rule)) (bound : Nat)
    (b b' : BuildState) (xs : List Operand), Sound s ts b → b.Said Tells →
    (∀ inner, .rule inner ∈ operands → inner.Fit s ts ∧ inner.costs.length < bound) →
    (sparseOperands operands).Gives b xs b' → Writes s ts Tells bound b b'
  | [], bound, b, b', xs, h, _, _, hrun => by
      rw [sparseOperands, gives_pure] at hrun
      obtain ⟨-, rfl⟩ := hrun
      exact .refl h
  | .field name type :: rest, bound, b, b', xs, h, hsaid, hrest, hrun => by
      rw [sparseOperands, gives_bind] at hrun
      obtain ⟨ys, b₁, hrun, hpure⟩ := hrun
      obtain ⟨-, rfl⟩ := gives_pure.mp hpure
      exact writes_sparseOperands rest bound b _ ys h hsaid
        (fun inner hinner => hrest inner (List.mem_cons_of_mem _ hinner)) hrun
  | .rule inner :: rest, bound, b, b', xs, h, hsaid, hrest, hrun => by
      rw [sparseOperands] at hrun
      obtain ⟨hfit, hlt⟩ := hrest inner List.mem_cons_self
      obtain ⟨name, b₁, hfield, hrun⟩ : ∃ name b₁, Writes s ts Tells bound b b₁ ∧
          (do return Operand.field name :: (← sparseOperands rest)).Gives b₁ xs b' := by
        dsimp only at hrun
        split at hrun
        · obtain ⟨name, b₁, hfield, hrun⟩ := gives_bind.mp hrun
          exact ⟨name, b₁, (writes_sharedField lasting_tells inner b b₁ name h hfit.told hfield).1.mono
            hlt, hrun⟩
        · obtain ⟨name, b₁, hfield, hrun⟩ := gives_bind.mp hrun
          exact ⟨name, b₁, (writes_sparseField inner b b₁ name h hsaid hfit hfield).1.mono hlt, hrun⟩
      obtain ⟨ys, b₂, hrun, hpure⟩ := gives_bind.mp hrun
      obtain ⟨-, rfl⟩ := gives_pure.mp hpure
      have hlast := writes_sparseOperands rest bound b₁ _ ys hfield.sound
        (hfield.said lasting_tells hsaid)
        (fun x hx => hrest x (List.mem_cons_of_mem _ hx)) hrun
      exact hfield.trans lasting_tells hlast
  | .part part :: rest, bound, b, b', xs, h, hsaid, hrest, hrun => by
      simp only [sparseOperands, gives_get_bind, gives_lift_bind] at hrun
      obtain ⟨f, -, hrun⟩ := hrun
      obtain ⟨ys, b₁, hrun, hpure⟩ := gives_bind.mp hrun
      obtain ⟨-, rfl⟩ := gives_pure.mp hpure
      exact writes_sparseOperands rest bound b _ ys h hsaid
        (fun inner hinner => hrest inner (List.mem_cons_of_mem _ hinner)) hrun

end

end Build

end FeatureSynth
