/-
# The ledgers along a build with blocks

Before the candidates nothing is linked and no block is known; the fields of dimensions are
named by the ledger of fields, like all shared ones.  From then on every field of a candidate,
shared or a member of a block, leaves the ledgers in order: this goes by recursion on the rule,
as the fields of operands come first.
-/
import FeatureSynth.Proofs.Build.Filed
import FeatureSynth.Proofs.Build.Idempotent
import FeatureSynth.Proofs.Build.Turns
import FeatureSynth.Proofs.Space.Reached

namespace FeatureSynth

/-- Where nothing is derived no derived field is a member, and there are no blocks to tell apart. -/
theorem Schema.Stored.sharp {schema : Schema} (h : schema.Stored) : schema.Sharp where
  apart := fun e he f hf hφ => by
    rw [(h e he).2 f hf] at hφ
    cases hφ
  blocks_nodup := fun e he => by
    rw [(h e he).1]
    exact List.nodup_nil

namespace BuildState

/-- Before blocks are built: known fields are named, no block is known, and none is noted. -/
structure Early (b : BuildState) : Prop where
  field : ∀ C φ n, b.Knows C φ n → b.NamesField C n
  blocks : ∀ C φ B, ¬ b.KnowsBlock C φ B
  templates : ∀ entry ∈ b.blockOf.entries, entry.1.Over .default ∧ entry.2 = none

variable {b b' : BuildState} {s : Space} {A : Rule → Prop} {o : Options} {schema : Schema}
variable {interrupt : Interrupt}

namespace Early

theorem of_eq (h : Early b) (hschema : b'.schema = b.schema) (hregistry : b'.registry = b.registry)
    (hfieldOf : b'.fieldOf = b.fieldOf) (hblockOf : b'.blockOf = b.blockOf) : Early b' := by
  obtain ⟨hfield, hblocks, htemplates⟩ := h
  refine ⟨?_, ?_, ?_⟩
  · unfold Knows NamesField
    rw [hschema, hregistry, hfieldOf]
    exact hfield
  · unfold KnowsBlock
    rw [hschema, hregistry]
    exact hblocks
  · rw [hblockOf]
    exact htemplates

/-- While nothing is linked, what gets known is named. -/
theorem of_learns (h : Early b) (honward : Onward b b') (hlearns : Learns b b')
    (hunlinked : b'.space.Unlinked) : Early b' where
  field := by
    intro C φ n hn
    rcases hlearns.field C φ n hn with hold | hnamed | ⟨p, hp, -, hP⟩
    · exact honward.namesField (h.field C φ n hold)
    · exact hnamed
    · cases hP.symm.trans (hunlinked p hp).1
  blocks := by
    intro C φ B hB
    rcases hlearns.block C φ B hB with hold | ⟨⟨p, hp, -, hT⟩, -⟩
    · exact h.blocks C φ B hold
    · cases hT.symm.trans (hunlinked p hp).2
  templates := by
    rw [hlearns.blockOf]
    exact h.templates

theorem of_stays (h : Early b) (hlinked : Linked b) (hg : Stays b b')
    (hsame : Build.SameLedgers b b') : Early b' where
  field := by
    intro C φ n hn
    rcases hg.knows_before hlinked hn with hold | ⟨a, ha, -⟩
    · obtain ⟨x, hx, hclass⟩ := h.field C φ n hold
      exact ⟨x, hsame.fieldOf ▸ hx, hclass⟩
    · exact absurd ha List.not_mem_nil
  blocks := fun C φ B hB => (hg.knowsBlock_before hlinked hB).elim (h.blocks C φ B) List.not_mem_nil
  templates := by
    rw [hsame.blockOf]
    exact h.templates

theorem orderly (h : Early b) (hready : Ready s .default b) : Orderly s A b where
  placed := hready.placed
  filed :=
    { field := fun C φ n hn => .inl (h.field C φ n hn)
      block := fun C φ B hB => absurd hB (h.blocks C φ B)
      templates := fun entry hentry => (h.templates entry hentry).1
      named := fun x B hx => absurd (h.templates _ hx).2 (Option.some_ne_none B)
      kept := fun _ C φ B hB => absurd hB (h.blocks C φ B)
      statistic := fun C op T xs B hB => absurd hB (h.blocks C _ B) }
  used :=
    { described := fun p hp hP => by rw [(hready.unlinked p hp).1] at hP; cases hP
      tabled := fun p hp T hT => by cases hT.symm.trans (hready.unlinked p hp).2 }

end Early

theorem early_start (hstored : schema.Stored) : Early (start .default o schema s interrupt) where
  field := fun _ _ _ hn => absurd hn (not_knows_start hstored)
  blocks := by
    rintro C φ B ⟨e, c, he, hc, hB⟩
    rw [class?_start, show schema.entity? C = some e from he] at hc
    cases hc
    rw [ClassRecord.block?_collect, ClassRecord.blockName?,
      (hstored e (Schema.mem_of_entity? he)).1, List.find?_nil, Option.map_none, ite_self] at hB
    cases hB
  templates := fun _ hentry => absurd hentry List.not_mem_nil

end BuildState

namespace Build

open BuildState

variable {b b₁ b' : BuildState} {s : Space} {A : Rule → Prop} {r : Rule} {n : String}
variable {φ : Formula} {key : Nat}

theorem onward_blockMember {ts : Catalogue} (h : Sound s ts b) (hr : r.Told s ts)
    (hnone : ∀ n, ¬ b.HasName r n) (hrun : (blockMember r φ key).Gives b n b') : Onward b b' := by
  obtain ⟨b₁, hlinks, -, hrecord⟩ := links_blockMember h.linked hrun
  have hnone₁ : ∀ n, ¬ b₁.HasName r n := by
    rintro n ⟨x, hx, halike⟩
    exact hnone n ⟨x, hlinks.fieldOf ▸ hx, halike⟩
  have hlasting : Lasting fun _ _ _ => True := ⟨fun _ _ _ _ _ => id, fun _ _ _ _ => trivial⟩
  obtain ⟨hwrites, -⟩ := writes_recordField hlasting (h.of_links hlinks) hr hnone₁
    (fun _ _ _ => trivial) hrecord
  exact (Onward.of_links hlinks).trans hwrites.toOnward

/-- A shared field. -/
theorem orderly_sharedField (h : Orderly s A b) (hr : r.Told s .default)
    (hrun : (sharedField r).Gives b n b') : Orderly s A b' ∧ SameRules b b' := by
  obtain ⟨hwrites, -⟩ := writes_sharedField lasting_tells r b b' n h.placed.sound hr hrun
  obtain ⟨hlearns, hspace⟩ := learns_sharedField r b b' n h.placed.sound hr hrun
  exact ⟨h.of_learns (h.placed.of_writes hwrites) hwrites.toOnward hlearns hspace,
    .of_eq hlearns.blockOf⟩

/-! ## Members of blocks -/

theorem gives_partitionBlockMember (hrun : (partitionBlockMember r).Gives b n b') :
    ∃ operator part T xs key b₁ b₂, r.template.partitionStatistic = some operator ∧
      r.usedPart? = some part ∧ (tableBlock part).Gives b T b₁ ∧
      (statisticOperands r (r.operands.drop 1)).Gives b₁ xs b₂ ∧
      (blockMember r ⟨operator, .field T :: xs⟩ key).Gives b₂ n b' := by
  unfold partitionBlockMember at hrun
  split at hrun
  · rw [gives_lift] at hrun
    cases hrun.1
  · rw [gives_lift] at hrun
    cases hrun.1
  · rename_i operator part hstatistic hused
    obtain ⟨T, b₁, htable, hrun⟩ := gives_bind.mp hrun
    obtain ⟨xs, b₂, hoperands, hrun⟩ := gives_bind.mp hrun
    simp only [gives_get_bind, gives_lift_bind] at hrun
    obtain ⟨key, -, hblock⟩ := hrun
    exact ⟨operator, part, T, xs, key, b₁, b₂, hstatistic, hused, htable, hoperands, hblock⟩

theorem gives_valueBlockMember {operator u : String}
    (hrun : (valueBlockMember r operator u).Gives b (some n) b') :
    ∃ y U key b₁, (tableOperand r).Gives b y b₁ ∧
      (blockMember r ⟨operator, [y, .field U]⟩ key).Gives b₁ n b' := by
  unfold valueBlockMember at hrun
  rw [gives_lift_bind] at hrun
  obtain ⟨C, -, hrun⟩ := hrun
  rw [gives_entity_bind] at hrun
  obtain ⟨e, -, hrun⟩ := hrun
  split at hrun
  · obtain ⟨y, b₁, htable, hrun⟩ := gives_bind.mp hrun
    obtain ⟨m, b₂, hblock, hpure⟩ := gives_bind.mp hrun
    obtain ⟨heq, rfl⟩ := gives_pure.mp hpure
    obtain rfl := Option.some.inj heq
    exact ⟨y, _, _, b₁, htable, hblock⟩
  · cases (gives_pure.mp hrun).1

/-- A field of its own for a rule, after the operands. -/
theorem orderly_plainField (hr : r.Told s .default) (hnone : ∀ n, ¬ b.HasName r n)
    (hwrites : Writes s .default Tells r.costs.length b b₁)
    (hoperands : ∀ xs b₂, (sparseOperands r.operands).Gives b₁ xs b₂ →
      Writes s .default Tells r.costs.length b₁ b₂ ∧ Orderly s A b₂ ∧ SameRules b₁ b₂)
    (hrun : (do
      let xs ← sparseOperands r.operands
      formulaField r (r.template.formula xs)).Gives b₁ n b') :
    Orderly s A b' ∧ SameRules b₁ b' := by
  obtain ⟨xs, b₂, hxs, hrun⟩ := gives_bind.mp hrun
  obtain ⟨hwrites₂, h₂, hrules⟩ := hoperands xs b₂ hxs
  have hnone₂ := (hwrites.trans lasting_tells hwrites₂).nameless hnone
  obtain ⟨hlast, -⟩ :=
    writes_formulaField lasting_tells h₂.placed.sound hr hnone₂ hrun
  obtain ⟨hlearns, hspace⟩ := learns_formulaField h₂.placed.sound hr hnone₂ hrun
  exact ⟨h₂.of_learns (h₂.placed.of_writes hlast) hlast.toOnward hlearns hspace,
    hrules.trans (.of_eq hlearns.blockOf)⟩

section Members

variable (hA : Rule.FitAll s A)
include hA

/-- A statistic of a selection: its table is linked and used from then on. -/
theorem orderly_partitionBlockMember (h : Orderly s A b) (hr : A r)
    (hsort : r.classify = .partitionBlock) (hnone : ∀ n, ¬ b.HasName r n)
    (hcollected : b.blockOf.contains b.space.compareBlock r = true)
    (hrun : (partitionBlockMember r).Gives b n b') : Orderly s A b' ∧ SameRules b b' := by
  obtain ⟨hall, hname⟩ := writes_partitionBlockMember h.placed.sound (hA.fit r hr) hsort hnone hrun
  have hplaced := h.placed.of_writes hall
  obtain ⟨operator, part, T, xs, key, b₁, b₂, hstatistic, hused, htable, hoperands, hblock⟩ :=
    gives_partitionBlockMember hrun
  obtain ⟨hlinks, p, -, -, -, hp, hT, -⟩ := links_tableBlock h.placed.sound.linked htable
  obtain ⟨hlearns, hothers⟩ := learns_tableBlock h.placed.sound.linked htable
  have h₁ := h.placed.sound.of_links hlinks
  have howner := h₁.owner (hA.fit r hr) hsort hused hp
  -- the other operands are shared
  have hfewer : ∀ inner, .rule inner ∈ r.operands.drop 1 →
      inner.Told s .default ∧ inner.costs.length < r.costs.length := fun inner hinner =>
    ⟨Rule.hereditary_told s .default r inner (hA.fit r hr).told (List.mem_of_mem_drop hinner),
      Rule.length_costs_lt (List.mem_of_mem_drop hinner)⟩
  obtain ⟨hwrites, -⟩ :=
    writes_statisticOperands (r := r) lasting_tells _ _ b₁ b₂ xs h₁ hfewer hoperands
  obtain ⟨hlearns₂, hspace₂⟩ := learns_statisticOperands _ _ b₁ b₂ xs h₁ hfewer hoperands
  have hfiled : Filed s A b₂ :=
    (h.filed.of_learns (.of_links hlinks) hlearns).of_learns hwrites.toOnward hlearns₂
  have hrules : SameRules b b₂ := .trans (.of_eq hlearns.blockOf) (.of_eq hlearns₂.blockOf)
  have hnone₂ : ∀ n, ¬ b₂.HasName r n :=
    ((Writes.of_links h.placed.sound hlinks).trans lasting_tells hwrites).nameless hnone
  -- the member
  have honward := onward_blockMember hwrites.sound (hA.fit r hr).told hnone₂ hblock
  have hmember := memberFor_blockMember hwrites.sound.linked hblock
  have hspace : b'.space = b₁.space := hmember.space_eq.trans hspace₂
  rw [← hspace] at hp
  have hmate : ∀ x B, (x, some B) ∈ b'.blockOf.entries → Rule.Mates x r →
      b'.UsesTable r.className T := by
    intro x B hx hmates
    obtain ⟨q, part', hq, hpart', hcut⟩ := hmates.usedPart?
    obtain rfl := Option.some.inj (hused.symm.trans hpart')
    refine ⟨p, ⟨x, B, part.partition, hx, ?_, hp⟩, howner, hT⟩
    rw [blockPartition?, if_pos (hmates.classify_eq.trans hsort), hq, Option.map_some, hcut]
  obtain ⟨hfiled', hrules'⟩ := hfiled.of_memberFor hA hwrites.sound.cuts hplaced honward hr
    (Rule.isBlockRule_of_classify (.inl hsort)) hname
    (by rw [hrules.contains (hlinks.settles.sameCuts.trans hwrites.settles.sameCuts), hcollected])
    (fun x B hx hmates op T' xs' heq _ => by cases heq; exact hmate x B hx hmates) hmember
  obtain ⟨D, hD⟩ := hplaced.sound.linked.exists_knowsBlock (hmember.knowsMember honward.grew)
  have hin : b'.UsesTable p.parentClass T := howner ▸ hfiled'.statistic _ _ _ _ D hD
    ⟨r.template, Rule.template_mem_of_over (hA.fit r hr).told.named, hstatistic⟩
  have hnamed : ∀ x B, (x, some B) ∈ b.blockOf.entries → ∃ B', (x, some B') ∈ b'.blockOf.entries :=
    fun x B hx => hmember.keeps_named x B (hlearns₂.blockOf.symm ▸ hlearns.blockOf.symm ▸ hx)
  refine ⟨⟨hplaced, hfiled', h.used.of_linked hall.settles hnamed (fun k hk => ?_) hp hT hin⟩,
    hrules.trans hrules'⟩
  rw [hspace, hothers k hk]

/-- A statistic of a member, if there is one upstream. -/
theorem orderly_valueBlockMember (h : Orderly s A b) (hr : A r) (hsort : r.classify = .valueBlock)
    (hnone : ∀ n, ¬ b.HasName r n)
    (hcollected : b.blockOf.contains b.space.compareBlock r = true) {operator u : String}
    (hstatistic : r.template.valueStatistic = some operator) {inner : Rule}
    (hinner : r.ruleOperand? 1 = some inner) (hu : b.HasName inner u) {known : Option String}
    (hrun : (valueBlockMember r operator u).Gives b known b') :
    (known = none ∧ b' = b) ∨ (∃ n, known = some n) ∧ Orderly s A b' ∧ SameRules b b' := by
  rcases writes_valueBlockMember h.placed.sound h.placed.said (hA.fit r hr) hsort hnone hstatistic
    hinner hu hrun with hskipped | ⟨n, rfl, hall, hname⟩
  · exact .inl hskipped
  refine .inr ⟨⟨n, rfl⟩, ?_⟩
  have hplaced := h.placed.of_writes hall
  obtain ⟨y, U, key, b₁, htable, hblock⟩ := gives_valueBlockMember hrun
  obtain ⟨hwrites, -⟩ := writes_tableOperand lasting_tells h.placed.sound (hA.fit r hr).told htable
  obtain ⟨hlearns, hspace⟩ := learns_tableOperand h.placed.sound (hA.fit r hr).told htable
  have h₁ := h.of_learns (h.placed.of_writes hwrites) hwrites.toOnward hlearns hspace
  have hrules : SameRules b b₁ := .of_eq hlearns.blockOf
  have honward :=
    onward_blockMember hwrites.sound (hA.fit r hr).told (hwrites.nameless hnone) hblock
  have hmember := memberFor_blockMember hwrites.sound.linked hblock
  obtain ⟨hfiled, hrules'⟩ := h₁.filed.of_memberFor hA hwrites.sound.cuts hplaced honward hr
    (Rule.isBlockRule_of_classify (.inr hsort)) hname
    (by rw [hrules.contains hwrites.settles.sameCuts, hcollected])
    (fun _ _ _ _ op _ _ heq hop => by
      cases heq
      exact absurd hop (Catalogue.not_isStatistic_value
        (Rule.template_mem_of_over (hA.fit r hr).told.named) hstatistic)) hmember
  exact ⟨⟨hplaced, hfiled, h₁.used.mono hmember.space_eq hmember.keeps_named⟩,
    hrules.trans hrules'⟩

/-! ## Rules -/

mutual

/-- The field of a rule where blocks are built. -/
theorem orderly_sparseField : ∀ (r : Rule) (b b' : BuildState) (n : String), Orderly s A b → A r →
    (sparseField r).Gives b n b' → Orderly s A b' ∧ SameRules b b'
  | ⟨template, className, operands, cost, tieBreak⟩, b, b', n, h, hr, hrun => by
      have hinner : ∀ inner, .rule inner ∈ operands → A inner ∧
          inner.costs.length < (Rule.costs ⟨template, className, operands, cost, tieBreak⟩).length :=
        fun inner hinner =>
          ⟨hA.hereditary ⟨template, className, operands, cost, tieBreak⟩ inner hr hinner,
            Rule.length_costs_lt (r := ⟨template, className, operands, cost, tieBreak⟩) hinner⟩
      have hoperands : ∀ b₁, Orderly s A b₁ → ∀ xs b₂, (sparseOperands operands).Gives b₁ xs b₂ →
          Writes s .default Tells
            (Rule.costs ⟨template, className, operands, cost, tieBreak⟩).length b₁ b₂ ∧
          Orderly s A b₂ ∧ SameRules b₁ b₂ := fun b₁ h₁ xs b₂ hxs =>
        ⟨writes_sparseOperands operands _ b₁ b₂ xs h₁.placed.sound h₁.placed.said
          (fun inner hmem => ⟨hA.fit inner (hinner inner hmem).1, (hinner inner hmem).2⟩) hxs,
          orderly_sparseOperands operands b₁ b₂ xs h₁ (fun inner hmem => (hinner inner hmem).1) hxs⟩
      rw [sparseField, gives_get_bind] at hrun
      split at hrun
      · obtain ⟨-, rfl⟩ := gives_pure.mp hrun
        exact ⟨h, rfl⟩
      · rename_i hunknown
        have hnone : ∀ n, ¬ b.HasName ⟨template, className, operands, cost, tieBreak⟩ n := by
          intro m hm
          cases hunknown.symm.trans (h.placed.sound.fieldOf?_of_hasName (hA.fit _ hr).told hm)
        dsimp only at hrun
        split at hrun
        · rename_i hcollected hsort
          exact orderly_partitionBlockMember hA h hr hsort hnone hcollected hrun
        · rename_i hcollected hsort
          split at hrun
          · rename_i operator x inner rest hstatistic
            obtain ⟨u, b₁, hfield, hrun⟩ := gives_bind.mp hrun
            obtain ⟨hAinner, hlt⟩ := hinner inner (List.mem_cons_of_mem _ List.mem_cons_self)
            obtain ⟨hwrites, hu⟩ := writes_sparseField inner b b₁ u h.placed.sound h.placed.said
              (hA.fit inner hAinner) hfield
            have hbefore := hwrites.mono hlt
            obtain ⟨h₁, hrules⟩ := orderly_sparseField inner b b₁ u h hAinner hfield
            obtain ⟨known, b₂, hblock, hrest⟩ := gives_bind.mp hrun
            rw [← hrules.contains hwrites.settles.sameCuts] at hcollected
            rcases orderly_valueBlockMember hA h₁ hr hsort (hbefore.nameless hnone) hcollected
              hstatistic rfl hu hblock with ⟨rfl, rfl⟩ | ⟨⟨m, rfl⟩, h₂, hrules₂⟩
            · obtain ⟨h₂, hrules₂⟩ :=
                orderly_plainField (hA.fit _ hr).told hnone hbefore (hoperands _ h₁) hrest
              exact ⟨h₂, hrules.trans hrules₂⟩
            · obtain ⟨-, rfl⟩ := gives_pure.mp hrest
              exact ⟨h₂, hrules.trans hrules₂⟩
          · rw [gives_lift] at hrun
            cases hrun.1
          · rw [gives_lift] at hrun
            cases hrun.1
        · exact orderly_plainField (hA.fit _ hr).told hnone (.refl h.placed.sound) (hoperands b h)
            hrun

theorem orderly_sparseOperands : ∀ (operands : List (RuleOperand Rule)) (b b' : BuildState)
    (xs : List Operand), Orderly s A b → (∀ inner, .rule inner ∈ operands → A inner) →
    (sparseOperands operands).Gives b xs b' → Orderly s A b' ∧ SameRules b b'
  | [], b, b', xs, h, _, hrun => by
      rw [sparseOperands, gives_pure] at hrun
      obtain ⟨-, rfl⟩ := hrun
      exact ⟨h, rfl⟩
  | .field name type :: rest, b, b', xs, h, hrest, hrun => by
      rw [sparseOperands, gives_bind] at hrun
      obtain ⟨ys, b₁, hrun, hpure⟩ := hrun
      obtain ⟨-, rfl⟩ := gives_pure.mp hpure
      exact orderly_sparseOperands rest b _ ys h
        (fun inner hinner => hrest inner (List.mem_cons_of_mem _ hinner)) hrun
  | .rule inner :: rest, b, b', xs, h, hrest, hrun => by
      rw [sparseOperands] at hrun
      have hr := hrest inner List.mem_cons_self
      obtain ⟨name, b₁, ⟨h₁, hrules⟩, hrun⟩ : ∃ name b₁, (Orderly s A b₁ ∧ SameRules b b₁) ∧
          (do return Operand.field name :: (← sparseOperands rest)).Gives b₁ xs b' := by
        dsimp only at hrun
        split at hrun
        · obtain ⟨name, b₁, hfield, hrun⟩ := gives_bind.mp hrun
          exact ⟨name, b₁, orderly_sharedField h (hA.fit inner hr).told hfield, hrun⟩
        · obtain ⟨name, b₁, hfield, hrun⟩ := gives_bind.mp hrun
          exact ⟨name, b₁, orderly_sparseField inner b b₁ name h hr hfield, hrun⟩
      obtain ⟨ys, b₂, hrun, hpure⟩ := gives_bind.mp hrun
      obtain ⟨-, rfl⟩ := gives_pure.mp hpure
      obtain ⟨h₂, hrules₂⟩ := orderly_sparseOperands rest b₁ _ ys h₁
        (fun x hx => hrest x (List.mem_cons_of_mem _ hx)) hrun
      exact ⟨h₂, hrules.trans hrules₂⟩
  | .part part :: rest, b, b', xs, h, hrest, hrun => by
      simp only [sparseOperands, gives_get_bind, gives_lift_bind] at hrun
      obtain ⟨f, -, hrun⟩ := hrun
      obtain ⟨ys, b₁, hrun, hpure⟩ := gives_bind.mp hrun
      obtain ⟨-, rfl⟩ := gives_pure.mp hpure
      exact orderly_sparseOperands rest b _ ys h
        (fun inner hinner => hrest inner (List.mem_cons_of_mem _ hinner)) hrun

end

/-! ## Turns -/

/-- After every turn of a build with blocks. -/
theorem Turns.orderly {o : Options} {turns : List (Rule × String)} {new : NewFields}
    (hmode : Mode.ofOptions o = .sparse) (h : Turns o b₁ turns new b) (hb : Orderly s A b₁)
    (hturns : ∀ turn ∈ turns, A turn.1) : Orderly s A b := by
  induction h with
  | start => exact hb
  | @turn turns new new' b b₂ b' r n before check room one ih =>
    have h₁ := ih fun turn hturn => hturns turn (List.mem_append_left _ hturn)
    have hr : A r := hturns (r, n) (List.mem_append_right _ (List.mem_singleton_self _))
    obtain ⟨-, rfl⟩ := gives_checkInterrupt.mp check
    have h₂ : Orderly s A { b with interrupt := b.interrupt.look.2 } :=
      h₁.of_stays (.of_eq rfl rfl rfl) ⟨rfl, rfl, rfl⟩
    have hfield : ∀ {b₃},
        (candidateField o r).Gives { b with interrupt := b.interrupt.look.2 } n b₃ →
          Orderly s A b₃ := by
      intro b₃ hrun
      simp only [candidateField, hmode, gives_get_bind] at hrun
      split at hrun
      · exact (orderly_sparseField hA r _ _ n h₂ hr hrun).1
      · exact (orderly_sharedField h₂ (hA.fit r hr).told hrun).1
    cases one with
    | counted field => exact hfield field
    | repeated field => exact hfield field
    | marked field mark =>
      exact (hfield field).of_stays ((stays_markCandidate _ _ _).respects mark)
        (sameLedgers_edit _ _ mark)

end Members

/-! ## Before the candidates -/

section Ready

variable {o : Options} {u : Unit} {rules : List Rule}

theorem early_collectFields (h : Early b) (hrun : (collectFields r).Gives b u b') : Early b' := by
  rw [collectFields, gives_modify] at hrun
  subst hrun
  refine ⟨fun C φ n hn => ?_, h.blocks, h.templates⟩
  obtain ⟨x, hx, hclass⟩ := h.field C φ n hn
  exact ⟨x, (Ledger.mem_foldl_enter _ _).mpr hx, hclass⟩

theorem early_collectBlocks (h : Early b) (hrules : ∀ x ∈ b.space.blockRules r, x.Over .default)
    (hrun : (collectBlocks r).Gives b u b') : Early b' := by
  rw [collectBlocks, gives_modify] at hrun
  subst hrun
  refine ⟨h.field, h.blocks, fun entry hentry => ⟨?_, ?_⟩⟩
  · rcases Ledger.rule_of_mem_foldl_enter _ _ hentry with hold | hnew
    · exact (h.templates entry hold).1
    · exact hrules _ hnew
  · obtain ⟨x, name⟩ := entry
    cases name with
    | none => rfl
    | some B => exact (h.templates _ ((Ledger.mem_foldl_enter _ _).mp hentry)).2

theorem early_dimensionField (hdims : s.Over .default) (ho : o.shareRules = true)
    (hready : Ready s .default b) (h : Early b) {d : Dimension} (hd : d ∈ b.space.dimensions)
    (hrun : (dimensionField o d).Gives b n b') : Early b' := by
  unfold dimensionField at hrun
  split at hrun
  · obtain ⟨-, rfl⟩ := gives_pure.mp hrun
    exact h
  · rename_i r hr
    rw [if_pos ho] at hrun
    obtain ⟨_, b₁, hcollect, hfield⟩ := gives_bind.mp hrun
    have htold := hready.sound.told_of_dimension hdims hd hr
    obtain ⟨h₁, -⟩ := ready_collectFields hdims hready htold hcollect
    obtain ⟨hwrites, -⟩ := writes_sharedField lasting_tells r b₁ b' n h₁.sound htold hfield
    obtain ⟨hlearns, hspace⟩ := learns_sharedField r b₁ b' n h₁.sound htold hfield
    exact (early_collectFields h hcollect).of_learns hwrites.toOnward hlearns
      (hspace ▸ h₁.unlinked)

theorem early_bindDimension (hdims : s.Over .default) (ho : o.shareRules = true) {k : Nat}
    (hready : Ready s .default b) (h : Early b) (hrun : (bindDimension o k).Gives b u b') :
    Early b' := by
  obtain ⟨_, b₁, hcheck, hrun⟩ := gives_bind.mp hrun
  obtain ⟨-, rfl⟩ := gives_checkInterrupt.mp hcheck
  have hready₁ : Ready s .default { b with interrupt := b.interrupt.look.2 } :=
    hready.of_stays (.of_eq rfl rfl rfl) rfl rfl
  have h₁ : Early { b with interrupt := b.interrupt.look.2 } := h.of_eq rfl rfl rfl rfl
  rw [gives_get_bind] at hrun
  split at hrun
  · obtain ⟨-, rfl⟩ := gives_pure.mp hrun
    exact h₁
  · rename_i d hd
    obtain ⟨name, b₂, hfield, hbind⟩ := gives_bind.mp hrun
    rw [gives_modify] at hbind
    subst hbind
    exact (early_dimensionField hdims ho hready₁ h₁ (List.mem_of_getElem? hd) hfield).of_eq
      rfl rfl rfl rfl

/-- What is known when the candidates have their turns is named. -/
theorem early_prepare (hdims : s.Over .default) (ho : o.shareRules = true)
    (hrules : ∀ r ∈ rules, r.Told s .default) (hready : Ready s .default b) (h : Early b)
    (hrun : (prepare o .sparse rules).Gives b u b') : Early b' := by
  simp only [prepare, gives_modify_bind] at hrun
  have hreset := Space.resetUses_countUses b.space rules
  have hready₁ := hready.of_space (Space.sameCuts_of_reset hreset)
    (Space.unlinked_of_reset hreset hready.unlinked)
  have h₁ : Early { b with space := b.space.countUses rules } := h.of_eq rfl rfl rfl rfl
  obtain ⟨_, b₂, hbind, hcollect⟩ := gives_bind.mp hrun
  have hready₂ := ready_bindDimensions hdims ho hready₁ hbind
  simp only [bindDimensions, gives_get_bind] at hbind
  obtain ⟨_, b₁, hall, harrange⟩ := gives_bind.mp hbind
  obtain ⟨hready', h'⟩ := gives_forM_induct (fun b => Ready s .default b ∧ Early b)
    (fun _ _ _ _ hb hone => ⟨ready_bindDimension hdims ho hb.1 hone,
      early_bindDimension hdims ho hb.1 hb.2 hone⟩) ⟨hready₁, h₁⟩ hall
  rw [gives_get_bind] at harrange
  have h₂ : Early b₂ := h'.of_stays hready'.sound.linked ((stays_arrangeFields _).respects harrange)
    (sameLedgers_arrangeFields _ harrange)
  refine (gives_forM_induct (fun b => Ready s .default b ∧ Early b)
    (fun r hr b b' hb hone => ?_) ⟨hready₂, h₂⟩ hcollect).2
  obtain ⟨_, b₃, hfields, hblocks⟩ := gives_bind.mp hone
  obtain ⟨hready₃, hspace₃⟩ := ready_collectFields hdims hb.1 (hrules r hr) hfields
  have h₃ := early_collectFields hb.2 hfields
  rw [if_pos (by decide)] at hblocks
  have hover : ∀ x ∈ b₃.space.blockRules r, x.Over .default := fun x hx =>
    Space.of_mem_subrules (fun _ _ => Rule.over_operand)
      (fun d hd y hy => (hready₃.sound.told_of_dimension hdims hd hy).named) (hrules r hr).named x
      (Space.blockRules_subset _ r hx)
  refine ⟨?_, early_collectBlocks h₃ hover hblocks⟩
  rw [collectBlocks, gives_modify] at hblocks
  subst hblocks
  exact hready₃.of_stays (.of_eq rfl rfl rfl) rfl rfl

/-- Where nothing was derived before, all is in order when the candidates have their turns. -/
theorem orderly_ready {schema : Schema} {interrupt : Interrupt} (hmode : Mode.ofOptions o = .sparse)
    (hschema : schema.compile = .ok ()) (hstored : schema.Stored) (hspace : s.WellFounded)
    (hshaped : s.WellShaped) (hdims : s.Over .default) (hrules : ∀ r ∈ rules, r.Fit s .default)
    (hrun : (ready o rules).Gives (start .default o schema s interrupt) u b) :
    Orderly s (Rule.Within rules) b := by
  have ho := shareRules_of_mode (o := o) (by rw [hmode]; decide)
  simp only [ready, hmode] at hrun
  have hstart : Ready s .default (start .default o schema s interrupt) :=
    ready_start .default o interrupt hschema hstored.sharp hspace hshaped
  have htold := fun r hr => (hrules r hr).told
  exact (early_prepare hdims ho htold hstart (early_start hstored) hrun).orderly
    (ready_prepare hdims ho htold hstart hrun)

end Ready

end Build

end FeatureSynth
