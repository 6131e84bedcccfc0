/-
# A run that follows another, in blocks

Where blocks are built a run finds more than fields: the descriptor of a partition, the
block of parts of its table, members under the keys of parts, and the block a member
upstream is in.  All of it depends on the space the two runs work on, and these are
twins: what a link of the space was set to in the first run it is set to in the second.

A new member adds no formula of a field, so what the first run knows by formulas stays
what fields are held for.
-/
import FeatureSynth.Proofs.Build.Follow

namespace FeatureSynth

namespace Build

open BuildState

/-! ## Steps that only add members -/

/-- The space stays, the ledger of blocks holds the same rules, and no formula of a field is known
that was not known before. -/
structure OnlyMembers (b b' : BuildState) : Prop where
  space : b'.space = b.space
  blocks : b'.blockOf.entries.map (·.1) = b.blockOf.entries.map (·.1)
  known : ∀ C φ n, b'.Knows C φ n → b.Knows C φ n

theorem closed_onlyMembers : Closed (fun m => Respects OnlyMembers m) :=
  Chained.respects
    { refl := fun _ => ⟨rfl, rfl, fun _ _ _ => id⟩
      trans := fun h h' => ⟨h'.space.trans h.space, h'.blocks.trans h.blocks,
        fun C φ n hn => h.known C φ n (h'.known C φ n hn)⟩ }

theorem onlyMembers_of_eq {b b' : BuildState} (hspace : b'.space = b.space)
    (hblocks : b'.blockOf.entries.map (·.1) = b.blockOf.entries.map (·.1))
    (hschema : b'.schema = b.schema) (hregistry : b'.registry = b.registry) : OnlyMembers b b' where
  space := hspace
  blocks := hblocks
  known := by
    intro C φ n hn
    unfold Knows at hn ⊢
    rwa [hschema, hregistry] at hn

theorem onlyMembers_edit {C : String} {change : Entity → Except BuildError Entity}
    (hchange : ∀ e e', change e = .ok e' → e'.name = e.name) :
    Respects OnlyMembers (edit C change) := by
  intro b u b' h
  obtain ⟨e, e', he, hok, rfl⟩ := gives_edit.mp h
  refine ⟨rfl, rfl, ?_⟩
  rintro D φ n ⟨x, c, hx, hc, hn⟩
  by_cases hD : C = D
  · subst hD
    exact ⟨e, c, he, hc, hn⟩
  · refine ⟨x, c, ?_, hc, hn⟩
    have hname := (hchange e e' hok).trans (Schema.name_of_entity? he)
    exact (Schema.entity?_setEntity_ne hname hD).symm.trans hx

theorem onlyMembers_register {C : String} {more : ClassRecord → Except BuildError ClassRecord}
    (hmore : ∀ c c', more c = .ok c' →
      c'.className = c.className ∧ ∀ φ, c'.field? φ = c.field? φ) :
    Respects OnlyMembers (register C more) := by
  intro b u b' h
  obtain ⟨c, c', hc, hok, rfl⟩ := gives_register.mp h
  obtain ⟨hname, hfields⟩ := hmore c c' hok
  refine ⟨rfl, rfl, ?_⟩
  rintro D φ n ⟨e, x, he, hx, hn⟩
  by_cases hD : C = D
  · subst hD
    obtain rfl : c' = x := Option.some.inj ((Registry.class?_set hc hname).symm.trans hx)
    exact ⟨e, c, he, hc, (hfields φ).symm.trans hn⟩
  · refine ⟨e, x, he, ?_, hn⟩
    exact (Registry.class?_set_ne (hname.trans (Registry.className_of_class? hc)) hD).symm.trans hx

theorem onlyMembers_freeName (C : String) (make : Naming) :
    Respects OnlyMembers (freeName C make) := by
  intro b name b' h
  obtain ⟨_, _, _, -, -, -, rfl⟩ := gives_freeName.mp h
  exact onlyMembers_of_eq rfl rfl rfl rfl

theorem onlyMembers_insertMember (C : String) (block : Option String) (φ : Formula) (f : Field)
    (make : Naming) : Respects OnlyMembers (insertMember C block φ f make) := by
  have hnote : Respects OnlyMembers (noteField C f.name) := by
    intro b u b' h
    rw [noteField, gives_modify] at h
    subst h
    split <;> exact onlyMembers_of_eq rfl rfl rfl rfl
  have hmember : ∀ B, Respects OnlyMembers
      (register C (·.registerMember φ { f with block := some B })) := by
    refine fun B => onlyMembers_register fun c c' hok => ?_
    obtain ⟨k, -, -, hname, hfields, -⟩ := ClassRecord.registerMember_eq_ok hok
    refine ⟨hname, fun ψ => ?_⟩
    have hne : ((ψ, (none : Option Nat)) == (φ, some k)) = false := by simp
    rw [ClassRecord.field?, hfields, List.lookup_append, List.lookup_cons, hne, List.lookup_nil,
      Option.or_none, ClassRecord.field?]
  have hlast : ∀ B, Respects OnlyMembers (do
      register C (·.registerMember φ { f with block := some B })
      noteField C f.name
      return B) := fun B =>
    closed_onlyMembers.bind (hmember B) fun _ => closed_onlyMembers.bind hnote fun _ =>
      closed_onlyMembers.pure B
  cases block with
  | some B =>
    exact closed_onlyMembers.bind
      (onlyMembers_edit fun e e' hok => (Entity.insertMember_eq_ok hok).1) fun _ =>
      closed_onlyMembers.bind (closed_onlyMembers.pure B) hlast
  | none =>
    refine closed_onlyMembers.bind (onlyMembers_freeName C make) fun B =>
      closed_onlyMembers.bind (onlyMembers_register fun c c' hok => ?_) fun _ =>
      closed_onlyMembers.bind (onlyMembers_edit fun e e' hok => ?_) fun _ =>
      closed_onlyMembers.bind (always_modify fun _ => ?_).respects fun _ =>
      closed_onlyMembers.bind (closed_onlyMembers.pure B) hlast
    · obtain ⟨-, hname, hfields, -⟩ := ClassRecord.registerBlock_eq_ok hok
      exact ⟨hname, fun ψ => by rw [ClassRecord.field?, hfields, ClassRecord.field?]⟩
    · cases hok
      rfl
    · exact onlyMembers_of_eq rfl rfl rfl rfl

theorem onlyMembers_blockMember (r : Rule) (φ : Formula) (key : Nat) :
    Respects OnlyMembers (blockMember r φ key) := by
  have hmodify : ∀ f : BuildState → BuildState, (∀ b, OnlyMembers b (f b)) →
      Respects OnlyMembers (modify f : Build Unit) := fun f h => (always_modify h).respects
  have hlast : ∀ n, Respects OnlyMembers (do
      recordField r n
      return n) := fun n =>
    closed_onlyMembers.bind (hmodify _ fun _ => onlyMembers_of_eq rfl rfl rfl rfl) fun _ =>
      closed_onlyMembers.pure n
  refine closed_onlyMembers.bind (closed_onlyMembers.record _) fun c => ?_
  cases c.member? φ key with
  | some name =>
    exact closed_onlyMembers.bind (closed_onlyMembers.bind
      (hmodify _ fun _ => onlyMembers_of_eq rfl rfl rfl rfl) fun _ => closed_onlyMembers.pure name)
      hlast
  | none =>
    refine closed_onlyMembers.bind (onlyMembers_freeName _ _) fun name =>
      closed_onlyMembers.bind (closed_onlyMembers.lift _) fun type =>
      closed_onlyMembers.bind (onlyMembers_insertMember _ _ _ _ _) fun B =>
      closed_onlyMembers.bind (hmodify _ fun b => ?_) fun _ =>
      closed_onlyMembers.bind (closed_onlyMembers.pure name) hlast
    exact onlyMembers_of_eq rfl (Ledger.rules_update _ _ _ _) rfl rfl

variable {s : Space} {last b b' c : BuildState} {r : Rule} {n : String}

theorem follows_of_onlyMembers (h : Follows last b c) (honly : OnlyMembers b b')
    (hfieldOf : b'.fieldOf = b.fieldOf) : Follows last b' c where
  space := by rw [honly.space]; exact h.space
  registry := h.registry
  schema := h.schema
  fieldOf := h.fieldOf.trans hfieldOf.symm
  blockOf := by
    have hrules := congrArg (List.map fun x : Rule => (x, (none : Option String))) honly.blocks
    simp only [List.map_map] at hrules
    exact h.blockOf.trans hrules.symm
  fields := h.fields
  blocks := h.blocks
  interrupt := h.interrupt

/-! ## Members -/

/-- The member of a rule is found again. -/
theorem again_blockMember (hs : s.WellFounded) (hmade : last.Made) (h : Typed s last b)
    (hr : r.Grounded s last.schema) (hstatistic : r.template.partitionStatistic.isSome = true)
    {φ : Formula} {key : Nat} (husable : last.schema.Usable r.className φ.name)
    (hlast : Grew b' last) (hrun : (blockMember r φ key).Gives b n b') :
    Again s last (blockMember r φ key) b n b' ∧ last.Held b' r n := by
  have honly := onlyMembers_blockMember r φ key hrun
  obtain ⟨b₁, hlinks, hmember, hrecord⟩ := links_blockMember h.linked hrun
  -- the note of the rule in the ledger is all that comes after the member is known
  obtain rfl := gives_modify.mp hrecord
  have honly₁ : OnlyMembers b b₁ := ⟨honly.space, honly.blocks, honly.known⟩
  have htyped : Typed s last b₁ :=
    h.of_links hlinks fun C ψ m hm => h.known C ψ m (honly₁.known C ψ m hm)
  have hheld : last.Held b₁ r n := by
    refine ⟨?_, Rule.yields_of_statistic hr.named hstatistic _⟩
    obtain ⟨e, c, he, hc, hn⟩ := hmember
    obtain ⟨-, f, hf, -, hname, -⟩ := (hlinks.linked.indexes _ e c he hc).member φ key n hn
    exact ⟨e, c, he, hc, f, hf, hname⟩
  obtain ⟨hagain, hheld'⟩ := again_recordField hs htyped hheld hrecord
  refine ⟨⟨hagain.typed, fun c hc => ?_⟩, hheld'⟩
  have hlast₁ : Grew b₁ last := (closed_recordField parts_grew r n hrecord).trans hlast
  obtain ⟨known, hknown, hfound⟩ :=
    hmade.found.member _ φ key n (hlast₁.knowsMember hmember) husable
  obtain ⟨c', hgives, hc'⟩ :=
    hagain.again { c with reused := c.reused + 1 } (follows_of_onlyMembers
      ⟨hc.space, hc.registry, hc.schema, hc.fieldOf, hc.blockOf, hc.fields, hc.blocks,
        hc.interrupt⟩ honly₁ hlinks.fieldOf)
  refine ⟨c', ?_, hc'⟩
  rw [blockMember, gives_record_bind]
  refine ⟨known, hc.registry ▸ hknown, ?_⟩
  rw [hfound]
  exact gives_bind.mpr ⟨n, _, gives_reuse.mpr ⟨rfl, rfl⟩,
    gives_bind.mpr ⟨(), c', hgives, gives_pure.mpr ⟨rfl, rfl⟩⟩⟩

/-! ## Partitions -/

/-- The space of the first run is changed, and that of the second in the same way. -/
theorem follows_of_space (h : Follows last b c) {space space' : Space}
    (hspace : space.Twin space') : Follows last { b with space } { c with space := space' } :=
  ⟨hspace, h.registry, h.schema, h.fieldOf, h.blockOf, h.fields, h.blocks, h.interrupt⟩

/-- The descriptor of a partition of a class with tables is found again. -/
theorem again_descriptorField (hmade : last.Made) (h : Typed s last b) {rank : Nat} {P : String}
    (htable : ∀ p, s.partitions[rank]? = some p →
      last.schema.Provides p.parentClass .objectArray)
    (hlast : Grew b' last) (hrun : (descriptorField rank).Gives b P b') :
    Again s last (descriptorField rank) b P b' := by
  obtain ⟨hlinks, -⟩ := links_descriptorField h.linked hrun
  unfold descriptorField at hrun
  rw [gives_partition_bind] at hrun
  obtain ⟨p, hp, hrun⟩ := hrun
  cases hP : p.descriptorField with
  | some name =>
    rw [hP] at hrun
    obtain ⟨rfl, rfl⟩ := gives_pure.mp hrun
    refine ⟨h, fun c hc => ⟨c, ?_, hc⟩⟩
    obtain ⟨q, hq, -, hdescriptor, -⟩ := hc.space.partition hp
    rw [descriptorField, gives_partition_bind]
    refine ⟨q, hq, ?_⟩
    rw [hdescriptor, hP]
    exact gives_pure.mpr ⟨rfl, rfl⟩
  | none =>
    simp only [hP, gives_get_bind, gives_lift_bind, gives_modify_bind] at hrun
    obtain ⟨⟨φ, space⟩, hdescribe, hrun⟩ := hrun
    obtain ⟨name, b₂, hfield, hrun⟩ := gives_bind.mp hrun
    rw [modifyPartition, gives_modify_bind] at hrun
    obtain ⟨rfl, rfl⟩ := gives_pure.mp hrun
    obtain ⟨cells, hφ, rfl⟩ := Space.describe_eq_ok hdescribe
    have hname := Space.name_of_descriptor hφ
    have hcells : Links b { b with
        space := b.space.modifyPartition rank fun p => { p with cells } } :=
      links_cells h.linked hp hP cells
    have hlast₂ : Grew b₂ last := by
      refine Grew.trans ?_ hlast
      exact .of_eq rfl rfl rfl
    obtain ⟨p₀, hp₀, hparent⟩ := h.cuts.parentClass hp
    obtain ⟨hagain, -, -⟩ := again_fieldFor hmade.found (h.of_links hcells h.known) hlast₂
      (by rw [hname, hparent]; exact (Schema.usable_of_table (htable p₀ hp₀)).1)
      (fun _ _ _ t ht hpartition =>
        absurd (hpartition.trans hname) (Catalogue.partition_not_default ht)) hfield
    refine ⟨h.of_links hlinks hagain.typed.known, fun c hc => ?_⟩
    obtain ⟨q, hq, hcut, hdescriptor, -⟩ := hc.space.partition hp
    -- both descriptors are still to be set, so the cells may become what they are in the first run
    have htwin := hc.space.setCells hp hP cells
    obtain ⟨c₂, hgives, hc₂⟩ := hagain.again _ (follows_of_space hc htwin)
    have hp₂ : b₂.space.partitions[rank]? = some { p with cells } := by
      rw [(fieldFor_cases hfield).1.space]
      simp [Space.modifyPartition, hp]
    have hq₂ : c₂.space.partitions[rank]? = some { q with cells } := by
      rw [(fieldFor_cases hgives).1.space]
      simp [Space.modifyPartition, hq]
    refine ⟨_, ?_, follows_of_space hc₂ (hc₂.space.setDescriptor hp₂ hq₂ rfl P)⟩
    rw [descriptorField, gives_partition_bind]
    refine ⟨q, hq, ?_⟩
    simp only [hdescriptor, hP, gives_get_bind, gives_lift_bind, gives_modify_bind]
    refine ⟨(φ, _), Space.describe_of_descriptor
      ((hc.space.there.descriptor_eq rank).trans hφ), gives_bind.mpr ⟨P, c₂, ?_, ?_⟩⟩
    · rwa [show q.parentClass = p.parentClass from congrArg (·.2.1) hcut]
    · rw [modifyPartition, gives_modify_bind]
      exact gives_pure.mpr ⟨rfl, rfl⟩

theorem TabledBy.onlyMembers {part : Part} {T : String} {p : Partition} {φ : Formula} {key : Nat}
    (h : TabledBy part T b b' p φ key) : OnlyMembers b b' := by
  rcases h.inserted with rfl | ⟨c, name, b₁, make, makeBlock, hname, hinsert⟩
  · exact onlyMembers_of_eq rfl rfl rfl rfl
  · exact closed_onlyMembers.bind (onlyMembers_freeName p.parentClass make)
      (fun name => onlyMembers_insertMember p.parentClass (c.block? φ) φ
        (.member name (.objectArray p.className) "" key) makeBlock)
      (gives_bind.mpr ⟨name, b₁, hname, hinsert⟩)

/-- The block of parts of a table is found again. -/
theorem again_tableBlock (hmade : last.Made) (h : Typed s last b) {part : Part} {T : String}
    (htable : ∀ p, s.partitions[part.partition]? = some p →
      last.schema.Provides p.parentClass .objectArray)
    (hlast : Grew b' last) (hrun : (tableBlock part).Gives b T b') :
    Again s last (tableBlock part) b T b' := by
  obtain ⟨hlinks, -⟩ := links_tableBlock h.linked hrun
  obtain ⟨P, b₁, b₂, p, φ, key, hdescriptor, htabled, rfl⟩ := tableBlock_cases h.linked hrun
  have hlast₂ : Grew b₂ last := by
    refine Grew.trans ?_ hlast
    exact .of_eq rfl rfl rfl
  have hagain := again_descriptorField hmade h htable (htabled.links.grew.trans hlast₂) hdescriptor
  have honly := htabled.onlyMembers
  refine ⟨h.of_links hlinks fun C ψ m hm => hagain.typed.known C ψ m (honly.known C ψ m hm),
    fun c hc => ?_⟩
  obtain ⟨c₁, hgives, hc₁⟩ := hagain.again c hc
  obtain ⟨hp, hdescribed, hφ, hkey, hlinks₂, hT, ⟨t, ht⟩, -⟩ := htabled
  obtain ⟨P', hP⟩ := Option.isSome_iff_exists.mp hdescribed
  obtain ⟨q, hq, hcut, -, hqtable⟩ := hc₁.space.partition hp
  have hparent : q.parentClass = p.parentClass := congrArg (·.2.1) hcut
  have husable : last.schema.Usable p.parentClass φ.name := by
    obtain ⟨-, -, -, -, rfl⟩ := Space.tableBlockFormula_eq_ok hp hφ
    obtain ⟨p₀, hp₀, hparent₀⟩ := hagain.typed.cuts.parentClass hp
    rw [hparent₀]
    exact (Schema.usable_of_table (htable p₀ hp₀)).2
  obtain ⟨known, hknown, hmember⟩ :=
    hmade.found.member _ φ key t (hlast₂.knowsMember ht) husable
  have hblock : q.tableBlock.or (known.block? φ) = some T := by
    cases hT' : p.tableBlock with
    | some T' =>
      -- a link of the first run is to the block known by the formula
      obtain ⟨ψ, hψ, hknows⟩ := hagain.typed.linked.tabled _ p T' hp hT'
      obtain rfl := Except.ok.inj (hφ.symm.trans hψ)
      rw [hqtable, hT', (hlinks₂.grew.knowsBlock hknows).unique hT, Option.some_or]
    | none =>
      obtain ⟨known', hknown', hfound⟩ := hmade.found.block _ φ T (hlast₂.knowsBlock hT) husable
      obtain rfl := Option.some.inj (hknown.symm.trans hknown')
      rw [hqtable, hT', Option.none_or, hfound]
  have htwin : b₂.space.Twin c₁.space := by
    rw [honly.space]
    exact hc₁.space
  refine ⟨_, gives_bind.mpr ⟨P, c₁, hgives, ?_⟩,
    follows_of_space (follows_of_onlyMembers hc₁ honly hlinks₂.fieldOf)
      (htwin.setTableBlock part.partition T)⟩
  simp only [gives_get_bind, gives_lift_bind, gives_partition_bind, gives_record_bind]
  refine ⟨φ, hc₁.space.there.tableBlockFormula_eq hφ, key,
    (hc₁.space.there.key_eq hp hP).trans hkey, q, hq, known, ?_, ?_⟩
  · rw [hparent, hc₁.registry, hknown]
  · simp only [hmember, hblock, Option.isSome_some, pure_bind, modifyPartition, gives_modify_bind]
    exact gives_pure.mpr ⟨rfl, rfl⟩

/-! ## Block rules -/

/-- The references to the operands of a statistic are found again. -/
theorem again_statisticOperands (hs : s.WellFounded) (hmade : last.Made) (r : Rule) :
    ∀ (operands : List (RuleOperand Rule)) (b b' : BuildState) (xs : List Operand), Typed s last b →
    (∀ inner, .rule inner ∈ operands → inner.Grounded s last.schema) → Grew b' last →
    (statisticOperands r operands).Gives b xs b' →
      Again s last (statisticOperands r operands) b xs b'
  | [], b, b', xs, h, _, _, hrun => by
      rw [statisticOperands, gives_pure] at hrun
      obtain ⟨rfl, rfl⟩ := hrun
      rw [statisticOperands]
      exact .pure h _
  | .field name type :: rest, b, b', xs, h, hrest, hlast, hrun => by
      rw [statisticOperands] at hrun ⊢
      obtain ⟨ys, b₁, hrun, hpure⟩ := gives_bind.mp hrun
      obtain ⟨rfl, rfl⟩ := gives_pure.mp hpure
      have hagain := again_statisticOperands hs hmade r rest b b' ys h
        (fun inner hinner => hrest inner (List.mem_cons_of_mem _ hinner)) hlast hrun
      exact hagain.bind (.pure hagain.typed _)
  | .rule inner :: rest, b, b', xs, h, hrest, hlast, hrun => by
      rw [statisticOperands] at hrun ⊢
      obtain ⟨name, b₁, hfield, hrun⟩ := gives_bind.mp hrun
      obtain ⟨ys, b₂, hrun, hpure⟩ := gives_bind.mp hrun
      obtain ⟨rfl, rfl⟩ := gives_pure.mp hpure
      have hlast₁ : Grew b₁ last := (closed_statisticOperands parts_grew r rest hrun).trans hlast
      obtain ⟨hagain, -⟩ :=
        again_sharedField hs hmade inner b b₁ name h (hrest inner List.mem_cons_self) hlast₁ hfield
      have hagain' := again_statisticOperands hs hmade r rest b₁ b' ys hagain.typed
        (fun x hx => hrest x (List.mem_cons_of_mem _ hx)) hlast hrun
      exact hagain.bind (hagain'.bind (.pure hagain'.typed _))
  | .part part :: rest, b, b', xs, _, _, _, hrun => by
      rw [statisticOperands, gives_lift] at hrun
      cases hrun.1

/-- Steps that realize rules outside of blocks leave the space alone. -/
theorem parts_sameSpace : Parts (fun m => Respects (fun b b' => b'.space = b.space) m) := by
  have closed : Closed (fun m => Respects (fun b b' => b'.space = b.space) m) :=
    Chained.respects ⟨fun _ => rfl, fun h h' => h'.trans h⟩
  have note : ∀ f : BuildState → BuildState, (∀ b, Notes b (f b)) →
      Respects (fun b b' => b'.space = b.space) (modify f : Build Unit) :=
    fun _ hf => (always_modify fun b => (hf b).space).respects
  exact
  { closed, note
    formula := closed_formulaField closed note
      fun _ _ _ _ _ _ _ run => (fieldFor_cases run).1.space }

/-- The member of a statistic of a selection is found again. -/
theorem again_partitionBlockMember (hs : s.WellFounded) (hmade : last.Made) (h : Typed s last b)
    (hr : r.Grounded s last.schema) (hsort : r.isPartitionBlock = true)
    (hused : r.usedPart? = (r.ruleOperand? 0).bind (Rule.partOperand? · 1)) (hlast : Grew b' last)
    (hrun : (partitionBlockMember r).Gives b n b') :
    Again s last (partitionBlockMember r) b n b' ∧ last.Held b' r n := by
  have happlies := Rule.applies_of_partitionBlock hmade.compile hr.named hr.checked hr.fields hsort
  obtain ⟨hstatistic, -⟩ := Bool.and_eq_true_iff.mp hsort
  unfold partitionBlockMember at hrun ⊢
  split at hrun
  · rw [gives_lift] at hrun
    cases hrun.1
  · rw [gives_lift] at hrun
    cases hrun.1
  · rename_i operator part hoperator hpart
    obtain ⟨table, b₁, htable, hrun⟩ := gives_bind.mp hrun
    obtain ⟨xs, b₂, hoperands, hrun⟩ := gives_bind.mp hrun
    simp only [gives_get_bind, gives_lift_bind] at hrun
    obtain ⟨key, hkey, hblock⟩ := hrun
    have hlast₂ : Grew b₂ last := (grew_blockMember r _ key hblock).trans hlast
    have hlast₁ : Grew b₁ last :=
      (closed_statisticOperands parts_grew r _ hoperands).trans hlast₂
    have hagain := again_tableBlock hmade h (fun p hp => by
      rw [hused] at hpart
      obtain ⟨q, hq, hclass⟩ := Rule.parentClass_of_partitionBlock hr.checked hsort hpart
      obtain rfl := Option.some.inj (hp.symm.trans hq)
      rw [hclass]
      exact Rule.provides_of_partitionBlock hmade.compile hr.named hr.checked hr.fields hsort)
      hlast₁ htable
    have hagain' := again_statisticOperands hs hmade r _ b₁ b₂ xs hagain.typed
      (fun inner hinner => hr.operand (List.mem_of_mem_drop hinner)) hlast₂ hoperands
    obtain ⟨hagain'', hheld⟩ := again_blockMember hs hmade hagain'.typed hr hstatistic
      (Rule.usable_of_applies hr.named happlies (by simp [ClassRecord.operatorsOf, hoperator]))
      hlast hblock
    refine ⟨hagain.bind (hagain'.bind (.get_bind (.lift_bind hkey hagain'') fun c hc => ?_)), hheld⟩
    -- the partition is described, so both runs give the part one key
    obtain ⟨-, p, φ, -, -, hp, -, hφ, -⟩ := links_tableBlock h.linked htable
    obtain ⟨P, -, hP, -⟩ := Space.tableBlockFormula_eq_ok hp hφ
    rw [← closed_statisticOperands parts_sameSpace r _ hoperands] at hp
    rw [hc.space.there.key_eq hp hP]

/-- The block and key of a member. -/
def blockAndKey (f : Field) : Option (String × Nat) := f.block.bind fun U => f.key.map (U, ·)

/-- The member of a statistic over the block that a member upstream is in, under its key. -/
def memberOver (r : Rule) (operator : String) : Option (String × Nat) → Build (Option String)
  | some (U, key) => do
    let table ← tableOperand r
    return some (← blockMember r ⟨operator, [table, .field U]⟩ key)
  | none => return none

theorem valueBlockMember_eq (r : Rule) (operator member : String) :
    valueBlockMember r operator member = (do
      let owner ← entity (← lift (r.operandClass 1))
      memberOver r operator ((owner.field? member).bind blockAndKey)) := by
  unfold valueBlockMember
  congr 1
  funext C
  congr 1
  funext owner
  cases owner.field? member with
  | none => rfl
  | some f =>
    obtain ⟨_, _, _, _, _, _, _, block, key⟩ := f
    cases block <;> cases key <;> rfl

/-- A field of the first run is, up to marks, one of the second under its name. -/
theorem field?_followed (hmade : last.Made) (hlast : Grew b last) (hc : Follows last b c)
    {C member : String} (hheld : b.HasCore C (·.name = member)) {e : Entity}
    (he : b.schema.entity? C = some e) :
    ∃ f e' f', e.field? member = some f ∧ c.schema.entity? C = some e' ∧
      e'.field? member = some f' ∧ f'.core = f.core := by
  obtain ⟨e₀, record, he₀, hrecord, x, hx, hname⟩ := hheld
  obtain rfl := Option.some.inj (he.symm.trans he₀)
  obtain ⟨g, hg, rfl⟩ := Entity.mem_cores.mp hx
  obtain ⟨f, hf⟩ := Option.isSome_iff_exists.mp (List.find?_isSome.mpr
    ⟨g, hg, beq_iff_eq.mpr hname⟩ : (e.field? member).isSome = true)
  have hfname : f.name = member := by simpa using List.find?_some hf
  obtain ⟨e₁, record₁, he₁, hrecord₁, x₁, hx₁, rfl⟩ := hlast.hasCore
    ⟨e, record, he, hrecord, f.core, Entity.core_mem_cores (List.mem_of_find?_eq_some hf), rfl⟩
  obtain ⟨f₁, hf₁, hcore₁⟩ :=
    (hmade.accounted.indexes C e₁ record₁ he₁ hrecord₁).field?_of_core hx₁
  obtain ⟨e', he', hcore⟩ := Schema.entity?_of_core hc.schema he₁
  rw [Field.core_name, hfname] at hf₁
  obtain ⟨f', hf', hcore'⟩ := Entity.field?_of_core hcore hf₁
  exact ⟨f, e', f', hf, he', hf', hcore'.trans hcore₁⟩

/-- A look at the member upstream is repeated, as its block and key stay what they are. -/
theorem again_upstream (hmade : last.Made) {C member : String}
    (hheld : b.HasCore C (·.name = member)) (hlast : Grew b last) {e : Entity}
    (he : b.schema.entity? C = some e) {known : Option String}
    {next : Option (String × Nat) → Build (Option String)}
    (hagain : Again s last (next ((e.field? member).bind blockAndKey)) b known b') :
    Again s last (do
      let owner ← entity C
      next ((owner.field? member).bind blockAndKey)) b known b' := by
  refine ⟨hagain.typed, fun c hc => ?_⟩
  obtain ⟨f, e', f', hf, he', hf', hcore⟩ := field?_followed hmade hlast hc hheld he
  have hsame : blockAndKey f' = blockAndKey f := by
    rw [blockAndKey, blockAndKey, ← Field.core_block f', ← Field.core_key f', hcore,
      Field.core_block, Field.core_key]
  obtain ⟨c', hgives, hc'⟩ := hagain.again c hc
  refine ⟨c', gives_entity_bind.mpr ⟨e', he', ?_⟩, hc'⟩
  rwa [hf', Option.bind_some, hsame, ← Option.bind_some (f := blockAndKey), ← hf]

/-- The table of a statistic of a member is a field, as rules that compute tables are selections. -/
theorem tableOperand_of_value (hr : r.Grounded s last.schema) (hnot : r.isPartitionBlock = false)
    (hvalue : r.template.valueStatistic.isSome = true) {inner : Rule}
    (hinner : r.ruleOperand? 1 = some inner) :
    ∃ name type rest, r.operands = .field name type :: rest ∧
      tableOperand r = pure (.field name) := by
  obtain ⟨hpartition, -⟩ := (Catalogue.blocksOfTables_default _
    (Rule.template_mem_of_over hr.named)).value hvalue
  cases hxs : r.operands with
  | nil => simp [Rule.ruleOperand?, hxs] at hinner
  | cons first rest =>
    rw [Rule.isPartitionBlock, hpartition, Bool.true_and] at hnot
    obtain ⟨name, type, rfl⟩ := Rule.field_of_statistic Catalogue.blocksOfTables_default hr.named
      hr.checked hvalue hnot hxs
    exact ⟨name, type, rest, rfl, by rw [tableOperand, hxs]⟩

/-- The member of a statistic of a member is found again. -/
theorem again_valueBlockMember (hs : s.WellFounded) (hmade : last.Made) (h : Typed s last b)
    (hr : r.Grounded s last.schema) (hnot : r.isPartitionBlock = false) {operator member : String}
    (hstatistic : r.template.valueStatistic = some operator) {inner : Rule}
    (hinner : r.ruleOperand? 1 = some inner)
    (hheld : b.HasCore inner.className (·.name = member)) (hlast : Grew b' last)
    {known : Option String} (hrun : (valueBlockMember r operator member).Gives b known b') :
    Again s last (valueBlockMember r operator member) b known b' ∧
      ∀ n, known = some n → last.Held b' r n := by
  have hvalue : r.template.valueStatistic.isSome = true := by rw [hstatistic]; rfl
  obtain ⟨hpartition, -⟩ := (Catalogue.blocksOfTables_default _
    (Rule.template_mem_of_over hr.named)).value hvalue
  obtain ⟨name, type, rest, hoperands, htable⟩ := tableOperand_of_value hr hnot hvalue hinner
  have happlies := Rule.applies hmade.compile hr.named hr.checked hr.fields
    fun x hx => by simp [hoperands] at hx
  have hclass := Rule.operandClass_of_check hr.checked hinner
  have hgrew : Grew b b' := closed_valueBlockMember blockParts_grew r operator member hrun
  rw [valueBlockMember_eq] at hrun ⊢
  rw [gives_lift_bind] at hrun
  obtain ⟨C, hC, hrun⟩ := hrun
  obtain rfl := Except.ok.inj (hclass.symm.trans hC)
  rw [gives_entity_bind] at hrun
  obtain ⟨e, he, hrun⟩ := hrun
  suffices hsuffices : Again s last _ b known b' ∧ ∀ n, known = some n → last.Held b' r n from
    ⟨.lift_bind hclass (again_upstream hmade hheld (hgrew.trans hlast) he hsuffices.1),
      hsuffices.2⟩
  cases hupstream : (e.field? member).bind blockAndKey with
  | none =>
    rw [hupstream] at hrun
    obtain ⟨rfl, rfl⟩ := gives_pure.mp hrun
    exact ⟨.pure h _, fun n hn => absurd hn (Option.some_ne_none n).symm⟩
  | some upstream =>
    obtain ⟨U, key⟩ := upstream
    simp only [hupstream, memberOver, htable, pure_bind] at hrun ⊢
    obtain ⟨n, b₁, hblock, hpure⟩ := gives_bind.mp hrun
    obtain ⟨rfl, rfl⟩ := gives_pure.mp hpure
    obtain ⟨hagain, hheld'⟩ := again_blockMember hs hmade h hr hpartition
      (Rule.usable_of_applies hr.named happlies (by simp [ClassRecord.operatorsOf, hstatistic]))
      hlast hblock
    refine ⟨hagain.bind (.pure hagain.typed _), fun m hm => ?_⟩
    obtain rfl := Option.some.inj hm
    exact hheld'

/-- The member of a statistic of a member, or what is done where that is none. -/
def memberOr (r : Rule) (operator member : String) (plain : Build String) : Build String := do
  match ← valueBlockMember r operator member with
  | some name => return name
  | none => plain

theorem grew_memberOr {operator member : String} {plain : Build String}
    (hplain : ∀ b₁, plain.Gives b₁ n b' → Grew b₁ b')
    (hrun : (memberOr r operator member plain).Gives b n b') : Grew b b' := by
  obtain ⟨known, b₁, hblock, hrest⟩ := gives_bind.mp hrun
  have hgrew : Grew b b₁ := closed_valueBlockMember blockParts_grew r operator member hblock
  cases known with
  | some name =>
    obtain ⟨rfl, rfl⟩ := gives_pure.mp hrest
    exact hgrew
  | none => exact hgrew.trans (hplain b₁ hrest)

/-- The member of a statistic of a member is found again, or what was made instead. -/
theorem again_memberOr (hs : s.WellFounded) (hmade : last.Made) (h : Typed s last b)
    (hr : r.Grounded s last.schema) (hnot : r.isPartitionBlock = false) {operator member : String}
    (hstatistic : r.template.valueStatistic = some operator) {inner : Rule}
    (hinner : r.ruleOperand? 1 = some inner)
    (hheld : b.HasCore inner.className (·.name = member)) (hlast : Grew b' last)
    {plain : Build String} (hgrew : ∀ b₁, plain.Gives b₁ n b' → Grew b₁ b')
    (hplain : ∀ b₁, Typed s last b₁ → plain.Gives b₁ n b' →
      Again s last plain b₁ n b' ∧ last.Held b' r n)
    (hrun : (memberOr r operator member plain).Gives b n b') :
    Again s last (memberOr r operator member plain) b n b' ∧ last.Held b' r n := by
  obtain ⟨known, b₁, hblock, hrest⟩ := gives_bind.mp hrun
  have hlast₁ : Grew b₁ last := by
    cases known with
    | some name =>
      obtain ⟨rfl, rfl⟩ := gives_pure.mp hrest
      exact hlast
    | none => exact (hgrew b₁ hrest).trans hlast
  obtain ⟨hagain, hheld'⟩ :=
    again_valueBlockMember hs hmade h hr hnot hstatistic hinner hheld hlast₁ hblock
  cases known with
  | some name =>
    obtain ⟨rfl, rfl⟩ := gives_pure.mp hrest
    exact ⟨hagain.bind (.pure hagain.typed _), hheld' _ rfl⟩
  | none =>
    obtain ⟨hagain', hheld''⟩ := hplain b₁ hagain.typed hrest
    exact ⟨hagain.bind hagain', hheld''⟩

/-! ## Rules -/

theorem contains_followed (h : Follows last b c) (r : Rule) :
    c.blockOf.contains c.space.compareBlock r = b.blockOf.contains b.space.compareBlock r := by
  have hrules : c.blockOf.entries.map (·.1) = b.blockOf.entries.map (·.1) := by
    rw [h.blockOf, List.map_map]
    rfl
  rw [Ledger.contains, Ledger.search_congr hrules, h.space.compareBlock, Ledger.contains]

/-- The reference to the field of a rule is found again in front of those to the other operands. -/
theorem again_consOperand {m : Build String} {inner : Rule} {rest : List (RuleOperand Rule)}
    {b₁ : BuildState} {name : String} {xs : List Operand}
    (hm : Grew b₁ last → Again s last m b name b₁ ∧ last.Held b₁ inner name)
    (hrest : ∀ ys, Typed s last b₁ → (sparseOperands rest).Gives b₁ ys b' →
      Again s last (sparseOperands rest) b₁ ys b' ∧
        ∀ x, .rule x ∈ rest → last.schema.Yields x.className x.template.name)
    (hlast : Grew b' last)
    (hrun : (do return Operand.field name :: (← sparseOperands rest)).Gives b₁ xs b') :
    Again s last (m >>= fun name => do
      return Operand.field name :: (← sparseOperands rest)) b xs b' ∧
    ∀ x, .rule x ∈ RuleOperand.rule inner :: rest →
      last.schema.Yields x.className x.template.name := by
  obtain ⟨ys, b₂, hrun, hpure⟩ := gives_bind.mp hrun
  obtain ⟨rfl, rfl⟩ := gives_pure.mp hpure
  obtain ⟨hagain, hheld⟩ := hm ((closed_sparseOperands blockParts_grew rest hrun).trans hlast)
  obtain ⟨hagain', hyields⟩ := hrest ys hagain.typed hrun
  refine ⟨hagain.bind (hagain'.bind (.pure hagain'.typed _)), fun x hx => ?_⟩
  rcases List.mem_cons.mp hx with heq | hx
  · cases heq
    exact hheld.2
  · exact hyields x hx

mutual

/-- The field of a rule where blocks are built is found again. -/
theorem again_sparseField (hs : s.WellFounded) (hmade : last.Made) : ∀ (r : Rule)
    (b b' : BuildState) (n : String), Typed s last b → r.Grounded s last.schema → Grew b' last →
    (sparseField r).Gives b n b' →
      Again s last (sparseField r) b n b' ∧ last.Held b' r n
  | ⟨template, className, operands, cost, tieBreak⟩, b, b', n, h, hr, hlast, hrun => by
      rw [sparseField, gives_get_bind] at hrun
      rw [sparseField]
      suffices hsuffices : Again s last _ b n b' ∧ last.Held b' _ n from
        ⟨.get_bind hsuffices.1 fun c hc => by rw [hc.fieldOf?, contains_followed hc], hsuffices.2⟩
      have hplain : ∀ b₁, Typed s last b₁ → (do
            let xs ← sparseOperands operands
            formulaField ⟨template, className, operands, cost, tieBreak⟩
              (template.formula xs)).Gives b₁ n b' →
          Again s last (do
            let xs ← sparseOperands operands
            formulaField ⟨template, className, operands, cost, tieBreak⟩ (template.formula xs))
            b₁ n b' ∧ last.Held b' ⟨template, className, operands, cost, tieBreak⟩ n :=
        fun b₁ h₁ hrun => again_fieldOverOperands hs hmade hr (fun xs b₂ hoperands hlast₂ =>
          again_sparseOperands hs hmade operands b₁ b₂ xs h₁ (fun inner => hr.operand) hlast₂
            hoperands) hlast hrun
      cases hname : b.fieldOf? ⟨template, className, operands, cost, tieBreak⟩ with
      | some name =>
        rw [hname] at hrun
        obtain ⟨rfl, rfl⟩ := gives_pure.mp hrun
        exact ⟨.pure h _, h.held_of_fieldOf? hs hname⟩
      | none =>
        simp only [hname] at hrun ⊢
        cases hcollected : b.blockOf.contains b.space.compareBlock
            ⟨template, className, operands, cost, tieBreak⟩ with
        | false =>
          simp only [hcollected] at hrun ⊢
          exact hplain b h hrun
        | true =>
          cases hsort : Rule.classify ⟨template, className, operands, cost, tieBreak⟩ with
          | selection =>
            simp only [hcollected, hsort] at hrun ⊢
            exact hplain b h hrun
          | standard =>
            simp only [hcollected, hsort] at hrun ⊢
            exact hplain b h hrun
          | partitionBlock =>
            simp only [hcollected, hsort] at hrun ⊢
            exact again_partitionBlockMember hs hmade h hr (Rule.isPartitionBlock_of_classify hsort)
              (by rw [Rule.usedPart?_eq, hsort]) hlast hrun
          | valueBlock =>
            simp only [hcollected, hsort] at hrun ⊢
            split at hrun
            · rename_i operator x inner rest hstatistic
              obtain ⟨member, b₁, hfield, hmember⟩ := gives_bind.mp hrun
              have hgrew : ∀ b₂, (do
                    let xs ← sparseOperands (x :: .rule inner :: rest)
                    formulaField ⟨template, className, x :: .rule inner :: rest, cost, tieBreak⟩
                      (template.formula xs)).Gives b₂ n b' → Grew b₂ b' := fun _ hrest =>
                parts_grew.closed.bind (closed_sparseOperands blockParts_grew _)
                  (fun _ => parts_grew.formula _ _) hrest
              obtain ⟨hagain, hheld⟩ := again_sparseField hs hmade inner b b₁ member h
                (hr.operand (List.mem_cons_of_mem _ List.mem_cons_self))
                ((grew_memberOr hgrew hmember).trans hlast) hfield
              obtain ⟨hagain', hheld'⟩ := again_memberOr hs hmade hagain.typed hr
                (Rule.not_isPartitionBlock_of_classify hsort) hstatistic rfl hheld.1 hlast hgrew
                hplain hmember
              exact ⟨hagain.bind hagain', hheld'⟩
            · rw [gives_lift] at hrun
              cases hrun.1
            · rw [gives_lift] at hrun
              cases hrun.1

/-- The operands of a rule where blocks are built are found again, and the rules among them are
held. -/
theorem again_sparseOperands (hs : s.WellFounded) (hmade : last.Made) :
    ∀ (operands : List (RuleOperand Rule)) (b b' : BuildState) (xs : List Operand), Typed s last b →
    (∀ inner, .rule inner ∈ operands → inner.Grounded s last.schema) → Grew b' last →
    (sparseOperands operands).Gives b xs b' → Again s last (sparseOperands operands) b xs b' ∧
      ∀ inner, .rule inner ∈ operands →
        last.schema.Yields inner.className inner.template.name
  | [], b, b', xs, h, _, _, hrun => by
      rw [sparseOperands, gives_pure] at hrun
      obtain ⟨rfl, rfl⟩ := hrun
      rw [sparseOperands]
      exact ⟨.pure h _, fun _ hinner => absurd hinner List.not_mem_nil⟩
  | .field name type :: rest, b, b', xs, h, hrest, hlast, hrun => by
      rw [sparseOperands] at hrun ⊢
      obtain ⟨ys, b₁, hrun, hpure⟩ := gives_bind.mp hrun
      obtain ⟨rfl, rfl⟩ := gives_pure.mp hpure
      obtain ⟨hagain, hyields⟩ := again_sparseOperands hs hmade rest b b' ys h
        (fun inner hinner => hrest inner (List.mem_cons_of_mem _ hinner)) hlast hrun
      refine ⟨hagain.bind (.pure hagain.typed _), fun inner hinner => ?_⟩
      rcases List.mem_cons.mp hinner with heq | hinner
      · cases heq
      · exact hyields inner hinner
  | .rule inner :: rest, b, b', xs, h, hrest, hlast, hrun => by
      rw [sparseOperands] at hrun ⊢
      have hinner := hrest inner List.mem_cons_self
      have hrest' := fun b₁ ys h₁ hgives => again_sparseOperands hs hmade rest b₁ b' ys h₁
        (fun x hx => hrest x (List.mem_cons_of_mem _ hx)) hlast hgives
      dsimp only at hrun ⊢
      split at hrun
      · rename_i hselection
        rw [if_pos hselection]
        obtain ⟨name, b₁, hfield, hrun⟩ := gives_bind.mp hrun
        exact again_consOperand
          (fun hlast₁ => again_sharedField hs hmade inner b b₁ name h hinner hlast₁ hfield)
          (hrest' b₁) hlast hrun
      · rename_i hselection
        rw [if_neg hselection]
        obtain ⟨name, b₁, hfield, hrun⟩ := gives_bind.mp hrun
        exact again_consOperand
          (fun hlast₁ => again_sparseField hs hmade inner b b₁ name h hinner hlast₁ hfield)
          (hrest' b₁) hlast hrun
  | .part part :: rest, b, b', xs, h, hrest, hlast, hrun => by
      simp only [sparseOperands, gives_get_bind, gives_lift_bind] at hrun
      obtain ⟨f, hf, hrun⟩ := hrun
      obtain ⟨ys, b₁, hrun, hpure⟩ := gives_bind.mp hrun
      obtain ⟨rfl, rfl⟩ := gives_pure.mp hpure
      obtain ⟨hagain, hyields⟩ := again_sparseOperands hs hmade rest b b' ys h
        (fun inner hinner => hrest inner (List.mem_cons_of_mem _ hinner)) hlast hrun
      refine ⟨?_, fun inner hinner => ?_⟩
      · rw [sparseOperands]
        exact .get_bind (.lift_bind hf (hagain.bind (.pure hagain.typed _)))
          fun c hc => by rw [hc.space.partFormula]
      · rcases List.mem_cons.mp hinner with heq | hinner
        · cases heq
        · exact hyields inner hinner

end

end Build

end FeatureSynth
