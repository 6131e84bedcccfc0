/-
# Every build goes step by step

Whatever happens to a build, it gets where it gets by creations and steps that add
nothing.  That it may fail is what makes this more than a remark: a creation that
registered a field and then could not add it, or added a member and then could not
register it, would stop half way.  It never does.  A derived field is asked for only
where there is an entity, a new block only under a formula that no block is known
by, a new member only under a key that none is known by.

For one of the steps this takes an invariant.  The block of parts of a partition is
found by its link and not by its formula, so a member goes to the right block only
in a linked state.  The links are clear when the first candidate's turn comes, and
every step that succeeds leaves them right.
-/
import FeatureSynth.Proofs.Build.InStep
import FeatureSynth.Proofs.Build.Optimized

namespace FeatureSynth

namespace Build

open BuildState

variable {α β : Type} {b b' : BuildState} {C : String}

/-! ## Paths along programs -/

theorem chained_path : Chained Path := ⟨fun _ => .refl, .trans⟩

theorem closed_path : Closed (fun m => Always Path m) := chained_path.always

theorem path_of_stays (h : Stays b b') : Path b b' := .single (.inr h)

theorem Always.path {m : Build α} (h : Always Stays m) : Always Path m := h.imp path_of_stays

theorem path_modify {f : BuildState → BuildState} (h : ∀ b, Stays b (f b)) :
    Always Path (modify f : Build Unit) :=
  always_modify fun b => path_of_stays (h b)

/-! ## Creations -/

theorem path_freeName (C : String) (make : Naming) : Always Path (freeName C make) := by
  refine closed_path.bind ?_ fun _ => closed_path.bind (closed_path.entity C) fun _ =>
    closed_path.pure _
  refine closed_path.bind closed_path.get fun b => closed_path.bind (closed_path.lift _) fun _ => ?_
  exact closed_path.bind (path_modify fun _ => .of_eq rfl rfl rfl) fun _ => closed_path.pure _

theorem whole_insertDerived {n : String} {t : FieldType} {φ : Formula} {e : Entity}
    (he : b.schema.entity? C = some e) : (insertDerived C (.derived n t φ)).Whole b := by
  simp only [insertDerived, register, bind_assoc]
  refine .record_bind fun c hc => .lift_bind fun c' hc' => .inl ?_
  refine .next (gives_setRecord.mpr rfl) (.next (gives_edit.mpr ⟨e, _, he, rfl, rfl⟩) ?_)
  exact .next (gives_modify.mpr rfl) ⟨_, _, rfl⟩

/-- A member can be registered under a key that none is known by. -/
theorem exists_registerMember {c : ClassRecord} {φ : Formula} {key : Nat} {n B : String}
    {t : FieldType} (h : c.member? φ key = none) :
    ∃ c', c.registerMember φ { Field.member n t "" key with block := some B } = .ok c' := by
  simp [ClassRecord.registerMember, Field.member, h]

/-- A block can be registered under a formula that none is known by. -/
theorem exists_registerBlock {c : ClassRecord} {φ : Formula} {B : String} (h : c.block? φ = none) :
    ∃ c', c.registerBlock ⟨B, φ⟩ = .ok c' := by
  simp [ClassRecord.registerBlock, h]

/-- A member can be inserted into a block that has one, or into a new one that can be named. -/
theorem succeeds_insertMember {n : String} {t : FieldType} {φ : Formula} {key : Nat} {e : Entity}
    {c : ClassRecord} {make : Naming} (he : b.schema.entity? C = some e)
    (hc : b.registry.class? C = some c) (hkey : c.member? φ key = none)
    (hblock : ∀ B, c.block? φ = some B → e.fields.any (·.isIn B) = true)
    (hmake : c.block? φ = none → ∃ y, make b.names b.space = .ok y) :
    (insertMember C (c.block? φ) φ (.member n t "" key) make).Succeeds b := by
  cases hB : c.block? φ with
  | some B =>
    obtain ⟨c', hc'⟩ := exists_registerMember (n := n) (t := t) (B := B) hkey
    refine .next (gives_edit.mpr ⟨e, _, he, if_pos (hblock B hB), rfl⟩) ?_
    refine .next (gives_register.mpr ⟨c, c', hc, hc', rfl⟩) ?_
    exact .next (gives_modify.mpr rfl) ⟨_, _, rfl⟩
  | none =>
    obtain ⟨⟨stem, names⟩, hstem⟩ := hmake hB
    obtain ⟨c₁, hc₁⟩ := exists_registerBlock (B := e.freeName stem) hB
    obtain ⟨-, hname, hfields, -⟩ := ClassRecord.registerBlock_eq_ok hc₁
    have hkey₁ : c₁.member? φ key = none := by rw [ClassRecord.member?, hfields]; exact hkey
    obtain ⟨c', hc'⟩ := exists_registerMember (n := n) (t := t) (B := e.freeName stem) hkey₁
    have hset := Registry.class?_set hc hname
    refine .bind (gives_freeName.mpr ⟨stem, names, e, hstem, he, rfl, rfl⟩) ?_
    refine .next (gives_register.mpr ⟨c, c₁, hc, hc₁, rfl⟩) ?_
    refine .next (gives_edit.mpr ⟨e, _, he, rfl, rfl⟩) (.next (gives_modify.mpr rfl) ?_)
    refine .next (gives_register.mpr ⟨c₁, c', hset, hc', rfl⟩) ?_
    exact .next (gives_modify.mpr rfl) ⟨_, _, rfl⟩

/-- Where no member can be inserted nothing is done. -/
theorem whole_insertMember {n : String} {t : FieldType} {φ : Formula} {key : Nat} {e : Entity}
    {c : ClassRecord} {make : Naming} (he : b.schema.entity? C = some e)
    (hc : b.registry.class? C = some c) (hkey : c.member? φ key = none) :
    (insertMember C (c.block? φ) φ (.member n t "" key) make).Whole b := by
  by_cases hblock : ∀ B, c.block? φ = some B → e.fields.any (·.isIn B) = true
  · by_cases hmake : c.block? φ = none → ∃ y, make b.names b.space = .ok y
    · exact .inl (succeeds_insertMember he hc hkey hblock hmake)
    · obtain ⟨hB, hnone⟩ := Classical.not_imp.mp hmake
      rw [hB]
      simp only [insertMember, freeName, nextName, bind_assoc, pure_bind]
      exact Whole.lift_bind (x := make b.names b.space) fun stem hstem => absurd ⟨stem, hstem⟩ hnone
  · obtain ⟨B, hB⟩ := not_forall.mp hblock
    obtain ⟨hB, hany⟩ := Classical.not_imp.mp hB
    rw [hB]
    simp only [insertMember, edit, bind_assoc, pure_bind]
    refine .entity_bind fun e₁ he₁ => .lift_bind fun e' he' => ?_
    obtain rfl : e = e₁ := Option.some.inj (he.symm.trans he₁)
    exact absurd (Entity.insertMember_eq_ok he').2.2.2 hany

/-- A new derived field under a free name. -/
theorem path_newDerived {n : String} {t : FieldType} {φ : Formula} {e : Entity} {c : ClassRecord}
    (he : b.schema.entity? C = some e) (hc : b.registry.class? C = some c) (hn : n ∉ e.names) :
    Path b ((insertDerived C (.derived n t φ)).run b).2 := by
  refine chained_path.run_whole (whole_insertDerived he) fun a b' hrun => .single (.inl ?_)
  obtain ⟨-, -, rfl, -⟩ := grows_insertDerived hrun rfl he hn
  exact .derived he hc hn hrun

/-- A new member, under a name made for it, of the block known by a formula. -/
theorem path_newMember {φ : Formula} {key : Nat} {t : FieldType} {make makeBlock : Naming}
    {c : ClassRecord} (hc : b.registry.class? C = some c) (hkey : c.member? φ key = none)
    {name : String} {b₁ : BuildState} (hname : (freeName C make).Gives b name b₁) :
    Path b₁ ((insertMember C (c.block? φ) φ (.member name t "" key) makeBlock).run b₁).2 := by
  obtain ⟨stem, names, e, -, he, rfl, rfl⟩ := gives_freeName.mp hname
  exact chained_path.run_whole (whole_insertMember he hc hkey) fun B b' hrun =>
    .single (.inl (.member he hc (Entity.freeName_notMem e stem) hrun))

/-! ## Fields -/

theorem path_reuse (name : String) : Always Path (reuse name) :=
  closed_path.bind (path_modify fun _ => .of_eq rfl rfl rfl) fun _ => closed_path.pure _

theorem path_fieldFor {φ : Formula} {type : Except BuildError FieldType} {make : Naming} :
    Always Path (fieldFor C φ type make) := by
  intro b
  refine chained_path.record_bind fun c hc => ?_
  cases c.field? φ with
  | some name =>
    exact path_reuse name b
  | none =>
    refine chained_path.run_bind (path_freeName C make b) fun name b₁ hname => chained_path.lift_bind fun t _ => ?_
    obtain ⟨stem, names, e, -, he, rfl, rfl⟩ := gives_freeName.mp hname
    exact path_newDerived (b := { b with names }) he hc (Entity.freeName_notMem e stem)

theorem path_directField (r : Rule) : Always Path (directField r) := by
  intro b
  unfold directField
  refine chained_path.record_bind fun c hc => chained_path.get_bind (chained_path.lift_bind ?_)
  rintro ⟨existing, c'⟩ hlookup
  obtain ⟨hname, hfields, hblocks⟩ := ClassRecord.lookupRule_keeps hlookup
  have hset : (setRecord r.className c').Gives b () { b with
      registry := b.registry.set r.className c' } := rfl
  refine chained_path.run_bind (path_of_stays (stays_setRecord hset hc hname hfields hblocks)) fun _ b₁ _ => ?_
  cases existing with
  | some name =>
    exact path_reuse name b₁
  | none => exact chained_path.get_bind (chained_path.lift_bind fun φ _ => path_fieldFor b₁)

/-! ## Blocks -/

theorem path_partition (rank : Nat) : Always Path (partition rank) := by
  refine closed_path.bind closed_path.get fun b => ?_
  split
  · exact closed_path.pure _
  · exact closed_path.lift _

theorem path_space (f : BuildState → Space) :
    Always Path (modify fun b => { b with space := f b } : Build Unit) :=
  path_modify fun _ => .of_eq rfl rfl rfl

theorem path_descriptorField (rank : Nat) : Always Path (descriptorField rank) := by
  unfold descriptorField
  refine closed_path.bind (path_partition rank) fun p => ?_
  split
  · exact closed_path.pure _
  · refine closed_path.bind closed_path.get fun b => closed_path.bind (closed_path.lift _) ?_
    rintro ⟨φ, space⟩
    exact closed_path.bind (path_space _) fun _ => closed_path.bind path_fieldFor fun _ =>
      closed_path.bind (path_space _) fun _ => closed_path.pure _

/-- The block of parts of a partition gets a member only under a key that none is known by. -/
theorem path_tableBlock (h : Linked b) (part : Part) : Path b ((tableBlock part).run b).2 := by
  unfold tableBlock
  refine chained_path.run_bind (path_descriptorField _ b) fun P b₁ hdescriptor => ?_
  obtain ⟨hlinks, -⟩ := links_descriptorField h hdescriptor
  refine chained_path.get_bind (chained_path.lift_bind fun φ hφ => chained_path.lift_bind fun key _ => ?_)
  refine chained_path.run_bind (path_partition _ b₁) fun p b₂ hp => ?_
  obtain ⟨hp, rfl⟩ := gives_partition.mp hp
  refine chained_path.record_bind fun c hc => ?_
  have last : ∀ block, Always Path (do
      modifyPartition part.partition fun p => { p with tableBlock := some block }
      return block) :=
    fun _ => closed_path.bind (path_space _) fun _ => closed_path.pure _
  rw [hlinks.linked.table_known hp hφ hc]
  dsimp only
  split
  · exact last _ b₂
  · rename_i hnew
    have hkey : c.member? φ key = none := by
      by_contra hmember
      obtain ⟨t, ht⟩ := Option.ne_none_iff_exists'.mp hmember
      obtain ⟨e, he⟩ := hlinks.linked.entity_of_class _ c hc
      obtain ⟨B, hB⟩ := Option.isSome_iff_exists.mp
        ((hlinks.linked.indexes _ e c he hc).member φ key t ht).1
      exact hnew B (by rw [ht, Option.isSome_some]) hB
    refine chained_path.run_bind (path_freeName _ _ b₂) fun name b₃ hname => ?_
    exact chained_path.run_bind (path_newMember hc hkey hname) fun B b₄ _ => last B b₄

theorem path_blockMember (r : Rule) (φ : Formula) (key : Nat) :
    Always Path (blockMember r φ key) := by
  intro b
  refine chained_path.record_bind fun c hc => ?_
  have last : ∀ name, Always Path (do
      recordField r name
      return name) :=
    fun _ => closed_path.bind (path_modify fun _ => .of_eq rfl rfl rfl) fun _ => closed_path.pure _
  dsimp only
  split
  · exact chained_path.run_bind (path_reuse _ b) fun name b₁ _ => last name b₁
  · rename_i hkey
    refine chained_path.run_bind (path_freeName _ _ b) fun name b₁ hname => chained_path.lift_bind fun type _ => ?_
    refine chained_path.run_bind (path_newMember hc hkey hname) fun B b₂ _ => ?_
    refine chained_path.run_bind (path_modify ?_ b₂) fun _ b₃ _ => last name b₃
    exact fun _ => .of_eq rfl rfl rfl

/-! ## Programs -/

theorem path_note (f : BuildState → BuildState) (h : ∀ b, Notes b (f b)) :
    Always Path (modify f : Build Unit) :=
  path_modify fun b => (h b).stays

theorem parts_path : Parts (fun m => Always Path m) where
  closed := closed_path
  note := path_note
  formula := closed_formulaField closed_path path_note fun _ _ _ _ => path_fieldFor

theorem firstParts_path : FirstParts (fun m => Always Path m) where
  toParts := parts_path
  direct := path_directField
  move := fun C name => (stays_moveField C name).path
  count := fun _ => path_space _
  bindTo := fun _ _ => path_space _
  mark := fun C name cost => (stays_markCandidate C name cost).path

/-- From a linked state a step goes along a path, and if it succeeds it ends in a linked state. -/
structure Safe (m : Build α) : Prop where
  path : ∀ b, Linked b → Path b (m.run b).2
  keeps : ∀ b a b', Linked b → m.Gives b a b' → Linked b'

theorem closed_safe : Closed (fun m => Safe m) where
  pure := by
    intro α x
    refine ⟨fun b _ => .refl, fun b a b' h run => ?_⟩
    obtain ⟨-, rfl⟩ := gives_pure.mp run
    exact h
  bind := by
    intro α β m f hm hf
    refine ⟨fun b h => ?_, fun b c b' h run => ?_⟩
    · exact chained_path.run_bind (hm.path b h) fun a b₁ run => (hf a).path b₁ (hm.keeps b a b₁ h run)
    · obtain ⟨a, b₁, first, rest⟩ := gives_bind.mp run
      exact (hf a).keeps b₁ c b' (hm.keeps b a b₁ h first) rest
  get := by
    refine ⟨fun b _ => .refl, fun b a b' h run => ?_⟩
    obtain ⟨-, rfl⟩ := gives_get.mp run
    exact h
  lift := by
    intro α x
    refine ⟨fun b _ => closed_path.lift x b, fun b a b' h run => ?_⟩
    obtain ⟨-, rfl⟩ := gives_lift.mp run
    exact h

/-- A step that adds nothing and leaves the space alone. -/
theorem safe_of_stays {m : Build α} (hm : Always Stays m)
    (hspace : Respects (fun b b' => b'.space = b.space) m) : Safe m where
  path := fun b _ => hm.path b
  keeps := fun _ _ _ h run =>
    h.of_grows (hm.respects run) (hspace run) fun _ _ _ _ ha => absurd ha List.not_mem_nil

theorem safe_note (f : BuildState → BuildState) (h : ∀ b, Notes b (f b)) :
    Safe (modify f : Build Unit) := by
  refine safe_of_stays (always_modify fun b => (h b).stays) fun b u b' run => ?_
  rw [gives_modify] at run
  subst run
  exact (h b).space

theorem parts_safe : Parts (fun m => Safe m) where
  closed := closed_safe
  note := safe_note
  formula := closed_formulaField closed_safe safe_note fun _ _ _ _ =>
    ⟨fun b _ => path_fieldFor b, fun _ _ _ h run => (links_fieldFor h run).1.linked⟩

theorem tidying_safe : Tidying (fun m => Safe m) where
  closed := closed_safe
  edit := fun C change hchange =>
    safe_of_stays (tidying_stays.edit C change hchange) fun _ _ _ run =>
      (sameLedgers_edit C change run).space

theorem safe_blockMember (r : Rule) (φ : Formula) (key : Nat) : Safe (blockMember r φ key) where
  path := fun b _ => path_blockMember r φ key b
  keeps := by
    intro b n b' h run
    obtain ⟨b₁, hlinks, -, hrecord⟩ := links_blockMember h run
    exact (closed_recordField parts_safe r n).keeps b₁ () b' hlinks.linked hrecord

theorem blockParts_safe : BlockParts (fun m => Safe m) where
  toParts := parts_safe
  table := fun part =>
    ⟨fun _ h => path_tableBlock h part, fun _ _ _ h run => (links_tableBlock h run).1.linked⟩
  member := safe_blockMember

/-! ## Clear links -/

/-- A step sets no link. -/
def KeepsClear (b b' : BuildState) : Prop := b.space.Unlinked → b'.space.Unlinked

theorem KeepsClear.of_eq {b b' : BuildState} (h : b'.space = b.space) : KeepsClear b b' := by
  rw [KeepsClear, h]
  exact id

theorem closed_keepsClear : Closed (fun m => Respects KeepsClear m) :=
  Chained.respects ⟨fun _ => id, fun h h' => h' ∘ h⟩

theorem keepsClear_fieldFor {φ : Formula} {type : Except BuildError FieldType} {make : Naming} :
    Respects KeepsClear (fieldFor C φ type make) :=
  fun _ _ _ run => .of_eq (fieldFor_cases run).1.space

theorem keepsClear_directField (r : Rule) : Respects KeepsClear (directField r) := by
  refine closed_keepsClear.bind (closed_keepsClear.record _) fun c =>
    closed_keepsClear.bind closed_keepsClear.get fun b =>
      closed_keepsClear.bind (closed_keepsClear.lift _) ?_
  rintro ⟨existing, c'⟩
  refine closed_keepsClear.bind (always_modify fun _ => .of_eq rfl).respects fun _ => ?_
  cases existing with
  | some name =>
    exact closed_keepsClear.bind (always_modify fun _ => .of_eq rfl).respects fun _ =>
      closed_keepsClear.pure _
  | none =>
    exact closed_keepsClear.bind closed_keepsClear.get fun _ =>
      closed_keepsClear.bind (closed_keepsClear.lift _) fun _ => keepsClear_fieldFor

theorem keepsClear_note (f : BuildState → BuildState) (h : ∀ b, Notes b (f b)) :
    Respects KeepsClear (modify f : Build Unit) :=
  (always_modify fun b => .of_eq (h b).space).respects

theorem readyParts_keepsClear : ReadyParts (fun m => Respects KeepsClear m) where
  closed := closed_keepsClear
  note := keepsClear_note
  formula := closed_formulaField closed_keepsClear keepsClear_note fun _ _ _ _ => keepsClear_fieldFor
  direct := keepsClear_directField
  move := fun _ _ _ _ _ run => .of_eq (sameLedgers_edit _ _ run).space
  count := fun rules => (always_modify fun b hb =>
    Space.unlinked_of_reset (Space.resetUses_countUses b.space rules) hb).respects
  bindTo := fun _ _ => (always_modify fun _ hb => hb).respects

/-! ## Whole builds -/

/-- Before the candidates the links are clear, and so they are right. -/
theorem linked_prepare (h : b.Accounted) (hclear : b.space.Unlinked) {o : Options} {mode : Mode}
    {rules : List Rule} {u : Unit} (hrun : (prepare o mode rules).Gives b u b') : Linked b' := by
  have hpath := closed_prepare firstParts_path.toReadyParts o mode rules
  have h' : b'.Accounted := h.of_path (hpath.respects hrun)
  exact linked_of_unlinked (fun _ _ => h'.entity_of_class) h'.indexes
    (closed_prepare readyParts_keepsClear o mode rules hrun hclear)

theorem path_realize (h : b.Accounted) (hclear : b.space.Unlinked) (o : Options)
    (rules : List Rule) : Path b ((realize o rules).run b).2 := by
  have hcheck := closed_checkInterrupt parts_path
  unfold realize
  split
  · exact closed_path.bind (closed_candidates closed_path hcheck rules [] fun r _ new =>
      closed_directCandidate closed_path path_directField firstParts_path.mark new r)
        (fun _ => closed_markNew closed_path firstParts_path.mark _) b
  · have hfirst := closed_prepare firstParts_path.toReadyParts o (Mode.ofOptions o) rules
    refine chained_path.run_bind (hfirst b) fun _ b₁ hprepare => ?_
    have hlinked := linked_prepare h hclear hprepare
    have hcandidates := closed_candidates (o := o) parts_safe.closed
      (closed_checkInterrupt parts_safe) rules [] fun r _ new =>
      closed_sharedCandidate blockParts_safe tidying_safe.mark o (Mode.ofOptions o) new r
    exact chained_path.run_bind (hcandidates.path b₁ hlinked) fun _ b₂ _ =>
      closed_markNew closed_path firstParts_path.mark _ b₂

theorem path_complete (h : b.Accounted) (hclear : b.space.Unlinked) (o : Options)
    (rules : List Rule) : Path b ((complete o rules).run b).2 := by
  have layout : ∀ new, Always Path (do
      arrangeFields (NewFields.paths new)
      if Mode.ofOptions o == .sparse then arrangeBlocks) := by
    intro new
    refine closed_path.bind (stays_arrangeFields _).path fun _ => ?_
    split
    · exact stays_arrangeBlocks.path
    · exact closed_path.pure _
  have costs : Always Path (do
      modify fun b : BuildState => { b with schema := o.annotate b.schema }
      lift (← get).schema.compile : Build Unit) :=
    closed_path.bind (path_modify (grows_annotate o)) fun _ =>
      closed_path.bind closed_path.get fun _ => closed_path.lift _
  refine chained_path.run_bind (chained_path.run_bind (path_realize h hclear o rules) fun new b₁ _ => layout new b₁) ?_
  exact fun _ b₂ _ => costs b₂

end Build

section Whole

open BuildState

variable {schema : Schema} (catalogue : Catalogue) (o : Options) (space : Space) (rules : List Rule)
variable (interrupt : Interrupt)

/-- On a schema that compiles a build in any mode goes step by step wherever it gets, and after
every step registry and schema are in step and nothing has been created twice. -/
theorem build_in_step (hschema : schema.compile = .ok ()) :
    Path (start catalogue o schema space interrupt)
        (runBuild catalogue o schema space rules interrupt).2 ∧
      ∀ b, Path (start catalogue o schema space interrupt) b → b.InStep ∧ b.NoRepeats := by
  have hstart := accounted_start catalogue o space interrupt hschema
  refine ⟨Build.path_complete hstart (Space.unlinked_clearLinks space) o rules, fun b hpath => ?_⟩
  have hstep := (hstart.of_path hpath).inStep
  exact ⟨hstep, hstep.noRepeats⟩

end Whole

namespace EarlyOrders

/-- The mean day of the early orders, as a member of a block over the block of their parts. -/
def sparseBuild : Except BuildError Unit × BuildState :=
  runBuild .default { Options.default with sparse := true } schema space [yearDay, mean] .never

end EarlyOrders

open EarlyOrders BuildState in
/-- The mean of the early orders takes two new blocks and three new fields, and all of them are
in step. -/
theorem earlyMean_in_step :
    schema.compile = .ok () ∧ sparseBuild.1 = .ok () ∧
      sparseBuild.2.createdBlocks =
        [ ⟨"Customer", "TablePartition(Orders) per date.YearDay(2)"⟩,
          ⟨"Customer", "Mean(Orders.date.YearDay) per date.YearDay(2)"⟩ ] ∧
      sparseBuild.2.createdFields.length = 3 ∧ sparseBuild.2.InStep ∧ sparseBuild.2.NoRepeats := by
  have hcompile : schema.compile = .ok () := eq_ok_of_isOk (by decide +kernel)
  have hbuild : sparseBuild.1.isOk = true := by decide +kernel
  have hblocks : sparseBuild.2.createdBlocks =
      [ ⟨"Customer", "TablePartition(Orders) per date.YearDay(2)"⟩,
        ⟨"Customer", "Mean(Orders.date.YearDay) per date.YearDay(2)"⟩ ] := by decide +kernel
  have hfields : sparseBuild.2.createdFields.length = 3 := by decide +kernel
  have hsteps := build_in_step .default { Options.default with sparse := true } space
    [yearDay, mean] .never hcompile
  have hpath : Path (start .default { Options.default with sparse := true } schema space .never)
      sparseBuild.2 := hsteps.1
  exact ⟨hcompile, eq_ok_of_isOk hbuild, hblocks, hfields, hsteps.2 _ hpath⟩

end FeatureSynth
