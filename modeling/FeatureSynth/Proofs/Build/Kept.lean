/-
# What was there is kept

Fields and blocks are added to a schema, marked and moved; nothing else is done to it.
That the fields that were there are kept is seen step by step, and so is their order, as
far as they are stored.  For the order it takes an invariant: what was created is not
stored.  Then nothing that is moved is, be it a created field, a block, or the descriptor
of a partition, which has a formula.
-/
import FeatureSynth.Proofs.Build.Creation
import FeatureSynth.Proofs.Build.Turns
import FeatureSynth.Proofs.Schema.Later

namespace FeatureSynth

namespace BuildState

/-! ## What was created -/

/-- What was created is noted once and is in its class, the fields not being stored. -/
structure Tallied (b : BuildState) : Prop where
  fields_nodup : b.createdFields.Nodup
  blocks_nodup : b.createdBlocks.Nodup
  fields : ∀ p ∈ b.createdFields, ∃ e, b.schema.entity? p.className = some e ∧
    ∀ f ∈ e.fields, f.name = p.name → f.isStored = false
  blocks : ∀ p ∈ b.createdBlocks, ∃ e, b.schema.entity? p.className = some e ∧
    p.name ∈ e.blocks.map (·.name)

/-- The fields of every class are kept. -/
def KeepsClasses (b b' : BuildState) : Prop :=
  ∀ C e, b.schema.entity? C = some e → ∃ e', b'.schema.entity? C = some e' ∧ e.Keeps e'

/-- A step keeps the fields of every class, and what was created is noted. -/
def Conserves (b b' : BuildState) : Prop := b.Tallied → b'.Tallied ∧ b.KeepsClasses b'

/-- A class has a name. -/
def Taken (b : BuildState) (C n : String) : Prop := ∃ e, b.schema.entity? C = some e ∧ n ∈ e.names

/-- Names that are taken stay so, and no field is created under them. -/
def KeepsTaken (b b' : BuildState) : Prop :=
  ∀ C n, b.Taken C n → b'.Taken C n ∧ (⟨C, n⟩ ∈ b'.createdFields → ⟨C, n⟩ ∈ b.createdFields)

/-- A class with one more field, of a new name, and with more blocks of new names. -/
structure Enlarges (b b' : BuildState) (C : String) (e e' : Entity) (f : Field)
    (more : List Block) : Prop where
  entity : b.schema.entity? C = some e
  schema : b'.schema = b.schema.setEntity C e'
  adds : e.Adds f e'
  fresh : f.name ∉ e.names
  fields : b'.createdFields = b.noted C f.name
  blocks_eq : e'.blocks = e.blocks ++ more
  blocks_fresh : ∀ B ∈ more, B.name ∉ e.names
  blocks_nodup : (more.map (·.name)).Nodup
  blocks : b'.createdBlocks = b.createdBlocks ++ more.map fun B => ⟨C, B.name⟩

variable {b b' : BuildState} {C D n : String} {e e' : Entity}

theorem Makes.enlarges (h : Makes b b') : ∃ C e e' f more, Enlarges b b' C e e' f more := by
  cases h with
  | @field C stem e e' entity draws gains schema fields blocks =>
    have hfresh := Entity.freeName_notMem e stem
    cases gains with
    | derived t φ =>
      exact ⟨C, e, _, _, [], entity, schema, e.adds_insertField _ t φ, hfresh, fields,
        (List.append_nil _).symm, by simp, by simp, blocks.trans (List.append_nil _).symm⟩
    | member hinsert =>
      obtain ⟨-, hblocks, -⟩ := Entity.insertMember_eq_ok hinsert
      exact ⟨C, e, _, _, [], entity, schema, Entity.adds_insertMember hinsert, hfresh, fields,
        hblocks.trans (List.append_nil _).symm, by simp, by simp,
        blocks.trans (List.append_nil _).symm⟩
  | @block C stem stem' e φ t key names entity draws drawsBlock schema fields blocks =>
    exact ⟨C, e, _, _, [⟨e.freeName stem', φ⟩], entity, schema, e.adds_addBlock _ _ t key,
      Entity.freeName_notMem e stem, fields, rfl, by simpa using Entity.freeName_notMem e stem',
      by simp, blocks⟩

/-! ## One class changed -/

theorem KeepsClasses.of_entity (he : b.schema.entity? C = some e) (hname : e'.name = e.name)
    (hschema : b'.schema = b.schema.setEntity C e') (h : e.Keeps e') : b.KeepsClasses b' := by
  intro D d hd
  rw [hschema]
  by_cases hD : C = D
  · subst hD
    obtain rfl : e = d := Option.some.inj (he.symm.trans hd)
    exact ⟨e', Schema.entity?_setEntity he hname, h⟩
  · rw [Schema.entity?_setEntity_ne (hname.trans (Schema.name_of_entity? he)) hD]
    exact ⟨d, hd, .refl d⟩

theorem Taken.of_entity (h : b.Taken D n) (he : b.schema.entity? C = some e)
    (hname : e'.name = e.name) (hschema : b'.schema = b.schema.setEntity C e')
    (hnames : ∀ m ∈ e.names, m ∈ e'.names) : b'.Taken D n := by
  obtain ⟨d, hd, hn⟩ := h
  by_cases hD : C = D
  · subst hD
    obtain rfl : e = d := Option.some.inj (he.symm.trans hd)
    exact ⟨e', hschema ▸ Schema.entity?_setEntity he hname, hnames n hn⟩
  · refine ⟨d, ?_, hn⟩
    rw [hschema, Schema.entity?_setEntity_ne (hname.trans (Schema.name_of_entity? he)) hD]
    exact hd

theorem HasField.iff_of_entity {P Q : Field → Prop} (he : b.schema.entity? C = some e)
    (hname : e'.name = e.name) (hschema : b'.schema = b.schema.setEntity C e')
    (hsame : C = D → ((∃ f ∈ e'.fields, P f) ↔ ∃ f ∈ e.fields, Q f)) (hother : C ≠ D → P = Q) :
    b'.HasField D P ↔ b.HasField D Q := by
  rw [HasField, HasField, hschema]
  by_cases hD : C = D
  · subst hD
    rw [Schema.entity?_setEntity he hname, he]
    simpa using hsame rfl
  · rw [Schema.entity?_setEntity_ne (hname.trans (Schema.name_of_entity? he)) hD, hother hD]

theorem mem_noted {p : FieldPath} : p ∈ b.noted C n ↔ p ∈ b.createdFields ∨ p = ⟨C, n⟩ := by
  unfold noted
  split
  · rename_i hcreated
    have hmem : ⟨C, n⟩ ∈ b.createdFields := by simpa [isCreated] using hcreated
    exact ⟨.inl, fun h => h.elim id fun h => h ▸ hmem⟩
  · simp

theorem nodup_noted (h : b.createdFields.Nodup) : (b.noted C n).Nodup := by
  unfold noted
  split
  · exact h
  · rename_i hnew
    exact h.append (List.nodup_singleton _) (by simpa [isCreated] using hnew)

namespace Enlarges

variable {f : Field} {more : List Block}

theorem entity?_same (hmade : Enlarges b b' C e e' f more) : b'.schema.entity? C = some e' := by
  rw [hmade.schema]
  exact Schema.entity?_setEntity hmade.entity hmade.adds.name_eq

theorem entity?_other (hmade : Enlarges b b' C e e' f more) (hD : C ≠ D) :
    b'.schema.entity? D = b.schema.entity? D := by
  rw [hmade.schema]
  exact Schema.entity?_setEntity_ne
    (hmade.adds.name_eq.trans (Schema.name_of_entity? hmade.entity)) hD

theorem nodup_blocks (hmade : Enlarges b b' C e e' f more) (h : b.Tallied) :
    b'.createdBlocks.Nodup := by
  rw [hmade.blocks]
  refine h.blocks_nodup.append ?_ ?_
  · have hpaths : (more.map (·.name)).map (FieldPath.mk C) = more.map fun B => ⟨C, B.name⟩ := by
      rw [List.map_map]
      rfl
    rw [← hpaths]
    exact hmade.blocks_nodup.map fun _ _ heq => (FieldPath.mk.inj heq).2
  · rintro p hold hnew
    obtain ⟨B, hB, rfl⟩ := List.mem_map.mp hnew
    obtain ⟨d, hd, hmem⟩ := h.blocks _ hold
    obtain rfl : e = d := Option.some.inj (hmade.entity.symm.trans hd)
    exact hmade.blocks_fresh B hB (List.mem_append_right _ hmem)

/-- The field is stored nowhere, and no field of its name was there before. -/
theorem unstored (hmade : Enlarges b b' C e e' f more) (h : b.Tallied) {p : FieldPath}
    (hp : p ∈ b'.createdFields) : ∃ e, b'.schema.entity? p.className = some e ∧
      ∀ g ∈ e.fields, g.name = p.name → g.isStored = false := by
  obtain ⟨D, n⟩ := p
  rw [hmade.fields, mem_noted] at hp
  by_cases hD : C = D
  · subst hD
    refine ⟨e', hmade.entity?_same, fun g hg hname => ?_⟩
    rcases hmade.adds.mem_iff.mp hg with hold | rfl
    · rcases hp with hp | hp
      · obtain ⟨d, hd, hstored⟩ := h.fields _ hp
        obtain rfl : e = d := Option.some.inj (hmade.entity.symm.trans hd)
        exact hstored g hold hname
      · cases hp
        have hmem := Entity.name_mem_names hold
        rw [show g.name = f.name from hname] at hmem
        exact absurd hmem hmade.fresh
    · exact hmade.adds.unstored
  · rw [hmade.entity?_other hD]
    rcases hp with hp | hp
    · exact h.fields _ hp
    · cases hp
      exact absurd rfl hD

theorem has_block (hmade : Enlarges b b' C e e' f more) (h : b.Tallied) {p : FieldPath}
    (hp : p ∈ b'.createdBlocks) : ∃ e, b'.schema.entity? p.className = some e ∧
      p.name ∈ e.blocks.map (·.name) := by
  obtain ⟨D, n⟩ := p
  rw [hmade.blocks] at hp
  by_cases hD : C = D
  · subst hD
    refine ⟨e', hmade.entity?_same, ?_⟩
    rw [hmade.blocks_eq, List.map_append]
    rcases List.mem_append.mp hp with hp | hp
    · obtain ⟨d, hd, hmem⟩ := h.blocks _ hp
      obtain rfl : e = d := Option.some.inj (hmade.entity.symm.trans hd)
      exact List.mem_append_left _ hmem
    · obtain ⟨B, hB, heq⟩ := List.mem_map.mp hp
      cases heq
      exact List.mem_append_right _ (List.mem_map_of_mem hB)
  · rw [hmade.entity?_other hD]
    rcases List.mem_append.mp hp with hp | hp
    · exact h.blocks _ hp
    · obtain ⟨B, -, heq⟩ := List.mem_map.mp hp
      cases heq
      exact absurd rfl hD

end Enlarges

theorem Tallied.of_enlarges {f : Field} {more : List Block} (h : b.Tallied)
    (hmade : Enlarges b b' C e e' f more) : b'.Tallied where
  fields_nodup := hmade.fields ▸ nodup_noted h.fields_nodup
  blocks_nodup := hmade.nodup_blocks h
  fields _ hp := hmade.unstored h hp
  blocks _ hp := hmade.has_block h hp

/-- Marks and moves make nothing. -/
theorem Tallied.of_edit (h : b.Tallied) (he : b.schema.entity? C = some e)
    (hname : e'.name = e.name) (hcores : e'.cores.Perm e.cores)
    (hblocks : e'.blocks.Perm e.blocks) :
    Tallied { b with schema := b.schema.setEntity C e' } where
  fields_nodup := h.fields_nodup
  blocks_nodup := h.blocks_nodup
  fields := by
    intro p hp
    obtain ⟨d, hd, hstored⟩ := h.fields p hp
    by_cases hD : C = p.className
    · obtain rfl : e = d := Option.some.inj (he.symm.trans (hD ▸ hd))
      refine ⟨e', hD ▸ Schema.entity?_setEntity he hname, fun f hf hname => ?_⟩
      obtain ⟨g, hg, hcore⟩ := Entity.mem_cores.mp (hcores.mem_iff.mp (Entity.core_mem_cores hf))
      rw [← f.isStored_core, ← hcore]
      refine hstored g hg (Eq.trans ?_ hname)
      rw [← g.core_name, hcore, f.core_name]
    · exact ⟨d, (Schema.entity?_setEntity_ne (hname.trans (Schema.name_of_entity? he)) hD).trans hd,
        hstored⟩
  blocks := by
    intro p hp
    obtain ⟨d, hd, hmem⟩ := h.blocks p hp
    by_cases hD : C = p.className
    · obtain rfl : e = d := Option.some.inj (he.symm.trans (hD ▸ hd))
      exact ⟨e', hD ▸ Schema.entity?_setEntity he hname, ((hblocks.map _).mem_iff).mpr hmem⟩
    · exact ⟨d, (Schema.entity?_setEntity_ne (hname.trans (Schema.name_of_entity? he)) hD).trans hd,
        hmem⟩

theorem Tallied.of_eq (h : b.Tallied) (hschema : b'.schema = b.schema)
    (hfields : b'.createdFields = b.createdFields) (hblocks : b'.createdBlocks = b.createdBlocks) :
    b'.Tallied where
  fields_nodup := hfields ▸ h.fields_nodup
  blocks_nodup := hblocks ▸ h.blocks_nodup
  fields := by
    rw [hfields, hschema]
    exact h.fields
  blocks := by
    rw [hblocks, hschema]
    exact h.blocks

end BuildState

namespace Build

open BuildState

variable {o : Options} {b b₀ b' : BuildState} {new laid : NewFields} {turns : List (Rule × String)}
variable {rules : List Rule} {u : Unit} {C : String}

/-! ## What is kept -/

theorem making_conserves : Making Conserves where
  refl := fun b h => ⟨h, fun _ e he => ⟨e, he, .refl e⟩⟩
  trans := by
    intro b₁ b₂ b₃ h h' h₁
    obtain ⟨h₂, hkeeps⟩ := h h₁
    obtain ⟨h₃, hkeeps'⟩ := h' h₂
    refine ⟨h₃, fun C e he => ?_⟩
    obtain ⟨e₂, he₂, hee₂⟩ := hkeeps C e he
    obtain ⟨e₃, he₃, he₂e₃⟩ := hkeeps' C e₂ he₂
    exact ⟨e₃, he₃, hee₂.trans he₂e₃⟩
  still := fun hstill h =>
    ⟨h.of_eq hstill.schema hstill.fields hstill.blocks, fun C e he =>
      ⟨e, by rw [hstill.schema, he], .refl e⟩⟩
  makes := fun hmakes h => by
    obtain ⟨C, e, e', f, more, hmade⟩ := hmakes.enlarges
    exact ⟨h.of_enlarges hmade,
      .of_entity hmade.entity hmade.adds.name_eq hmade.schema hmade.adds.keeps⟩

/-- A mark or a move that keeps the fields of its class. -/
theorem conserves_edit {change : Entity → Except BuildError Entity} (hchange : Tidies change)
    (hrun : (edit C change).Gives b u b')
    (h : ∀ e e', b.Tallied → b.schema.entity? C = some e → change e = .ok e' → e.Keeps e') :
    Conserves b b' := by
  intro hb
  obtain ⟨e, e', he, hok, rfl⟩ := gives_edit.mp hrun
  obtain ⟨hname, hcores, hblocks⟩ := hchange e e' hok
  exact ⟨hb.of_edit he hname hcores hblocks, .of_entity he hname rfl (h e e' hb he hok)⟩

theorem conserves_mark (C name : String) (cost : Float) :
    Respects Conserves (markCandidate C name cost) := by
  intro b u b' hrun
  refine conserves_edit (tidies_mark C name cost) hrun fun e e' _ _ hok => ?_
  split at hok
  · cases hok
    exact e.keeps_modifyField (Field.later_mark cost) name
  · cases hok

theorem conserves_moveBlock (C block : String) : Respects Conserves (moveBlock C block) := by
  intro b u b' hrun
  refine conserves_edit (moves_moveBlock block).tidies hrun fun e e' _ _ hok => ?_
  cases hok
  exact (e.keeps_moveBlockToTail block).trans (Entity.keeps_sortBlock _ block)

/-- Created fields are moved: the stored ones keep their order. -/
theorem conserves_moveFields : ∀ {paths moved : List FieldPath} {b : BuildState},
    (∀ p ∈ paths, p ∈ b.createdFields) → (moveFields moved paths).Gives b u b' → Conserves b b'
  | [], moved, b, _, hrun => by
      rw [moveFields, gives_pure] at hrun
      rw [hrun.2]
      exact making_conserves.refl b
  | p :: rest, moved, b, hpaths, hrun => by
      have hrest : ∀ q ∈ rest, q ∈ b.createdFields :=
        fun q hq => hpaths q (List.mem_cons_of_mem _ hq)
      simp only [moveFields, gives_entity_bind] at hrun
      obtain ⟨e, he, hrun⟩ := hrun
      split at hrun
      · exact conserves_moveFields hrest hrun
      · obtain ⟨_, b₁, hmove, hrun⟩ := gives_bind.mp hrun
        have hstep : Conserves b b₁ := by
          refine conserves_edit (moves_moveField p.name).tidies hmove fun e e' hb he hok => ?_
          cases hok
          obtain ⟨d, hd, hstored⟩ := hb.fields p (hpaths p List.mem_cons_self)
          obtain rfl : e = d := Option.some.inj (he.symm.trans hd)
          exact Entity.keeps_moveFieldToTail hstored
        obtain ⟨_, _, -, -, rfl⟩ := gives_edit.mp hmove
        exact making_conserves.trans hstep (conserves_moveFields hrest hrun)

theorem mem_ledgerFields {p : FieldPath} (hp : p ∈ ledgerFields b) : p ∈ b.createdFields := by
  obtain ⟨⟨r, name⟩, -, hp⟩ := List.mem_filterMap.mp hp
  obtain ⟨n, -, hn⟩ := Option.bind_eq_some_iff.mp hp
  split at hn
  · rename_i hcreated
    cases hn
    simpa [isCreated] using hcreated
  · cases hn

/-- A created field of the class of an entry that names it. -/
theorem mem_ledgerFields_of_entry {x : Rule} {n : String} (hx : (x, some n) ∈ b.fieldOf.entries)
    (hcreated : ⟨x.className, n⟩ ∈ b.createdFields) : ⟨x.className, n⟩ ∈ ledgerFields b := by
  have hcreated : b.isCreated x.className n = true := by simpa [isCreated] using hcreated
  exact List.mem_filterMap.mpr ⟨(x, some n), hx, if_pos hcreated⟩

theorem conserves_arrangeFields {paths : List FieldPath} (hpaths : ∀ p ∈ paths, p ∈ b.createdFields)
    (hrun : (arrangeFields paths).Gives b u b') : Conserves b b' := by
  simp only [arrangeFields, gives_get_bind] at hrun
  refine conserves_moveFields (fun p hp => ?_) hrun
  exact (List.mem_append.mp hp).elim (hpaths p) mem_ledgerFields

theorem conserves_bindDimensions (o : Options) : Respects Conserves (bindDimensions o) := by
  intro b u b' hrun
  simp only [bindDimensions, gives_get_bind] at hrun
  obtain ⟨_, b₁, hbind, hrun⟩ := gives_bind.mp hrun
  rw [gives_get_bind] at hrun
  have hbound : Conserves b b₁ := making_conserves.closed.forM
    (fun rank _ => closed_bindDimension making_conserves.bindParts o rank) hbind
  exact making_conserves.trans hbound
    (conserves_arrangeFields (fun p hp => List.mem_of_mem_drop hp) hrun)

theorem Making.ready {R : BuildState → BuildState → Prop} (hR : Making R)
    (hbind : Respects R (bindDimensions o)) : Respects R (ready o rules) := by
  unfold Build.ready
  split
  · exact hR.closed.pure _
  · unfold prepare
    refine hR.closed.bind (hR.change fun _ => ⟨rfl, rfl, rfl, rfl⟩) fun _ =>
      hR.closed.bind hbind fun _ => hR.closed.forM fun r _ =>
        hR.closed.bind (hR.note _ fun _ => rfl) fun _ => ?_
    split
    · exact hR.note _ fun _ => rfl
    · exact hR.closed.pure _

theorem conserves_ready (o : Options) (rules : List Rule) : Respects Conserves (ready o rules) :=
  making_conserves.ready (conserves_bindDimensions o)

theorem Turns.conserves (h : Turns o b₀ turns new b) : Conserves b₀ b :=
  h.respects making_conserves.toChained (closed_checkInterrupt making_conserves.blockParts.toParts)
    (fun r => making_conserves.blockParts.members.candidateField
      (fun _ => making_conserves.directField r) trivial) conserves_mark

/-! ### Names -/

theorem making_keepsTaken : Making KeepsTaken where
  refl := fun _ _ _ h => ⟨h, id⟩
  trans := by
    intro b₁ b₂ b₃ h h' C n hn
    obtain ⟨hn₂, hold⟩ := h C n hn
    obtain ⟨hn₃, hold'⟩ := h' C n hn₂
    exact ⟨hn₃, hold ∘ hold'⟩
  still := by
    intro b b' hstill C n hn
    rw [Taken, hstill.schema, hstill.fields]
    exact ⟨hn, id⟩
  makes := by
    intro b b' hmakes D n hn
    obtain ⟨C, e, e', f, more, hmade⟩ := hmakes.enlarges
    refine ⟨hn.of_entity hmade.entity hmade.adds.name_eq hmade.schema fun m hm => ?_,
      fun hcreated => ?_⟩
    · rcases List.mem_append.mp hm with hm | hm
      · obtain ⟨g, hg, rfl⟩ := List.mem_map.mp hm
        exact Entity.name_mem_names (hmade.adds.mem_iff.mpr (.inl hg))
      · rw [Entity.names, hmade.blocks_eq, List.map_append]
        exact List.mem_append_right _ (List.mem_append_left _ hm)
    · rw [hmade.fields, mem_noted] at hcreated
      refine hcreated.resolve_right fun heq => ?_
      obtain ⟨rfl, rfl⟩ := FieldPath.mk.inj heq
      obtain ⟨d, hd, hmem⟩ := hn
      obtain rfl : e = d := Option.some.inj (hmade.entity.symm.trans hd)
      exact hmade.fresh hmem

theorem tidying_keepsTaken : Tidying (fun m => Respects KeepsTaken m) where
  closed := making_keepsTaken.closed
  edit := by
    intro C change hchange b u b' hrun D n hn
    obtain ⟨e, e', he, hok, rfl⟩ := gives_edit.mp hrun
    obtain ⟨hname, hcores, hblocks⟩ := hchange e e' hok
    refine ⟨hn.of_entity he hname rfl fun m hm => ?_, id⟩
    exact (Entity.names_of_perm hcores hblocks).mem_iff.mpr hm

/-! ### Blocks in order -/

theorem Safe.respects {α : Type} {m : Build α} (h : Safe m) :
    Respects (fun b b' => Linked b → Linked b') m :=
  fun b a b' hrun hb => h.keeps b a b' hb hrun

/-- Where fields are shared links are right before the candidates, and after each. -/
theorem Turns.linked (hmode : Mode.ofOptions o ≠ .standard) (h : Turns o b₀ turns new b) :
    Linked b₀ → Linked b :=
  h.respects (R := fun b b' => Linked b → Linked b') ⟨fun _ => id, fun h h' => h' ∘ h⟩
    (closed_checkInterrupt parts_safe).respects
    (fun _ => (blockParts_safe.members.candidateField (absurd · hmode) trivial).respects)
    fun C name cost => (tidying_safe.mark C name cost).respects

/-- The descriptor of a partition has a formula. -/
theorem conserves_moveDescriptor {p : Partition} (hb : Linked b) (hp : p ∈ b.space.partitions)
    (hrun : (edit p.parentClass fun e => .ok (match p.descriptorField with
      | some field => e.moveFieldToTail field
      | none => e)).Gives b u b') : Conserves b b' := by
  refine conserves_edit (moves_moveDescriptor p).tidies hrun fun e e' _ he hok => ?_
  cases hok
  cases hdescriptor : p.descriptorField with
  | none => exact .refl e
  | some name =>
    refine Entity.keeps_moveFieldToTail fun f hf hname => ?_
    obtain ⟨φ, hφ⟩ := hb.formula_of_descriptor hp hdescriptor he hf hname
    exact Field.not_isStored_of_formula hφ

theorem conserves_movePartition {p : Partition} (hb : Linked b) (hp : p ∈ b.space.partitions)
    (hrun : (movePartition p).Gives b u b') : Conserves b b' := by
  unfold movePartition at hrun
  obtain ⟨_, b₁, hmove, hrun⟩ := gives_bind.mp hrun
  refine making_conserves.trans (conserves_moveDescriptor hb hp hmove) ?_
  split at hrun
  · exact conserves_moveBlock _ _ hrun
  · exact making_conserves.closed.pure _ hrun

theorem conserves_arrangeBlocks (hb : Linked b) (hrun : arrangeBlocks.Gives b u b') :
    Conserves b b' := by
  simp only [arrangeBlocks, gives_get_bind] at hrun
  obtain ⟨_, b₁, hblocks, hpartitions⟩ := gives_bind.mp hrun
  -- links and space are as they were at every partition
  let P : BuildState → Prop := fun s => Conserves b s ∧ Linked s ∧ s.space = b.space
  have hstart : P b := ⟨making_conserves.refl b, hb, rfl⟩
  have hstep : ∀ {m : Build Unit} {s s' : BuildState} {v : Unit}, P s → m.Gives s v s' → Safe m →
      Respects SameLedgers m → (Linked s → Conserves s s') → P s' := by
    intro m s s' v hs hm hsafe hsame hconserves
    exact ⟨making_conserves.trans hs.1 (hconserves hs.2.1), hsafe.respects hm hs.2.1,
      (hsame hm).space.trans hs.2.2⟩
  have hfirst : P b₁ := gives_forM_induct P (fun x _ s s' hs hm => hstep hs hm
    (tidying_safe.moving.moveBlock _ _) (tidying_sameLedgers.moving.moveBlock _ _)
      fun _ => conserves_moveBlock _ _ hm) hstart hblocks
  refine (gives_forM_induct P (fun p hp s s' hs hm => hstep hs hm ?_ ?_ fun hlinked => ?_) hfirst
    hpartitions).1
  · exact closed_movePartition closed_safe (fun p => tidying_safe.moving.edit _ _
      (moves_moveDescriptor p)) tidying_safe.moving.moveBlock p
  · exact closed_movePartition tidying_sameLedgers.closed (fun p =>
      tidying_sameLedgers.moving.edit _ _ (moves_moveDescriptor p))
      tidying_sameLedgers.moving.moveBlock p
  · refine conserves_movePartition hlinked ?_ hm
    obtain ⟨rank, -, hp⟩ := List.mem_filterMap.mp hp
    rw [hs.2.2]
    exact List.mem_of_getElem? hp

end Build

end FeatureSynth
