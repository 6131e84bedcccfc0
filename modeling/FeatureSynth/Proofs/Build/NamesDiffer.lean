/-
# Names that differ

Every name is made free of the names of its class before it is given, so one thing only
can go wrong.  A new block and its first member are both named before either is in
place, and what keeps the two apart is how they are named.  Numbers differ, and so do
readable names that say *per* of the block where they say *where* of the member.  A
value block rule over templates of dates need say neither: then block and member get one
name, and the schema that is built does not compile.

That is all: at every point of a build, of one that fails as well, names differ in every
class unless a block made is named like a field made.
-/
import FeatureSynth.Proofs.Build.Coherent
import FeatureSynth.Proofs.Build.Creation
import FeatureSynth.Proofs.Build.Path
import FeatureSynth.Proofs.Rule.BlockName
import FeatureSynth.Proofs.Schema.InOrder

namespace FeatureSynth

theorem NameSource.Draws.readable_eq {names names' : NameSource} {stem : String}
    (h : names.Draws stem names') : names'.readable = names.readable := by
  obtain ⟨x, h⟩ := h
  rcases NameSource.choose_eq_ok h with ⟨-, -, rfl⟩ | ⟨-, -, rfl⟩ <;> rfl

namespace Entity

variable {e e' : Entity} {n B : String} {φ : Formula} {t : FieldType} {key : Nat}

theorem GainsField.names_nodup (h : e.GainsField n e') (he : e.names.Nodup) (hn : n ∉ e.names) :
    e'.names.Nodup := by
  rw [h.names_perm.nodup_iff]
  exact he.append (List.nodup_singleton n) (by simpa using hn)

/-- A new block with its first member: names differ unless the two have one. -/
theorem names_addBlock_nodup (he : e.names.Nodup) (hn : n ∉ e.names) (hB : B ∉ e.names) :
    (e.addBlock ⟨B, φ⟩ (.member n t "" key)).names.Nodup ↔ n ≠ B := by
  rw [names_addBlock.nodup_iff, List.nodup_append]
  constructor
  · rintro ⟨-, hpair, -⟩
    simpa using hpair
  · intro hne
    refine ⟨he, by simpa using hne, ?_⟩
    rintro x hx y hy rfl
    rcases List.mem_cons.mp hy with rfl | hy
    · exact hn hx
    · exact hB (List.mem_singleton.mp hy ▸ hx)

end Entity

namespace BuildState

/-- No two fields or blocks of a class have one name. -/
def NamesDiffer (b : BuildState) : Prop := ∀ e ∈ b.schema.entities, e.names.Nodup

/-- Names differ, and are readable or not. -/
structure Distinct (readable : Bool) (b : BuildState) : Prop where
  kind : b.names.readable = readable
  differ : b.NamesDiffer

variable {readable : Bool} {b b' : BuildState} {C : String} {e e' : Entity}

theorem Distinct.entity (h : b.Distinct readable) (he : b.schema.entity? C = some e) :
    e.names.Nodup :=
  h.differ e (Schema.mem_of_entity? he)

/-- One class is changed. -/
theorem Distinct.of_entity (h : b.Distinct readable) (hkind : b'.names.readable = b.names.readable)
    (hschema : b'.schema = b.schema.setEntity C e') (he' : e'.names.Nodup) : b'.Distinct readable where
  kind := hkind.trans h.kind
  differ := by
    intro x hx
    rw [hschema, Schema.setEntity_eq] at hx
    rcases Schema.mem_replaceFirst hx with rfl | hx
    · exact he'
    · exact h.differ x hx

end BuildState

namespace Build

open BuildState

/-- A step keeps names apart. -/
def KeepsDistinct (readable : Bool) (b b' : BuildState) : Prop :=
  b.Distinct readable → b'.Distinct readable

/-- Stems drawn for a member and then for its block are apart. -/
def Naming.Apart (readable : Bool) (make makeBlock : Naming) : Prop :=
  ∀ ⦃s n n₁ n₂ a B⦄, n.readable = readable → make n s = .ok (a, n₁) →
    makeBlock n₁ s = .ok (B, n₂) → StemsApart a B

section Steps

variable {readable : Bool} {b b₁ b' : BuildState} {C n B : String} {φ : Formula} {t : FieldType}
variable {key : Nat} {e : Entity} {make makeBlock : Naming}

theorem chained_distinct : Chained (KeepsDistinct readable) :=
  ⟨fun _ => id, fun h h' => h' ∘ h⟩

theorem closed_distinct : Closed (fun m => Always (KeepsDistinct readable) m) :=
  chained_distinct.always

/-! ## Steps that give no name -/

/-- The schema and the kind of names are as they were. -/
theorem distinct_of_eq (hschema : b'.schema = b.schema)
    (hkind : b'.names.readable = b.names.readable) : KeepsDistinct readable b b' := fun h =>
  ⟨hkind.trans h.kind, by rw [NamesDiffer, hschema]; exact h.differ⟩

theorem distinct_modify {f : BuildState → BuildState}
    (h : ∀ b, (f b).schema = b.schema ∧ (f b).names.readable = b.names.readable) :
    Always (KeepsDistinct readable) (modify f : Build Unit) :=
  always_modify fun b => distinct_of_eq (h b).1 (h b).2

theorem distinct_note (f : BuildState → BuildState) (h : ∀ b, Notes b (f b)) :
    Always (KeepsDistinct readable) (modify f : Build Unit) :=
  distinct_modify fun b => by
    have hb := h b
    simp only [Notes, Prod.mk.injEq] at hb
    exact ⟨hb.1, by rw [hb.2.2.2.2.2]⟩

theorem distinct_noteField (C n : String) : Always (KeepsDistinct readable) (noteField C n) :=
  distinct_modify fun b => by split <;> exact ⟨rfl, rfl⟩

theorem distinct_noteBlock (C B : String) : Always (KeepsDistinct readable) (noteBlock C B) :=
  distinct_modify fun _ => ⟨rfl, rfl⟩

theorem distinct_space (f : BuildState → Space) :
    Always (KeepsDistinct readable) (modify fun b => { b with space := f b } : Build Unit) :=
  distinct_modify fun _ => ⟨rfl, rfl⟩

theorem distinct_register (C : String) (more : ClassRecord → Except BuildError ClassRecord) :
    Always (KeepsDistinct readable) (register C more) :=
  closed_distinct.bind (closed_distinct.record C) fun _ => closed_distinct.bind
    (closed_distinct.lift _) fun _ => distinct_modify fun _ => ⟨rfl, rfl⟩

theorem distinct_reuse (name : String) : Always (KeepsDistinct readable) (reuse name) :=
  closed_distinct.bind (distinct_modify fun _ => ⟨rfl, rfl⟩) fun _ => closed_distinct.pure _

theorem tidying_distinct : Tidying (fun m => Always (KeepsDistinct readable) m) where
  closed := closed_distinct
  edit := by
    intro C change hchange
    refine Respects.always ?_ chained_distinct.refl fun _ => .edit change
    intro b u b' hrun h
    obtain ⟨e, e', he, hok, rfl⟩ := gives_edit.mp hrun
    obtain ⟨-, hcores, hblocks⟩ := hchange e e' hok
    exact h.of_entity rfl rfl
      ((Entity.names_of_perm hcores hblocks).nodup_iff.mpr (h.entity he))

/-! ## Creations -/

theorem distinct_freeName (hmake : make.Drawn) (C : String) :
    Always (KeepsDistinct readable) (freeName C make) := by
  have hnext : Always (KeepsDistinct readable) (nextName make) := by
    intro b
    refine chained_distinct.get_bind (chained_distinct.lift_bind ?_)
    rintro ⟨stem, names⟩ hdraw
    exact distinct_of_eq rfl (hmake _ _ _ _ hdraw).readable_eq
  exact closed_distinct.bind hnext fun _ =>
    closed_distinct.bind (closed_distinct.entity C) fun _ => closed_distinct.pure _

/-- An edit of a class under whose conditions names go on to differ. -/
theorem distinct_edit {change : Entity → Except BuildError Entity}
    (he : b.schema.entity? C = some e)
    (h : ∀ e', e.names.Nodup → change e = .ok e' → e'.names.Nodup) :
    KeepsDistinct readable b ((edit C change).run b).2 := by
  refine chained_distinct.run_whole (.edit change) fun u b' hrun hb => ?_
  obtain ⟨e₀, e', he₀, hok, rfl⟩ := gives_edit.mp hrun
  obtain rfl : e = e₀ := Option.some.inj (he.symm.trans he₀)
  exact hb.of_entity rfl rfl (h e' (hb.entity he) hok)

theorem distinct_insertDerived (he : b.schema.entity? C = some e) (hn : n ∉ e.names) :
    KeepsDistinct readable b ((insertDerived C (.derived n t φ)).run b).2 := by
  refine chained_distinct.run_bind (distinct_register C _ b) fun _ b₁ hregister => ?_
  obtain ⟨c, c', -, -, rfl⟩ := gives_register.mp hregister
  refine chained_distinct.run_bind (distinct_edit he ?_) fun _ b₂ _ => ?_
  · intro e' hnodup hinsert
    cases hinsert
    exact Entity.GainsField.names_nodup (.derived t φ) hnodup hn
  · exact closed_distinct.bind (distinct_noteField C n) (fun _ => closed_distinct.pure _) b₂

/-- A member under a free name, of a block that is there or of one named in turn. -/
theorem distinct_insertMember {block : Option String} (hmakeBlock : makeBlock.Drawn)
    (he : b.schema.entity? C = some e) (hn : n ∉ e.names)
    (hapart : ∀ B b₁, (freeName C makeBlock).Gives b B b₁ → n ≠ B) :
    KeepsDistinct readable b
      ((insertMember C block φ (.member n t "" key) makeBlock).run b).2 := by
  have last : ∀ B, Always (KeepsDistinct readable) (do
      register C (·.registerMember φ { Field.member n t "" key with block := some B })
      noteField C n
      return B) :=
    fun B => closed_distinct.bind (distinct_register C _) fun _ =>
      closed_distinct.bind (distinct_noteField C n) fun _ => closed_distinct.pure B
  cases block with
  | some B =>
    simp only [insertMember, pure_bind]
    refine chained_distinct.run_bind (distinct_edit he ?_) fun _ b₁ _ => last B b₁
    intro e' hnodup hinsert
    exact Entity.GainsField.names_nodup (.member hinsert) hnodup hn
  | none =>
    simp only [insertMember, pure_bind]
    refine chained_distinct.run_bind (distinct_freeName hmakeBlock C b) fun B b₁ hB => ?_
    have hne := hapart B b₁ hB
    obtain ⟨stem, names, e₀, -, he₀, rfl, rfl⟩ := gives_freeName.mp hB
    obtain rfl : e = e₀ := Option.some.inj (he.symm.trans he₀)
    refine chained_distinct.run_bind (distinct_register C _ _) fun _ b₂ hregister => ?_
    obtain ⟨c, c', -, -, rfl⟩ := gives_register.mp hregister
    refine chained_distinct.run_bind (distinct_edit he ?_) fun _ b₃ _ => ?_
    · intro e' hnodup hadd
      cases hadd
      exact (Entity.names_addBlock_nodup hnodup hn (Entity.freeName_notMem e stem)).mpr hne
    · exact closed_distinct.bind (distinct_noteBlock C _) (fun _ => last _) b₃

/-- The same for a name just drawn. -/
theorem distinct_newMember {block : Option String} (hmake : make.Drawn)
    (hmakeBlock : makeBlock.Drawn) (hapart : make.Apart readable makeBlock)
    (hname : (freeName C make).Gives b n b₁) :
    KeepsDistinct readable b₁
      ((insertMember C block φ (.member n t "" key) makeBlock).run b₁).2 := by
  intro h
  obtain ⟨stem, names, e, hdraw, he, rfl, rfl⟩ := gives_freeName.mp hname
  have hkind : b.names.readable = readable :=
    (hmake _ _ _ _ hdraw).readable_eq.symm.trans h.kind
  refine distinct_insertMember (b := { b with names }) hmakeBlock he (Entity.freeName_notMem e stem)
    (fun B b₂ hB => ?_) h
  obtain ⟨stem', names', e', hdraw', -, rfl, rfl⟩ := gives_freeName.mp hB
  exact hapart hkind hdraw hdraw' e e'

/-! ## Fields and members -/

theorem distinct_fieldFor {type : Except BuildError FieldType} (hmake : make.Drawn) :
    Always (KeepsDistinct readable) (fieldFor C φ type make) := by
  intro b
  refine chained_distinct.record_bind fun c _ => ?_
  split
  · exact distinct_reuse _ b
  · refine chained_distinct.run_bind (distinct_freeName hmake C b) fun name b₁ hname =>
      chained_distinct.lift_bind fun t _ => ?_
    obtain ⟨stem, names, e, -, he, rfl, rfl⟩ := gives_freeName.mp hname
    exact distinct_insertDerived (b := { b with names }) he (Entity.freeName_notMem e stem)

theorem distinct_directField (r : Rule) : Always (KeepsDistinct readable) (directField r) := by
  refine closed_distinct.bind (closed_distinct.record _) fun c =>
    closed_distinct.bind closed_distinct.get fun b => closed_distinct.bind (closed_distinct.lift _) ?_
  rintro ⟨existing, c'⟩
  refine closed_distinct.bind (distinct_modify fun _ => ⟨rfl, rfl⟩) fun _ => ?_
  cases existing with
  | some name => exact distinct_reuse name
  | none =>
    exact closed_distinct.bind closed_distinct.get fun _ => closed_distinct.bind
      (closed_distinct.lift _) fun _ => distinct_fieldFor (Making.drawn_ofRule r false)

theorem distinct_partition (rank : Nat) : Always (KeepsDistinct readable) (partition rank) := by
  refine closed_distinct.bind closed_distinct.get fun b => ?_
  split
  · exact closed_distinct.pure _
  · exact closed_distinct.lift _

theorem distinct_descriptorField (rank : Nat) :
    Always (KeepsDistinct readable) (descriptorField rank) := by
  unfold descriptorField
  refine closed_distinct.bind (distinct_partition rank) fun p => ?_
  split
  · exact closed_distinct.pure _
  · refine closed_distinct.bind closed_distinct.get fun b =>
      closed_distinct.bind (closed_distinct.lift _) ?_
    rintro ⟨ψ, space⟩
    exact closed_distinct.bind (distinct_space _) fun _ =>
      closed_distinct.bind (distinct_fieldFor fun _ _ _ _ h => ⟨_, h⟩) fun _ =>
        closed_distinct.bind (distinct_space _) fun _ => closed_distinct.pure _

theorem distinct_tableBlock (part : Part) :
    Always (KeepsDistinct readable) (tableBlock part) := by
  intro b
  unfold tableBlock
  refine chained_distinct.run_bind (distinct_descriptorField _ b) fun _ b₁ _ => ?_
  refine chained_distinct.get_bind (chained_distinct.lift_bind fun ψ _ =>
    chained_distinct.lift_bind fun key _ => ?_)
  refine chained_distinct.run_bind (distinct_partition _ b₁) fun p b₂ _ => ?_
  refine chained_distinct.record_bind fun c _ => ?_
  have last : ∀ block, Always (KeepsDistinct readable) (do
      modifyPartition part.partition fun p => { p with tableBlock := some block }
      return block) :=
    fun _ => closed_distinct.bind (distinct_space _) fun _ => closed_distinct.pure _
  dsimp only
  split
  · exact last _ b₂
  · have hpart : Naming.Drawn (·.ofPart · part) := fun _ _ _ _ h => ⟨_, h⟩
    have hblock : Naming.Drawn (·.ofTableBlock · part.partition) := fun _ _ _ _ h => ⟨_, h⟩
    have hapart : Naming.Apart readable (·.ofPart · part) (·.ofTableBlock · part.partition) :=
      fun _ _ _ _ _ _ _ hdraw hdraw' => stemsApart_part _ _ part hdraw hdraw'
    refine chained_distinct.run_bind (distinct_freeName hpart _ b₂) fun name b₃ hname => ?_
    exact chained_distinct.run_bind (distinct_newMember hpart hblock hapart hname)
      fun B b₄ _ => last B b₄

theorem distinct_blockMember {r : Rule} (htells : readable = true → r.tellsBlock = true)
    (ψ : Formula) (key : Nat) : Always (KeepsDistinct readable) (blockMember r ψ key) := by
  intro b
  refine chained_distinct.record_bind fun c _ => ?_
  have last : ∀ name, Always (KeepsDistinct readable) (do
      recordField r name
      return name) :=
    fun _ => closed_distinct.bind (distinct_note _ fun _ => rfl) fun _ => closed_distinct.pure _
  have noted : ∀ B name, Always (KeepsDistinct readable) (do
      modify fun b => { b with blockOf := b.blockOf.update b.space.compareBlock r B }
      recordField r name
      return name) :=
    fun _ name => closed_distinct.bind (distinct_note _ fun _ => rfl) fun _ => last name
  dsimp only
  split
  · exact chained_distinct.run_bind (distinct_reuse _ b) fun name b₁ _ => last name b₁
  · have hrule := Making.drawn_ofRule r
    have hapart : Naming.Apart readable (·.ofRule · r false) (·.ofRule · r true) :=
      fun _ _ _ _ _ _ hkind hdraw hdraw' =>
        stemsApart_rule _ _ (fun hreadable => htells (hkind ▸ hreadable)) hdraw hdraw'
    refine chained_distinct.run_bind (distinct_freeName (hrule false) _ b) fun name b₁ hname =>
      chained_distinct.lift_bind fun type _ => ?_
    refine chained_distinct.run_bind
      (distinct_newMember (hrule false) (hrule true) hapart hname) fun B b₂ _ => ?_
    exact noted B name b₂

end Steps

/-! ## Programs -/

section Programs

variable {readable : Bool} {rules : List Rule}

theorem distinct_formulaField (r : Rule) (φ : Formula) :
    Always (KeepsDistinct readable) (formulaField r φ) :=
  closed_distinct.bind (distinct_fieldFor (Making.drawn_ofRule r false)) fun _ =>
    closed_distinct.bind (distinct_note _ fun _ => rfl) fun _ => closed_distinct.pure _

theorem memberParts_distinct (htells : readable = true →
    ∀ x, Rule.Within rules x → x.isBlockRule = true → x.tellsBlock = true) :
    MemberParts (Rule.Within rules) (fun m => Always (KeepsDistinct readable) m) where
  closed := closed_distinct
  hereditary := Rule.hereditary_within rules
  formula := fun r φ _ => distinct_formulaField r φ
  table := distinct_tableBlock
  member := fun r φ key hr hsort =>
    distinct_blockMember (fun h => htells h r hr (Rule.isBlockRule_of_classify hsort)) φ key

theorem firstParts_distinct : FirstParts (fun m => Always (KeepsDistinct readable) m) where
  closed := closed_distinct
  note := distinct_note
  formula := distinct_formulaField
  mark := tidying_distinct.mark
  direct := distinct_directField
  bindTo := fun _ _ => distinct_space _
  move := tidying_distinct.moving.moveField
  count := fun _ => distinct_space _

theorem names_annotate (o : Options) {s : Schema} {e : Entity} (he : e ∈ (o.annotate s).entities) :
    ∃ e₀ ∈ s.entities, e.names = e₀.names := by
  obtain ⟨e₀, he₀, rfl⟩ := List.mem_map.mp he
  refine ⟨e₀, he₀, ?_⟩
  simp only [Entity.names, List.map_map]
  congr 1
  refine List.map_congr_left fun f _ => ?_
  simpa using congrArg Field.name (core_annotateField o _ f)

theorem distinct_complete (htells : readable = true →
    ∀ x, Rule.Within rules x → x.isBlockRule = true → x.tellsBlock = true) (o : Options) :
    Always (KeepsDistinct readable) (complete o rules) := by
  have hlay := closed_layOut (memberParts_distinct htells) firstParts_distinct
    tidying_distinct.moving.arrangeBlocks o fun r hr => ⟨r, hr, .inl rfl⟩
  have hcosts : Always (KeepsDistinct readable)
      (modify fun b => { b with schema := o.annotate b.schema } : Build Unit) := by
    refine always_modify fun b h => ⟨h.kind, fun e he => ?_⟩
    obtain ⟨e₀, he₀, hnames⟩ := names_annotate o he
    rw [hnames]
    exact h.differ e₀ he₀
  exact closed_distinct.bind hlay fun _ => closed_distinct.bind hcosts fun _ =>
    closed_distinct.bind closed_distinct.get fun _ => closed_distinct.lift _

end Programs

end Build

/-! ## Classes from one point to another -/

namespace BuildState

variable {b b' : BuildState}

theorem Path.grew (h : Path b b') : Grew b b' := by
  induction h with
  | refl => exact .refl b
  | tail _ step ih =>
    refine ih.trans ?_
    rcases step with hcreates | hstays
    · obtain ⟨C, e, c, a, blocks, -, -, hgrows, -⟩ := hcreates.grows
      exact ⟨_, _, hgrows⟩
    · exact ⟨_, _, hstays⟩

/-- Every class of a state has a record, and goes on with it. -/
theorem Accounted.grows_of_mem (h : b.Accounted) (hnames : (b.schema.entities.map (·.name)).Nodup)
    {added : String → List Addition} {blocks : String → List Block} (hg : Grows added blocks b b')
    {e : Entity} (he : e ∈ b.schema.entities) : ∃ c e' c', b'.schema.entity? e.name = some e' ∧
      ClassGrows (added e.name) (blocks e.name) e c e' c' := by
  have hmem : e.name ∈ b.registry.classes.map (·.className) := by
    rw [h.classes]
    exact List.mem_map_of_mem he
  obtain ⟨c, hc, hname⟩ := List.mem_map.mp hmem
  obtain ⟨c, hc⟩ : ∃ c, b.registry.class? e.name = some c :=
    Option.isSome_iff_exists.mp (List.find?_isSome.mpr ⟨c, hc, by simp [hname]⟩)
  obtain ⟨e', c', he', -, hclass⟩ := hg.grows e.name e c (find?_of_nodup Entity.name hnames he) hc
  exact ⟨c, e', c', he', hclass⟩

/-- Where names differ at the end they did on the way. -/
theorem NamesDiffer.of_grew (h : b'.NamesDiffer) (hb : b.Accounted)
    (hnames : (b.schema.entities.map (·.name)).Nodup) (hgrew : Grew b b') : b.NamesDiffer := by
  intro e he
  obtain ⟨added, blocks, hg⟩ := hgrew
  obtain ⟨c, e', c', he', hclass⟩ := hb.grows_of_mem hnames hg he
  have hnodup := hclass.names_perm.nodup_iff.mp (h e' (Schema.mem_of_entity? he'))
  exact (List.nodup_append.mp hnodup).1

/-- From where names differ on, they do unless a created block is named like a created field. -/
theorem namesDiffer_iff (hb : b.Accounted) (hnames : (b.schema.entities.map (·.name)).Nodup)
    (hdiffer : b.NamesDiffer) (hpath : Path b b') :
    b'.NamesDiffer ↔ ∀ p ∈ b'.createdBlocks, p ∉ b'.createdFields := by
  constructor
  · rintro h ⟨C, n⟩ hblock hfield
    have hstep := (hb.of_path hpath).inStep
    obtain ⟨e, c, f, he, -, hf, -⟩ := hstep.createdField C n hfield
    obtain ⟨e', c', φ, he', -, hB, -⟩ := hstep.createdBlock C n hblock
    obtain rfl : e = e' := Option.some.inj (he.symm.trans he')
    have hnodup := h e (Schema.mem_of_entity? he)
    have hfname : f.name = n := by simpa using List.find?_some hf
    refine (List.nodup_append.mp hnodup).2.2 n ?_ n ?_ rfl
    · exact List.mem_map.mpr ⟨f, List.mem_of_find?_eq_some hf, hfname⟩
    · exact List.mem_map.mpr ⟨⟨n, φ⟩, List.mem_of_find?_eq_some hB, rfl⟩
  · intro h e' he'
    obtain ⟨added, blocks, hg⟩ := Path.grew hpath
    have hmem : e'.name ∈ b.schema.entities.map (·.name) := by
      rw [← hg.entities]
      exact List.mem_map_of_mem he'
    obtain ⟨e, he, hname⟩ := List.mem_map.mp hmem
    obtain ⟨c, e'', c', he'', hclass⟩ := hb.grows_of_mem hnames hg he
    have hfound := find?_of_nodup Entity.name (hg.entities ▸ hnames) he'
    obtain rfl : e' = e'' := Option.some.inj (hfound.symm.trans (hname ▸ he''))
    refine hclass.names_perm.nodup_iff.mpr (List.nodup_append.mpr ⟨hdiffer e he, ?_, ?_⟩)
    · refine List.nodup_append.mpr ⟨hclass.names_nodup, hclass.blocks_nodup, ?_⟩
      rintro n hn _ hn' rfl
      obtain ⟨a, ha, ha'⟩ := List.mem_map.mp hn
      obtain ⟨B, hB, hB'⟩ := List.mem_map.mp hn'
      have hfield : ⟨e.name, n⟩ ∈ b'.createdFields := (hg.created _ _).mpr (.inr ⟨a, ha, ha'⟩)
      exact h _ ((hg.createdBlocks _ _).mpr (.inr ⟨B, hB, hB'⟩)) hfield
    · rintro n hn _ hn' rfl
      rcases List.mem_append.mp hn' with hfield | hblock
      · obtain ⟨a, ha, rfl⟩ := List.mem_map.mp hfield
        exact hclass.fresh a ha hn
      · obtain ⟨B, hB, rfl⟩ := List.mem_map.mp hblock
        exact hclass.blocks_fresh B hB hn

end BuildState

/-! ## The final check -/

/-- Of its faults an entity without a repeated name has another one. -/
theorem Entity.fault?_ne_duplicateName {e : Entity} (h : e.names.Nodup) (classes : List String)
    (n : String) : e.fault? classes ≠ some (.duplicateName n) := by
  have hfield : ∀ f, fieldFault? classes f ≠ some (.duplicateName n) := by
    intro f
    unfold fieldFault?
    split <;> split <;> try split
    all_goals simp
  have hblock : ∀ B, e.blockFault? B ≠ some (.duplicateName n) := by
    intro B
    unfold blockFault?
    split
    · simp
    · split <;> simp
  have hmember : ∀ f, e.memberFault? f ≠ some (.duplicateName n) := by
    intro f
    unfold memberFault?
    split
    · split <;> simp
    · simp
  intro hfault
  rw [fault?, firstRepeat_eq_none_iff.mpr h, Option.map_none, Option.none_or, Option.or_eq_some_iff]
    at hfault
  rcases hfault with hfault | ⟨-, hfault⟩
  · obtain ⟨f, -, hf⟩ := List.exists_of_findSome?_eq_some hfault
    exact hfield f hf
  · rcases Option.or_eq_some_iff.mp hfault with hfault | ⟨-, hfault⟩
    · obtain ⟨B, -, hB⟩ := List.exists_of_findSome?_eq_some hfault
      exact hblock B hB
    · obtain ⟨f, -, hf⟩ := List.exists_of_findSome?_eq_some hfault
      exact hmember f hf

theorem Schema.compile_ne_duplicateName {s : Schema} (h : ∀ e ∈ s.entities, e.names.Nodup)
    (C n : String) : s.compile ≠ .error (.invalidSchema (.entity C (.duplicateName n))) := by
  intro hcompile
  have hfault : s.fault? = some (.entity C (.duplicateName n)) := by
    rw [compile] at hcompile
    split at hcompile
    · cases hcompile
    · rename_i hfault
      cases hcompile
      exact hfault
  rcases Option.or_eq_some_iff.mp hfault with hclass | ⟨-, hentity⟩
  · obtain ⟨_, -, hclass⟩ := Option.map_eq_some_iff.mp hclass
    cases hclass
  · obtain ⟨e, he, hfound⟩ := List.exists_of_findSome?_eq_some hentity
    obtain ⟨fault, hfault, heq⟩ := Option.map_eq_some_iff.mp hfound
    cases heq
    exact e.fault?_ne_duplicateName (h e he) _ n hfault

section Whole

open BuildState

variable {schema : Schema} (catalogue : Catalogue) (o : Options) (space : Space) (rules : List Rule)
variable (interrupt : Interrupt)

/-- Names differ where a build ends, if every block rule tells its block. -/
theorem runBuild_namesDiffer (hschema : schema.compile = .ok ()) (htells : o.readableNames = true →
    ∀ x, Rule.Within rules x → x.isBlockRule = true → x.tellsBlock = true) :
    (runBuild catalogue o schema space rules interrupt).2.NamesDiffer :=
  (Build.distinct_complete htells o (start catalogue o schema space interrupt)
    ⟨rfl, (Schema.nodup_of_compile hschema).2⟩).differ

/-- From a schema that compiles, and over any templates: at every point of a build names differ in
every class exactly if no created block is named like a created field of its class.  They differ at
every point, and the schema is never refused for a name, if names are numbers, or if the readable
name of every block rule that is a candidate or in one tells the block. -/
theorem runBuild_names_differ (hschema : schema.compile = .ok ()) :
    (∀ b, Path (start catalogue o schema space interrupt) b →
      ((∀ e ∈ b.schema.entities, e.names.Nodup) ↔ ∀ p ∈ b.createdBlocks, p ∉ b.createdFields)) ∧
    ((o.readableNames = true → ∀ r ∈ rules, ∀ x, x = r ∨ x ∈ r.ingredients →
        x.isBlockRule = true → x.tellsBlock = true) →
      (∀ b, Path (start catalogue o schema space interrupt) b →
        Path b (runBuild catalogue o schema space rules interrupt).2 →
          ∀ e ∈ b.schema.entities, e.names.Nodup) ∧
      ∀ C n, (runBuild catalogue o schema space rules interrupt).2.schema.compile ≠
        .error (.invalidSchema (.entity C (.duplicateName n)))) := by
  have hstart := accounted_start catalogue o space interrupt hschema
  obtain ⟨hnames, hnodup⟩ := Schema.nodup_of_compile hschema
  refine ⟨fun b hpath => namesDiffer_iff hstart hnames hnodup hpath, fun htells => ?_⟩
  have hend : (runBuild catalogue o schema space rules interrupt).2.NamesDiffer := by
    refine runBuild_namesDiffer catalogue o space rules interrupt hschema ?_
    rintro hreadable x ⟨r, hr, hx⟩
    exact htells hreadable r hr x hx
  refine ⟨fun b hpath hrest => ?_, fun C n => Schema.compile_ne_duplicateName hend C n⟩
  refine NamesDiffer.of_grew hend (hstart.of_path hpath) ?_ (Path.grew hrest)
  obtain ⟨added, blocks, hg⟩ := Path.grew hpath
  rw [hg.entities]
  exact hnames

end Whole

open EarlyOrders BuildState in
/-- The blocks that the mean of the early orders takes are not named like their members. -/
theorem earlyMean_names_differ :
    schema.compile = .ok () ∧
      (∀ r ∈ [yearDay, mean], ∀ x, x = r ∨ x ∈ r.ingredients → x.isBlockRule = true →
        x.tellsBlock = true) ∧
      sparseBuild.1 = .ok () ∧ sparseBuild.2.createdBlocks.length = 2 ∧
      (∀ e ∈ sparseBuild.2.schema.entities, e.names.Nodup) ∧
      ∀ p ∈ sparseBuild.2.createdBlocks, p ∉ sparseBuild.2.createdFields := by
  have hcompile : schema.compile = .ok () := eq_ok_of_isOk (by decide +kernel)
  have hrules : ∀ r ∈ [yearDay, mean], r.Over .default := by simp [over_yearDay, over_mean]
  have htells : ∀ r ∈ [yearDay, mean], ∀ x, x = r ∨ x ∈ r.ingredients → x.isBlockRule = true →
      x.tellsBlock = true := fun r hr x hx =>
    x.tellsBlock_of_over
      (Rule.of_within (fun _ _ => Rule.over_operand) hrules x ⟨r, hr, hx⟩)
  have hbuild : sparseBuild.1.isOk = true := by decide +kernel
  have hblocks : sparseBuild.2.createdBlocks.length = 2 := by decide +kernel
  obtain ⟨hiff, hdiffer⟩ := runBuild_names_differ .default { Options.default with sparse := true }
    space [yearDay, mean] .never hcompile
  have hpath : Path (start .default { Options.default with sparse := true } schema space .never)
      sparseBuild.2 :=
    Build.path_complete (accounted_start .default _ space .never hcompile)
      (Space.unlinked_clearLinks space) _ _
  have hend := (hdiffer fun _ => htells).1 sparseBuild.2 hpath .refl
  exact ⟨hcompile, htells, eq_ok_of_isOk hbuild, hblocks, hend, (hiff _ hpath).mp hend⟩

namespace EarlyOrders

/-- Customers with an age as well. -/
def agedSchema : Schema :=
  ⟨[ ⟨"Customer", [.native "age" .continuous, .native "Orders" orders], []⟩,
     ⟨"Orders", [.native "date" .date, .derived "day" .continuous ⟨"YearDay", [.field "date"]⟩],
       []⟩ ]⟩

/-- The age scaled by the mean day, over a template of dates with a statistic of blocks. -/
def scale : Rule :=
  ⟨{ Template.plain "Scale" .date [.continuous, .continuous] .continuous with
      valueStatistic := some "BlockScale" },
    "Customer", [.field "age" .continuous, .rule mean], 4, 0⟩

def scaleBuild : Except BuildError Unit × BuildState :=
  runBuild .default { Options.default with sparse := true } agedSchema space [scale] .never

end EarlyOrders

open EarlyOrders in
/-- The name of a template of dates is that of its first operand with a suffix, of the block as of
the member: both are called `age.Scale`, and the schema is refused. -/
theorem scale_named_twice :
    agedSchema.compile = .ok () ∧ scale.check space = .ok () ∧ scale.tellsBlock = false ∧
      scaleBuild.1 = .error (.invalidSchema (.entity "Customer" (.duplicateName "age.Scale"))) ∧
      ⟨"Customer", "age.Scale"⟩ ∈ scaleBuild.2.createdBlocks ∧
      ⟨"Customer", "age.Scale"⟩ ∈ scaleBuild.2.createdFields ∧
      ¬ ∀ e ∈ scaleBuild.2.schema.entities, e.names.Nodup := by
  have hcompile : agedSchema.compile.isOk = true := by decide +kernel
  have hcheck : (scale.check space).isOk = true := by decide +kernel
  have hrefused : scaleBuild.1 =
      .error (.invalidSchema (.entity "Customer" (.duplicateName "age.Scale"))) := by decide +kernel
  exact ⟨eq_ok_of_isOk hcompile, eq_ok_of_isOk hcheck, by decide +kernel, hrefused,
    by decide +kernel, by decide +kernel, by decide +kernel⟩

end FeatureSynth
