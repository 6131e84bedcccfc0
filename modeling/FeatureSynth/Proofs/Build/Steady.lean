/-
# States that a build goes on from

Which steps of a build can fail depends on what went before.  `Steady` gathers what holds at
every point between two fields of a build: the schema in work is well formed, the registry
is in step with it and knows every member of the blocks that it knows, the links of the
space are right, and the ledgers hold names of fields and rules of classes that are there.

From a steady state a build proceeds to a steady state, and partitions settle on the way.
That the schema stays well formed is the part to prove.  A new field is under a free name
and of a type that the schema knows; a new block is not named like its first member; and a
member that the registry does not know is not in the block, so that its key is new there.
-/
import FeatureSynth.Proofs.Build.Attributed
import FeatureSynth.Proofs.Build.Ensures
import FeatureSynth.Proofs.Build.NamesDiffer
import FeatureSynth.Proofs.Space.Located
import FeatureSynth.Proofs.Space.Reached

namespace FeatureSynth

/-! ## Classes -/

/-- No derived field of an entity is in a block, and of a block that the record knows it knows all
members. -/
structure Tight (e : Entity) (c : ClassRecord) : Prop where
  apart : ∀ f ∈ e.cores, f.formula.isSome = true → f.block = none
  member : ∀ f ∈ e.cores, ∀ φ B key, c.block? φ = some B → f.block = some B →
    f.key = some key → (c.member? φ key).isSome = true

theorem ClassGrows.tight {added : List Addition} {blocks : List Block} {e e' : Entity}
    {c c' : ClassRecord} (h : ClassGrows added blocks e c e' c') (hT : Tight e c)
    (hdeclared : ∀ f ∈ e.cores, ∀ B, f.block = some B → B ∈ e.names) (hI : Indexes e' c') :
    Tight e' c' where
  apart := by
    intro f hf hφ
    rcases List.mem_append.mp (h.cores.mem_iff.mp hf) with hold | hnew
    · exact hT.apart f hold hφ
    · obtain ⟨⟨f, φ, _ | key⟩, ha, rfl⟩ := List.mem_map.mp hnew
      · exact (h.indexed _ ha).2
      · have hnone : f.formula = none := (h.indexed _ ha).1
        simp [hnone] at hφ
  member := by
    intro f hf φ B key hB hblock hkey
    rcases List.mem_append.mp (h.cores.mem_iff.mp hf) with hold | hnew
    · -- a new block has a new name, so an old member is in a block that was known
      rw [ClassRecord.block?, h.blocks_eq, List.lookup_append, Option.or_eq_some_iff] at hB
      rcases hB with hB | ⟨-, hB⟩
      · obtain ⟨n, hn⟩ := Option.isSome_iff_exists.mp (hT.member f hold φ B key hB hblock hkey)
        exact Option.isSome_iff_exists.mpr ⟨n, h.lookup_mono hn⟩
      · obtain ⟨b, hb, heq⟩ := List.mem_map.mp (mem_of_lookup hB)
        cases heq
        exact absurd (hdeclared f hold _ hblock) (h.blocks_fresh b hb)
    · obtain ⟨⟨f, ψ, _ | k⟩, ha, rfl⟩ := List.mem_map.mp hnew
      · cases (h.indexed _ ha).2.symm.trans hblock
      · obtain rfl : k = key := Option.some.inj ((h.indexed _ ha).2.2.symm.trans hkey)
        -- a new member is known under its key with the formula of the block it is in
        have hn : c'.member? ψ k = some f.name := h.lookup_added ha
        obtain ⟨-, g, hg, B', hname, -, hB', hdeclared'⟩ := hI.member ψ k f.name hn
        obtain rfl : g = f := List.inj_on_of_nodup_map hI.fields_nodup hg hf hname
        obtain rfl : B' = B := Option.some.inj (hB'.symm.trans hblock)
        have heq : (⟨B', ψ⟩ : Block) = ⟨B', φ⟩ :=
          List.inj_on_of_nodup_map hI.blocks_nodup hdeclared' (hI.block φ B' hB) rfl
        cases heq
        rw [hn]
        rfl

/-- At the start, where no field has both a formula and a block. -/
theorem tight_collect (catalogue : Catalogue) (schema : Schema) {e : Entity}
    (hnames : e.names.Nodup)
    (hapart : ∀ f ∈ e.fields, f.formula.isSome = true → f.block = none) :
    Tight e (ClassRecord.collect catalogue schema e) where
  apart := by
    intro f hf hφ
    obtain ⟨g, hg, rfl⟩ := Entity.mem_cores.mp hf
    exact hapart g hg hφ
  member := by
    intro f hf φ B key hB hblock hkey
    obtain ⟨g, hg, rfl⟩ := Entity.mem_cores.mp hf
    rw [ClassRecord.block?_collect] at hB
    split at hB
    · rename_i husable
      obtain ⟨b, hfind, rfl⟩ := Option.map_eq_some_iff.mp hB
      obtain rfl : b.formula = φ := by simpa using List.find?_some hfind
      have hb : e.block? b.name = some b := find?_of_nodup Block.name
        (List.nodup_append.mp hnames).2.1 (List.mem_of_find?_eq_some hfind)
      have hplain : g.formula = none := by
        by_contra hφ
        cases (hapart g hg (Option.isSome_iff_ne_none.mpr hφ)).symm.trans hblock
      refine ClassRecord.member?_collect_isSome catalogue schema hg ⟨hplain, hkey, b, ?_, rfl⟩
        husable
      rw [show g.block = some b.name from hblock, Option.bind_some, hb]
    · cases hB

/-- No field has both a formula and a block. -/
def Schema.Apart (s : Schema) : Prop :=
  ∀ e ∈ s.entities, ∀ f ∈ e.fields, f.formula.isSome = true → f.block = none

namespace BuildState

/-- What holds of a state between two fields of a build over a schema. -/
structure Steady (schema : Schema) (b : BuildState) : Prop where
  start : schema.compile = .ok ()
  accounted : b.Accounted
  linked : b.Linked
  compile : b.schema.compile = .ok ()
  classes : b.schema.entities.map (·.name) = schema.entities.map (·.name)
  tight : schema.Apart →
    ∀ C e c, b.schema.entity? C = some e → b.registry.class? C = some c → Tight e c
  noted : ∀ r n, (r, some n) ∈ b.fieldOf.entries → b.HasCore r.className (·.name = n)
  blocks : ∀ entry ∈ b.blockOf.entries, entry.1.className ∈ schema.entities.map (·.name)
  dimensions : b.space.Grounded schema
  tables : ∀ p ∈ b.space.partitions, p.parentClass ∈ schema.entities.map (·.name) ∧
    p.className ∈ schema.entities.map (·.name)

/-- From a state to a steady one; classes grow and partitions settle. -/
structure Proceeds (schema : Schema) (b b' : BuildState) : Prop where
  steady : b'.Steady schema
  settles : b.space.Settles b'.space
  grew : Grew b b'

namespace Steady

variable {schema : Schema} {b b' : BuildState} {C : String} {e : Entity} {c : ClassRecord}

/-- A class of the schema has an entity and a record. -/
theorem exists_class (h : b.Steady schema) (hC : C ∈ schema.entities.map (·.name)) :
    ∃ e c, b.schema.entity? C = some e ∧ b.registry.class? C = some c := by
  have hentity := h.classes ▸ hC
  have hclass := h.accounted.classes ▸ hentity
  obtain ⟨e, he, rfl⟩ := List.mem_map.mp hentity
  obtain ⟨c, hc, hname⟩ := List.mem_map.mp hclass
  refine ⟨_, _, Option.get_mem (List.find?_isSome.mpr ⟨e, he, by simp⟩),
    Option.get_mem (List.find?_isSome.mpr ⟨c, hc, by simpa using hname⟩)⟩

theorem class_of_entity? (h : b.Steady schema) (he : b.schema.entity? C = some e) :
    C ∈ schema.entities.map (·.name) :=
  h.classes ▸ Schema.class_of_entity? he

theorem inOrder (h : b.Steady schema) (he : b.schema.entity? C = some e) :
    e.InOrder (schema.entities.map (·.name)) :=
  h.classes ▸ Schema.inOrder_of_compile h.compile he

/-- The field by which a rule is known is there. -/
theorem hasCore_of_fieldOf? (h : b.Steady schema) {r : Rule} {n : String}
    (hn : b.fieldOf? r = some n) : b.HasCore r.className (·.name = n) := by
  obtain ⟨x, hx, heq⟩ := Ledger.of_name? hn
  have hclass : x.className = r.className := Space.Takes.className_eq (s := b.space) (.inr heq)
  rw [← hclass]
  exact h.noted x n hx

/-- Where classes grow, entries of the ledgers are as they should be, and the schema is well formed
again, a steady state proceeds. -/
theorem of_grew (h : b.Steady schema) (hg : Grew b b') (haccounted : b'.Accounted)
    (hlinked : b'.Linked) (hcompile : b'.schema.compile = .ok ())
    (hsettles : b.space.Settles b'.space)
    (hnoted : ∀ r n, (r, some n) ∈ b'.fieldOf.entries →
      (r, some n) ∈ b.fieldOf.entries ∨ b'.HasCore r.className (·.name = n))
    (hblocks : ∀ entry ∈ b'.blockOf.entries,
      entry.1 ∈ b.blockOf.entries.map (·.1) ∨
        entry.1.className ∈ schema.entities.map (·.name)) : Proceeds schema b b' := by
  obtain ⟨added, blocks, hgrows⟩ := id hg
  have hclasses : b'.schema.entities.map (·.name) = schema.entities.map (·.name) :=
    hgrows.entities.trans h.classes
  refine ⟨⟨h.start, haccounted, hlinked, hcompile, hclasses, ?_, ?_, ?_, ?_, ?_⟩, hsettles, hg⟩
  · intro hapart C e' c' he' hc'
    obtain ⟨c, hc⟩ := hgrows.class_before hc'
    obtain ⟨e, he⟩ := h.linked.entity_of_class C c hc
    obtain ⟨e₁, c₁, he₁, hc₁, hclass⟩ := hgrows.grows C e c he hc
    obtain rfl : e' = e₁ := Option.some.inj (he'.symm.trans he₁)
    obtain rfl : c' = c₁ := Option.some.inj (hc'.symm.trans hc₁)
    refine hclass.tight (h.tight hapart C e c he hc) (fun f hf B hB => ?_)
      (hlinked.indexes C e' c' he' hc')
    obtain ⟨g, hg, rfl⟩ := Entity.mem_cores.mp hf
    exact List.mem_append_right _ ((h.inOrder he).declared g hg B hB)
  · intro r n hn
    rcases hnoted r n hn with hold | hnew
    · exact hg.hasCore (h.noted r n hold)
    · exact hnew
  · intro entry hentry
    rcases hblocks entry hentry with hold | hnew
    · obtain ⟨old, hmem, heq⟩ := List.mem_map.mp hold
      exact heq ▸ h.blocks old hmem
    · exact hnew
  · exact h.dimensions.of_sameCuts hsettles.sameCuts
  · intro p' hp'
    obtain ⟨k, hk⟩ := List.mem_iff_getElem?.mp hp'
    have hlt : k < b.space.partitions.length :=
      hsettles.length ▸ (List.getElem?_eq_some_iff.mp hk).1
    obtain ⟨p₁, hp₁, hsettled⟩ :=
      hsettles.partition k _ (List.getElem?_eq_getElem hlt)
    obtain rfl : p' = p₁ := Option.some.inj (hk.symm.trans hp₁)
    rw [hsettled.parentClass, show p'.className = _ from congrArg Prod.fst hsettled.cut]
    exact h.tables _ (List.getElem_mem hlt)

/-- Where partitions settle and the ledgers are as they were. -/
theorem of_links (h : b.Steady schema) (hlinks : Links b b') (haccounted : b'.Accounted)
    (hcompile : b'.schema.compile = .ok ()) (hblockOf : b'.blockOf = b.blockOf) :
    Proceeds schema b b' :=
  h.of_grew hlinks.grew haccounted hlinks.linked hcompile hlinks.settles
    (fun _ _ hn => .inl (hlinks.fieldOf ▸ hn))
    fun _ hentry => .inl (List.mem_map_of_mem (hblockOf ▸ hentry))

/-- A step that only marks, moves, or notes what is no entry. -/
theorem of_stays (h : b.Steady schema) (hg : Stays b b') (hsame : Build.SameLedgers b b')
    (hcompile : b'.schema.compile = .ok ()) : Proceeds schema b b' :=
  h.of_links (.of_stays h.linked hg hsame.space hsame.fieldOf) (h.accounted.of_stays hg) hcompile
    hsame.blockOf

protected theorem refl (h : b.Steady schema) : Proceeds schema b b := ⟨h, .refl _, .refl _⟩

/-- The ledgers may get other entries. -/
theorem note (h : b.Steady schema) {fieldOf blockOf : Ledger}
    (hnoted : ∀ r n, (r, some n) ∈ fieldOf.entries →
      (r, some n) ∈ b.fieldOf.entries ∨ b.HasCore r.className (·.name = n))
    (hblocks : ∀ entry ∈ blockOf.entries, entry.1 ∈ b.blockOf.entries.map (·.1) ∨
      entry.1.className ∈ schema.entities.map (·.name)) :
    Proceeds schema b { b with fieldOf, blockOf } := by
  have hg : Stays b { b with fieldOf, blockOf } := .of_eq rfl rfl rfl
  exact h.of_grew ⟨_, _, hg⟩ (h.accounted.of_stays hg)
    (h.linked.of_grows hg rfl fun _ _ _ _ ha => absurd ha List.not_mem_nil) h.compile (.refl _)
    hnoted hblocks

/-- A rule may be noted under the name of a field of its class. -/
theorem record (h : b.Steady schema) {r : Rule} {n : String}
    (hn : b.HasCore r.className (·.name = n)) :
    Proceeds schema b { b with fieldOf := b.fieldOf.record b.space.compareCostName r n } := by
  refine h.note (fun x m hx => ?_) fun entry hentry => .inl (List.mem_map_of_mem hentry)
  rcases Ledger.mem_record hx with hold | ⟨rfl, heq⟩
  · exact .inl hold
  · have htakes : b.space.Takes x r := heq.symm
    exact .inr (htakes.className_eq ▸ hn)

/-- The block of a rule may be noted. -/
theorem updateBlock (h : b.Steady schema) (order : Rule → Rule → Ordering) (r : Rule) (B : String) :
    Proceeds schema b { b with blockOf := b.blockOf.update order r B } := by
  refine h.note (fun x m hx => .inl hx) fun entry hentry => .inl ?_
  rw [← Ledger.rules_update b.blockOf order r B]
  exact List.mem_map_of_mem hentry

end Steady

protected theorem Proceeds.trans {schema : Schema} {b b' b'' : BuildState}
    (h : Proceeds schema b b') (h' : Proceeds schema b' b'') : Proceeds schema b b'' :=
  ⟨h'.steady, h.settles.trans h'.settles, h.grew.trans h'.grew⟩

end BuildState

namespace Build

open BuildState

variable {schema : Schema} {b b₁ b' : BuildState} {C name n B : String} {φ : Formula}
variable {t : FieldType} {key : Nat} {e : Entity} {c : ClassRecord} {make makeBlock : Naming}

/-! ## Requests to stop -/

theorem closed_sameInterrupt :
    Closed (fun m => Respects (fun b b' => b'.interrupt = b.interrupt) m) :=
  Chained.respects ⟨fun _ => rfl, fun h h' => h'.trans h⟩

theorem sameInterrupt_register (C : String) (more : ClassRecord → Except BuildError ClassRecord) :
    Respects (fun b b' => b'.interrupt = b.interrupt) (register C more) := by
  intro b u b' h
  obtain ⟨c, c', -, -, rfl⟩ := gives_register.mp h
  rfl

theorem sameInterrupt_edit (C : String) (change : Entity → Except BuildError Entity) :
    Respects (fun b b' => b'.interrupt = b.interrupt) (edit C change) := by
  intro b u b' h
  obtain ⟨e, e', -, -, rfl⟩ := gives_edit.mp h
  rfl

theorem sameInterrupt_noteField (C n : String) :
    Respects (fun b b' => b'.interrupt = b.interrupt) (noteField C n) := by
  refine (always_modify fun b => ?_).respects
  split <;> rfl

theorem sameInterrupt_noteBlock (C B : String) :
    Respects (fun b b' => b'.interrupt = b.interrupt) (noteBlock C B) := by
  intro b u b' h
  rw [gives_modify.mp h]

theorem sameInterrupt_freeName (C : String) (make : Naming) :
    Respects (fun b b' => b'.interrupt = b.interrupt) (freeName C make) := by
  intro b n b' h
  obtain ⟨stem, names, e, -, -, -, rfl⟩ := gives_freeName.mp h
  rfl

theorem sameInterrupt_insertDerived (C : String) (f : Field) :
    Respects (fun b b' => b'.interrupt = b.interrupt) (insertDerived C f) :=
  closed_sameInterrupt.bind (sameInterrupt_register C _) fun _ =>
    closed_sameInterrupt.bind (sameInterrupt_edit C _) fun _ =>
      closed_sameInterrupt.bind (sameInterrupt_noteField C _) fun _ => closed_sameInterrupt.pure _

theorem sameInterrupt_insertMember (C : String) (block : Option String) (φ : Formula) (f : Field)
    (make : Naming) :
    Respects (fun b b' => b'.interrupt = b.interrupt) (insertMember C block φ f make) := by
  have last : ∀ B, Respects (fun b b' => b'.interrupt = b.interrupt) (do
      register C (·.registerMember φ { f with block := some B })
      noteField C f.name
      return B) := fun B =>
    closed_sameInterrupt.bind (sameInterrupt_register C _) fun _ =>
      closed_sameInterrupt.bind (sameInterrupt_noteField C _) fun _ => closed_sameInterrupt.pure _
  cases block with
  | some B =>
    exact closed_sameInterrupt.bind (sameInterrupt_edit C _) fun _ => last B
  | none =>
    refine closed_sameInterrupt.bind (sameInterrupt_freeName C make) fun B =>
      closed_sameInterrupt.bind (sameInterrupt_register C _) fun _ =>
        closed_sameInterrupt.bind (sameInterrupt_edit C _) fun _ =>
          closed_sameInterrupt.bind (sameInterrupt_noteBlock C B) fun _ => last B

/-! ## Fields -/

/-- A state in which other names come next, or more was reused. -/
theorem proceeds_of_eq (h : b.Steady schema) (hs : b'.schema = b.schema)
    (hg : b'.registry = b.registry)
    (hc : (b'.createdFields, b'.createdBlocks) = (b.createdFields, b.createdBlocks))
    (hsame : SameLedgers b b') : Proceeds schema b b' :=
  h.of_stays (.of_eq hs hg hc) hsame (by rw [hs]; exact h.compile)

theorem schema_insertDerived {f : Field} (h : (insertDerived C f).Gives b n b')
    (he : b.schema.entity? C = some e) : b'.schema = b.schema.setEntity C (e.insertField f) := by
  simp only [insertDerived, gives_bind, gives_register, gives_edit, gives_pure] at h
  obtain ⟨_, _, ⟨c, c', hc, hreg, rfl⟩, _, _, ⟨e₀, _, he₀, hins, rfl⟩, _, b₁, hnote, rfl, rfl⟩ := h
  obtain rfl : e = e₀ := Option.some.inj (he.symm.trans he₀)
  cases hins
  rw [(mem_noteField (D := C) (n := C) hnote).2.1]

/-- The field asked for by a formula is there or can be made. -/
theorem ensures_fieldFor (h : b.Steady schema) (hC : C ∈ schema.entities.map (·.name))
    {type : Except BuildError FieldType} (htype : type = .ok t)
    (hclass : ∀ D, t.class? = some D → D ∈ schema.entities.map (·.name))
    (hmake : ∃ y, make b.names b.space = .ok y) :
    (fieldFor C φ type make).Ensures b fun n b' =>
      Proceeds schema b b' ∧ SameLedgers b b' ∧ b'.Knows C φ n := by
  obtain ⟨e, c, he, hc⟩ := h.exists_class hC
  cases hφ : c.field? φ with
  | some n =>
    have hrun : (fieldFor C φ type make).Gives b n { b with reused := b.reused + 1 } := by
      rw [fieldFor, gives_record_bind]
      exact ⟨c, hc, by rw [hφ]; exact gives_reuse.mpr ⟨rfl, rfl⟩⟩
    exact .of_gives hrun rfl ⟨proceeds_of_eq h rfl rfl rfl ⟨rfl, rfl, rfl⟩, ⟨rfl, rfl, rfl⟩,
      (links_fieldFor h.linked hrun).2⟩
  | none =>
    obtain ⟨⟨stem, names⟩, hstem⟩ := hmake
    have hname : (freeName C make).Gives b (e.freeName stem) { b with names } :=
      gives_freeName.mpr ⟨stem, names, e, hstem, he, rfl, rfl⟩
    have hfresh := Entity.freeName_notMem e stem
    obtain ⟨c', hc'⟩ : ∃ c', c.registerDerived (.derived (e.freeName stem) t φ) = .ok c' := by
      simp [ClassRecord.registerDerived, Field.derived, hφ]
    obtain ⟨n, b', hinsert⟩ : (insertDerived C (.derived (e.freeName stem) t φ)).Succeeds
        { b with names } :=
      .next (gives_register.mpr ⟨c, c', hc, hc', rfl⟩)
        (.next (gives_edit.mpr ⟨e, _, he, rfl, rfl⟩) (.next (gives_modify.mpr rfl) ⟨_, _, rfl⟩))
    have hrun : (fieldFor C φ type make).Gives b n b' := by
      rw [fieldFor, gives_record_bind]
      refine ⟨c, hc, ?_⟩
      rw [hφ]
      exact gives_bind.mpr ⟨_, _, hname, gives_lift_bind.mpr ⟨t, htype, hinsert⟩⟩
    obtain ⟨hlinks, hknows⟩ := links_fieldFor h.linked hrun
    have hsame := (fieldFor_cases hrun).1
    have hcalm := sameInterrupt_insertDerived C _ hinsert
    refine .of_gives hrun hcalm ⟨h.of_links hlinks
      (h.accounted.of_path ((path_fieldFor (C := C)).respects hrun)) ?_ hsame.blockOf, hsame,
      hknows⟩
    rw [schema_insertDerived (b := { b with names }) hinsert he]
    exact Schema.compile_setEntity h.compile he rfl
      (h.classes ▸ (h.inOrder he).insertField hfresh rfl hclass)

/-! ## Members -/

/-- A member goes into a block that is there, or into one that is made for it. -/
theorem schema_insertMember {block : Option String} {f : Field}
    (h : (insertMember C block φ f make).Gives b B b') (he : b.schema.entity? C = some e) :
    ∃ e', b'.schema = b.schema.setEntity C e' ∧
      (block = some B ∧ e.insertMember B f = .ok e' ∨
        block = none ∧ e' = e.addBlock ⟨B, φ⟩ f ∧
          ∃ stem names, make b.names b.space = .ok (stem, names) ∧ B = e.freeName stem) := by
  cases block with
  | some B' =>
    simp only [insertMember, gives_bind, gives_pure, gives_edit, gives_register] at h
    obtain ⟨_, _, ⟨e₀, e', he₀, hins, rfl⟩, _, _, ⟨rfl, rfl⟩, _, _, ⟨c, c', hc, hreg, rfl⟩, _, _,
      hnote, rfl, rfl⟩ := h
    obtain rfl : e = e₀ := Option.some.inj (he.symm.trans he₀)
    exact ⟨e', (mem_noteField (D := C) (n := C) hnote).2.1, .inl ⟨rfl, hins⟩⟩
  | none =>
    simp only [insertMember, gives_bind, gives_pure, gives_edit, gives_register, gives_freeName,
      noteBlock, gives_modify] at h
    obtain ⟨B', _, ⟨stem, names, e₂, hmake, he₂, hB, rfl⟩, _, _, ⟨c, c₁, hc, hblock, rfl⟩, _, _,
      ⟨e₀, e', he₀, hins, rfl⟩, _, _, rfl, _, _, ⟨rfl, rfl⟩, _, _, ⟨c₀, c', hc₀, hreg, rfl⟩, _, _,
      hnote, rfl, rfl⟩ := h
    obtain rfl : e = e₀ := Option.some.inj (he.symm.trans he₀)
    obtain rfl : e = e₂ := Option.some.inj (he.symm.trans he₂)
    cases hins
    exact ⟨_, (mem_noteField (D := C) (n := C) hnote).2.1,
      .inr ⟨rfl, rfl, stem, names, hmake, hB⟩⟩

/-- A new member, under a name made for it, of the block known by a formula. -/
theorem ensures_insertMember (h : b.Steady schema) (hplain : schema.Apart)
    (hc : b.registry.class? C = some c)
    (hkey : c.member? φ key = none) (hname : (freeName C make).Gives b name b₁)
    (hmakeBlock : ∀ names, ∃ y, makeBlock names b.space = .ok y)
    (hapart : make.Apart b.names.readable makeBlock)
    (hclass : ∀ D, t.class? = some D → D ∈ schema.entities.map (·.name)) :
    (insertMember C (c.block? φ) φ (.member name t "" key) makeBlock).Ensures b₁ fun B b' =>
      Proceeds schema b b' ∧ SameLedgers b b' ∧ b'.KnowsBlock C φ B ∧
        b'.KnowsMember C φ key name := by
  obtain ⟨stem, names, e, hstem, he, rfl, rfl⟩ := id (gives_freeName.mp hname)
  have hfresh := Entity.freeName_notMem e stem
  have horder := h.inOrder he
  have hindexes := h.linked.indexes C e c he hc
  obtain ⟨B, b', hrun⟩ : (insertMember C (c.block? φ) φ (.member (e.freeName stem) t "" key)
      makeBlock).Succeeds { b with names } :=
    succeeds_insertMember he hc hkey
      (fun B hB => (horder.blocks _ (hindexes.block φ B hB)).inhabited) fun _ => hmakeBlock names
  have hsame := (insertMember_cases hrun rfl he hfresh).1
  have hdrawn : Path b { b with names } := path_of_stays (.of_eq rfl rfl rfl)
  have hpath : Path b b' := hdrawn.tail (.inl (.member he hc hfresh hrun))
  obtain ⟨hlinks, hblock, hmember⟩ := links_newMember h.linked hc hname hrun
  refine .of_gives hrun (sameInterrupt_insertMember C _ φ _ makeBlock hrun)
    ⟨h.of_links hlinks (h.accounted.of_path hpath) ?_ hsame.blockOf,
    ⟨hsame.space, hsame.fieldOf, hsame.blockOf⟩, hblock, hmember⟩
  obtain ⟨e', hschema, hcases⟩ := schema_insertMember (b := { b with names }) hrun he
  rw [hschema]
  rcases hcases with ⟨hB, hinsert⟩ | ⟨hB, rfl, stem', names', hstem', rfl⟩
  · refine Schema.compile_setEntity h.compile he (Entity.insertMember_eq_ok hinsert).1
      (h.classes ▸ horder.insertMember hinsert hfresh rfl (fun g hg hgB hgkey => ?_) hclass)
    -- the record knows the members of the block, and none under this key
    have hknown := (h.tight hplain C e c he hc).member g.core (Entity.core_mem_cores hg) φ B key
      hB hgB hgkey
    rw [hkey] at hknown
    cases hknown
  · exact Schema.compile_setEntity h.compile he rfl (h.classes ▸ horder.addBlock hfresh
      (Entity.freeName_notMem e stem') (hapart rfl hstem hstem' e e) rfl hclass)

/-! ## Ledgers -/

/-- Rules can be entered in the ledger of fields. -/
theorem ensures_collectFields (h : b.Steady schema) (r : Rule) :
    (collectFields r).Ensures b fun _ b' => Proceeds schema b b' ∧ b'.space = b.space := by
  refine .change rfl ⟨h.note (fun x m hx => .inl ?_) fun entry hentry => ?_, rfl⟩
  · exact (Ledger.mem_foldl_enter (b.space.subrules r) _).mp hx
  · exact .inl (List.mem_map_of_mem hentry)

/-- The block rules met in a checked rule can be entered in the ledger of blocks, for they are
checked as well. -/
theorem ensures_collectBlocks (h : b.Steady schema) {r : Rule} (hr : r.Grounded b.space schema) :
    (collectBlocks r).Ensures b fun _ b' => Proceeds schema b b' ∧ b'.space = b.space := by
  refine .change rfl ⟨h.note (fun x m hx => .inl hx) fun entry hentry => ?_, rfl⟩
  refine (Ledger.rule_of_mem_foldl_enter (b.space.blockRules r) _ hentry).imp
    List.mem_map_of_mem fun hmet => ?_
  have hgrounded : entry.1.Grounded b.space schema :=
    Space.of_mem_subrules (fun _ _ hx => hx.operand) h.dimensions hr _
      (b.space.blockRules_subset r hmet)
  exact hgrounded.className_mem

/-! ## Marks and moves -/

/-- An edit that marks or moves what an entity has, and leaves it in order. -/
theorem ensures_edit (h : b.Steady schema) (hC : C ∈ schema.entities.map (·.name))
    {change : Entity → Except BuildError Entity} (htidies : Tidies change)
    (hchange : ∀ e, b.schema.entity? C = some e →
      ∃ e', change e = .ok e' ∧ e'.InOrder (schema.entities.map (·.name))) :
    (edit C change).Ensures b fun _ b' => Proceeds schema b b' ∧ SameLedgers b b' := by
  obtain ⟨e, -, he, -⟩ := h.exists_class hC
  obtain ⟨e', hok, horder⟩ := hchange e he
  have hrun : (edit C change).Gives b () { b with schema := b.schema.setEntity C e' } :=
    gives_edit.mpr ⟨e, e', he, hok, rfl⟩
  have hsame := sameLedgers_edit C change hrun
  have hstays := (tidying_stays.edit C change htidies).respects hrun
  refine .of_gives hrun rfl ⟨h.of_stays hstays hsame ?_, hsame⟩
  exact Schema.compile_setEntity h.compile he (htidies e e' hok).1 (h.classes ▸ horder)

/-- A field that is there can be marked. -/
theorem ensures_markCandidate (h : b.Steady schema) (hn : b.HasCore C (·.name = n)) (cost : Float) :
    (markCandidate C n cost).Ensures b fun _ b' => Proceeds schema b b' ∧ SameLedgers b b' := by
  obtain ⟨e, c, he, hc, f, hf, rfl⟩ := hn
  refine ensures_edit h (h.class_of_entity? he) (tidies_mark C f.name cost) fun e₁ he₁ => ?_
  obtain rfl : e = e₁ := Option.some.inj (he.symm.trans he₁)
  obtain ⟨g, hg, -⟩ := (h.linked.indexes C e c he hc).field?_of_core hf
  refine ⟨_, if_pos (by rw [hg]; rfl), (h.inOrder he).of_core ?_⟩
  exact congrArg (fun cores => (⟨e.name, cores, e.blocks⟩ : Entity))
    (Entity.cores_modifyField e f.name fun _ => rfl)

/-- A field that is no member can be moved. -/
theorem ensures_moveField (h : b.Steady schema) (hC : C ∈ schema.entities.map (·.name))
    (hplain : ∀ e f, b.schema.entity? C = some e → e.field? n = some f → f.block = none) :
    (edit C fun e => .ok (e.moveFieldToTail n)).Ensures b fun _ b' =>
      Proceeds schema b b' ∧ SameLedgers b b' :=
  ensures_edit h hC (moves_moveField n).tidies fun e he =>
    ⟨e.moveFieldToTail n, rfl, (h.inOrder he).moveFieldToTail fun f hf => hplain e f he hf⟩

/-- A block can be moved. -/
theorem ensures_moveBlock (h : b.Steady schema) (hC : C ∈ schema.entities.map (·.name))
    (B : String) :
    (moveBlock C B).Ensures b fun _ b' => Proceeds schema b b' ∧ SameLedgers b b' :=
  ensures_edit h hC (moves_moveBlock B).tidies fun e he =>
    ⟨(e.moveBlockToTail B).sortBlock B, rfl, ((h.inOrder he).moveBlockToTail B).sortBlock B⟩

end Build

end FeatureSynth
