/-
# A build only adds

Whatever a step of a build does, a class afterwards is the class before with more
fields and more blocks, up to the order and up to marks; and the registry notes
exactly what was added, under keys it did not have.  This is the relation `Grows`
between two states.  It says at once what was added to the schema, to the registry
and to the list of created fields, so that no later proof has to show that the
three agree.

`Grows` is reflexive and transitive.  The steps that touch a class directly have a
lemma each here; for all others the relation is inherited along the program.
-/
import FeatureSynth.Proofs.Build.Run
import FeatureSynth.Proofs.Registry.Index
import FeatureSynth.Proofs.Schema.FreeName

namespace FeatureSynth

/-! ## One class -/

/-- A field that a build adds to a class, up to marks, and the key it is indexed under. -/
structure Addition where
  field : Field
  key : Formula × Option Nat

namespace Addition

/-- A derived field is indexed under its formula, a member under its key and some formula. -/
def WellIndexed (a : Addition) : Prop :=
  match a.key with
  | (φ, none) => a.field.formula = some φ ∧ a.field.block = none
  | (_, some k) => a.field.formula = none ∧ a.field.block.isSome = true ∧ a.field.key = some k

/-- The entry of the registry for an addition. -/
def entry (a : Addition) : (Formula × Option Nat) × String := (a.key, a.field.name)

end Addition

/-- An entity and its record, and both with more fields and blocks. -/
structure ClassGrows (added : List Addition) (blocks : List Block) (e : Entity) (c : ClassRecord)
    (e' : Entity) (c' : ClassRecord) : Prop where
  cores : e'.cores.Perm (e.cores ++ added.map (·.field))
  blocks_perm : e'.blocks.Perm (e.blocks ++ blocks)
  fields_eq : c'.fields = c.fields ++ added.map (·.entry)
  blocks_eq : c'.blocks = c.blocks ++ blocks.map fun b => (b.formula, b.name)
  indexed : ∀ a ∈ added, a.WellIndexed
  fresh : ∀ a ∈ added, a.field.name ∉ e.names
  names_nodup : (added.map (·.field.name)).Nodup
  keys_new : ∀ a ∈ added, c.fields.lookup a.key = none
  keys_nodup : (added.map (·.key)).Nodup
  blocks_fresh : ∀ B ∈ blocks, B.name ∉ e.names
  blocks_nodup : (blocks.map (·.name)).Nodup
  blocks_new : ∀ B ∈ blocks, c.block? B.formula = none
  blocks_apart : (blocks.map (·.formula)).Nodup

namespace ClassGrows

variable {added added' : List Addition} {blocks blocks' : List Block} {e e' e'' : Entity}
variable {c c' c'' : ClassRecord}

theorem names_perm (h : ClassGrows added blocks e c e' c') :
    e'.names.Perm (e.names ++ (added.map (·.field.name) ++ blocks.map (·.name))) := by
  have hfields : (e'.fields.map (·.name)).Perm
      (e.fields.map (·.name) ++ added.map (·.field.name)) := by
    have := h.cores.map (·.name)
    rwa [List.map_append, Entity.map_name_cores, Entity.map_name_cores, List.map_map] at this
  have hblocks := h.blocks_perm.map (·.name)
  rw [List.map_append] at hblocks
  refine (hfields.append hblocks).trans ?_
  simp only [Entity.names, List.append_assoc]
  refine List.Perm.append_left _ ?_
  rw [← List.append_assoc, ← List.append_assoc]
  exact List.perm_append_comm.append_right _

theorem name_mem (h : ClassGrows added blocks e c e' c') {n : String} (hn : n ∈ e.names) :
    n ∈ e'.names :=
  h.names_perm.mem_iff.mpr (List.mem_append_left _ hn)

theorem added_name_mem (h : ClassGrows added blocks e c e' c') {a : Addition} (ha : a ∈ added) :
    a.field.name ∈ e'.names :=
  h.names_perm.mem_iff.mpr (List.mem_append_right _ (List.mem_append_left _ (List.mem_map_of_mem ha)))

theorem block_name_mem (h : ClassGrows added blocks e c e' c') {B : Block} (hB : B ∈ blocks) :
    B.name ∈ e'.names :=
  h.names_perm.mem_iff.mpr (List.mem_append_right _ (List.mem_append_right _ (List.mem_map_of_mem hB)))

theorem lookup_mono (h : ClassGrows added blocks e c e' c') {key : Formula × Option Nat}
    {n : String} (hn : c.fields.lookup key = some n) : c'.fields.lookup key = some n := by
  rw [h.fields_eq, List.lookup_append, hn, Option.some_or]

theorem lookup_eq_none (h : ClassGrows added blocks e c e' c') {key : Formula × Option Nat}
    (hn : c'.fields.lookup key = none) : c.fields.lookup key = none := by
  rw [h.fields_eq, List.lookup_append, Option.or_eq_none_iff] at hn
  exact hn.1

theorem block?_mono (h : ClassGrows added blocks e c e' c') {φ : Formula} {n : String}
    (hn : c.block? φ = some n) : c'.block? φ = some n := by
  rw [ClassRecord.block?, h.blocks_eq, List.lookup_append]
  exact Option.or_eq_some_iff.mpr (.inl hn)

/-- A new block answers its formula from now on. -/
theorem block?_added (h : ClassGrows added blocks e c e' c') {B : Block} (hB : B ∈ blocks) :
    c'.block? B.formula = some B.name := by
  have hnew := h.blocks_new B hB
  rw [ClassRecord.block?] at hnew ⊢
  rw [h.blocks_eq, List.lookup_append, hnew, Option.none_or]
  exact lookup_of_mem (by simpa [Function.comp_def] using h.blocks_apart)
    (List.mem_map_of_mem (f := fun b : Block => (b.formula, b.name)) hB)

/-- An addition answers its key from now on. -/
theorem lookup_added (h : ClassGrows added blocks e c e' c') {a : Addition} (ha : a ∈ added) :
    c'.fields.lookup a.key = some a.field.name := by
  rw [h.fields_eq, List.lookup_append, h.keys_new a ha, Option.none_or]
  exact lookup_of_mem (by simpa [Function.comp_def, Addition.entry] using h.keys_nodup)
    (List.mem_map_of_mem (f := Addition.entry) ha)

/-- What is known was known before or was added. -/
theorem lookup_eq_some (h : ClassGrows added blocks e c e' c') {key : Formula × Option Nat}
    {n : String} (hn : c'.fields.lookup key = some n) :
    c.fields.lookup key = some n ∨ ∃ a ∈ added, a.key = key ∧ a.field.name = n := by
  rw [h.fields_eq, List.lookup_append, Option.or_eq_some_iff] at hn
  rcases hn with hn | ⟨-, hn⟩
  · exact .inl hn
  · obtain ⟨a, ha, hkey⟩ := List.mem_map.mp (mem_of_lookup hn)
    simp only [Addition.entry, Prod.mk.injEq] at hkey
    exact .inr ⟨a, ha, hkey⟩

protected theorem refl (e : Entity) (c : ClassRecord) : ClassGrows [] [] e c e c where
  cores := by simp
  blocks_perm := by simp
  fields_eq := by simp
  blocks_eq := by simp
  indexed := by simp
  fresh := by simp
  names_nodup := by simp
  keys_new := by simp
  keys_nodup := by simp
  blocks_fresh := by simp
  blocks_nodup := by simp
  blocks_new := by simp
  blocks_apart := by simp

/-- Marks and moves of an entity, and notes of a record that are no entries, add nothing. -/
theorem of_perm (he : e'.cores.Perm e.cores) (hb : e'.blocks.Perm e.blocks)
    (hf : c'.fields = c.fields) (hc : c'.blocks = c.blocks) : ClassGrows [] [] e c e' c' :=
  { ClassGrows.refl e c with
    cores := by simpa using he
    blocks_perm := by simpa using hb
    fields_eq := by simpa using hf
    blocks_eq := by simpa using hc }

protected theorem trans (h : ClassGrows added blocks e c e' c')
    (h' : ClassGrows added' blocks' e' c' e'' c'') :
    ClassGrows (added ++ added') (blocks ++ blocks') e c e'' c'' where
  cores := by
    rw [List.map_append, ← List.append_assoc]
    exact h'.cores.trans (h.cores.append_right _)
  blocks_perm := by
    rw [← List.append_assoc]
    exact h'.blocks_perm.trans (h.blocks_perm.append_right _)
  fields_eq := by rw [h'.fields_eq, h.fields_eq, List.map_append, List.append_assoc]
  blocks_eq := by rw [h'.blocks_eq, h.blocks_eq, List.map_append, List.append_assoc]
  indexed := by
    intro a ha
    rcases List.mem_append.mp ha with ha | ha
    · exact h.indexed a ha
    · exact h'.indexed a ha
  fresh := by
    intro a ha
    rcases List.mem_append.mp ha with ha | ha
    · exact h.fresh a ha
    · exact fun hmem => h'.fresh a ha (h.name_mem hmem)
  names_nodup := by
    rw [List.map_append, List.nodup_append]
    refine ⟨h.names_nodup, h'.names_nodup, ?_⟩
    rintro _ hn _ hn' rfl
    obtain ⟨a, ha, rfl⟩ := List.mem_map.mp hn
    obtain ⟨a', ha', hname⟩ := List.mem_map.mp hn'
    exact h'.fresh a' ha' (hname ▸ h.added_name_mem ha)
  keys_new := by
    intro a ha
    rcases List.mem_append.mp ha with ha | ha
    · exact h.keys_new a ha
    · exact h.lookup_eq_none (h'.keys_new a ha)
  keys_nodup := by
    rw [List.map_append, List.nodup_append]
    refine ⟨h.keys_nodup, h'.keys_nodup, ?_⟩
    rintro _ hk _ hk' rfl
    obtain ⟨a, ha, rfl⟩ := List.mem_map.mp hk
    obtain ⟨a', ha', hkey⟩ := List.mem_map.mp hk'
    have := h'.keys_new a' ha'
    rw [hkey, h.lookup_added ha] at this
    cases this
  blocks_fresh := by
    exact List.forall_mem_append.mpr
      ⟨h.blocks_fresh, fun B hB hmem => h'.blocks_fresh B hB (h.name_mem hmem)⟩
  blocks_nodup := by
    rw [List.map_append, List.nodup_append]
    refine ⟨h.blocks_nodup, h'.blocks_nodup, ?_⟩
    rintro _ hn _ hn' rfl
    obtain ⟨B, hB, rfl⟩ := List.mem_map.mp hn
    obtain ⟨B', hB', hname⟩ := List.mem_map.mp hn'
    exact h'.blocks_fresh B' hB' (hname ▸ h.block_name_mem hB)
  blocks_new := by
    refine List.forall_mem_append.mpr ⟨h.blocks_new, fun B hB => ?_⟩
    cases hold : c.block? B.formula with
    | none => rfl
    | some n => cases (h.block?_mono hold).symm.trans (h'.blocks_new B hB)
  blocks_apart := by
    rw [List.map_append, List.nodup_append]
    refine ⟨h.blocks_apart, h'.blocks_apart, ?_⟩
    rintro _ hφ _ hφ' rfl
    obtain ⟨B, hB, rfl⟩ := List.mem_map.mp hφ
    obtain ⟨B', hB', hformula⟩ := List.mem_map.mp hφ'
    have := h'.blocks_new B' hB'
    rw [hformula, h.block?_added hB] at this
    cases this

end ClassGrows

/-! ## All classes -/

/-- From one state to another a build adds fields and blocks, class by class, and notes them
as created. -/
structure Grows (added : String → List Addition) (blocks : String → List Block)
    (b b' : BuildState) : Prop where
  entities : b'.schema.entities.map (·.name) = b.schema.entities.map (·.name)
  classes : b'.registry.classes.map (·.className) = b.registry.classes.map (·.className)
  grows : ∀ C e c, b.schema.entity? C = some e → b.registry.class? C = some c →
    ∃ e' c', b'.schema.entity? C = some e' ∧ b'.registry.class? C = some c' ∧
      ClassGrows (added C) (blocks C) e c e' c'
  created : ∀ C n, ⟨C, n⟩ ∈ b'.createdFields ↔
    ⟨C, n⟩ ∈ b.createdFields ∨ ∃ a ∈ added C, a.field.name = n
  createdBlocks : ∀ C n, ⟨C, n⟩ ∈ b'.createdBlocks ↔
    ⟨C, n⟩ ∈ b.createdBlocks ∨ ∃ B ∈ blocks C, B.name = n

/-- Nothing is added: classes are marked and their fields moved at most. -/
abbrev Stays (b b' : BuildState) : Prop := Grows (fun _ => []) (fun _ => []) b b'

/-- A build goes from one state to another by additions. -/
def Grew (b b' : BuildState) : Prop := ∃ added blocks, Grows added blocks b b'

/-- What is added to one class only. -/
def only {α : Type} (C : String) (xs : List α) : String → List α := fun D => if C = D then xs else []

theorem only_nil {α : Type} (C : String) : (only C [] : String → List α) = fun _ => [] := by
  funext D
  simp [only]

namespace Grows

variable {added added' : String → List Addition} {blocks blocks' : String → List Block}
variable {b b' b'' : BuildState}

protected theorem refl (b : BuildState) : Grows (fun _ => []) (fun _ => []) b b where
  entities := rfl
  classes := rfl
  grows := fun _ e c he hc => ⟨e, c, he, hc, .refl e c⟩
  created := by simp
  createdBlocks := by simp

protected theorem trans (h : Grows added blocks b b') (h' : Grows added' blocks' b' b'') :
    Grows (fun C => added C ++ added' C) (fun C => blocks C ++ blocks' C) b b'' where
  entities := h'.entities.trans h.entities
  classes := h'.classes.trans h.classes
  grows := by
    intro C e c he hc
    obtain ⟨e', c', he', hc', hg⟩ := h.grows C e c he hc
    obtain ⟨e'', c'', he'', hc'', hg'⟩ := h'.grows C e' c' he' hc'
    exact ⟨e'', c'', he'', hc'', hg.trans hg'⟩
  created := by
    intro C n
    rw [h'.created, h.created, or_assoc]
    simp only [List.mem_append, or_and_right, exists_or]
  createdBlocks := by
    intro C n
    rw [h'.createdBlocks, h.createdBlocks, or_assoc]
    simp only [List.mem_append, or_and_right, exists_or]

/-- A step that touches one class. -/
theorem of_class {C : String} {added : List Addition} {blocks : List Block}
    (hE : b'.schema.entities.map (·.name) = b.schema.entities.map (·.name))
    (hC : b'.registry.classes.map (·.className) = b.registry.classes.map (·.className))
    (otherE : ∀ D, C ≠ D → b'.schema.entity? D = b.schema.entity? D)
    (otherC : ∀ D, C ≠ D → b'.registry.class? D = b.registry.class? D)
    (atC : ∀ e c, b.schema.entity? C = some e → b.registry.class? C = some c →
      ∃ e' c', b'.schema.entity? C = some e' ∧ b'.registry.class? C = some c' ∧
        ClassGrows added blocks e c e' c')
    (created : ∀ D n, ⟨D, n⟩ ∈ b'.createdFields ↔
      ⟨D, n⟩ ∈ b.createdFields ∨ (C = D ∧ ∃ a ∈ added, a.field.name = n))
    (createdBlocks : ∀ D n, ⟨D, n⟩ ∈ b'.createdBlocks ↔
      ⟨D, n⟩ ∈ b.createdBlocks ∨ (C = D ∧ ∃ B ∈ blocks, B.name = n)) :
    Grows (only C added) (only C blocks) b b' where
  entities := hE
  classes := hC
  grows := by
    intro D e c he hc
    by_cases h : C = D
    · subst h
      simpa [only] using atC e c he hc
    · refine ⟨e, c, (otherE D h).trans he, (otherC D h).trans hc, ?_⟩
      simpa [only, h] using ClassGrows.refl e c
  created := by
    intro D n
    rw [created]
    by_cases h : C = D <;> simp [only, h]
  createdBlocks := by
    intro D n
    rw [createdBlocks]
    by_cases h : C = D <;> simp [only, h]

/-- A step that writes one class back, to the schema and to the registry. -/
theorem of_set {C : String} {added : List Addition} {blocks : List Block} {e e' : Entity}
    {c c' : ClassRecord} (he : b.schema.entity? C = some e) (hc : b.registry.class? C = some c)
    (hs : b'.schema = b.schema.setEntity C e') (hg : b'.registry = b.registry.set C c')
    (hname : e'.name = e.name) (hclass : c'.className = c.className)
    (hgrows : ClassGrows added blocks e c e' c')
    (created : ∀ D n, ⟨D, n⟩ ∈ b'.createdFields ↔
      ⟨D, n⟩ ∈ b.createdFields ∨ (C = D ∧ ∃ a ∈ added, a.field.name = n))
    (createdBlocks : ∀ D n, ⟨D, n⟩ ∈ b'.createdBlocks ↔
      ⟨D, n⟩ ∈ b.createdBlocks ∨ (C = D ∧ ∃ B ∈ blocks, B.name = n)) :
    Grows (only C added) (only C blocks) b b' := by
  have hE : e'.name = C := hname.trans (Schema.name_of_entity? he)
  have hC : c'.className = C := hclass.trans (Registry.className_of_class? hc)
  refine .of_class ?_ ?_ (fun D hD => ?_) (fun D hD => ?_) (fun e₁ c₁ he₁ hc₁ => ?_) created
    createdBlocks
  · rw [hs, Schema.names_setEntity he hname]
  · rw [hg, Registry.names_set hc hclass]
  · rw [hs, Schema.entity?_setEntity_ne hE hD]
  · rw [hg, Registry.class?_set_ne hC hD]
  · obtain rfl : e = e₁ := Option.some.inj (he.symm.trans he₁)
    obtain rfl : c = c₁ := Option.some.inj (hc.symm.trans hc₁)
    exact ⟨e', c', by rw [hs, Schema.entity?_setEntity he hname],
      by rw [hg, Registry.class?_set hc hclass], hgrows⟩

/-- A step that keeps schema, registry and what is noted as created. -/
theorem of_eq (hs : b'.schema = b.schema) (hg : b'.registry = b.registry)
    (hc : (b'.createdFields, b'.createdBlocks) = (b.createdFields, b.createdBlocks)) :
    Stays b b' where
  entities := by rw [hs]
  classes := by rw [hg]
  grows := fun _ e c he hc => ⟨e, c, by rw [hs, he], by rw [hg, hc], .refl e c⟩
  created := by simp [(Prod.mk.inj hc).1]
  createdBlocks := by simp [(Prod.mk.inj hc).2]

end Grows

namespace Grew

variable {b b' b'' : BuildState}

protected theorem refl (b : BuildState) : Grew b b := ⟨_, _, .refl b⟩

protected theorem trans : Grew b b' → Grew b' b'' → Grew b b''
  | ⟨_, _, h⟩, ⟨_, _, h'⟩ => ⟨_, _, h.trans h'⟩

theorem of_eq (hs : b'.schema = b.schema) (hg : b'.registry = b.registry)
    (hc : (b'.createdFields, b'.createdBlocks) = (b.createdFields, b.createdBlocks)) : Grew b b' :=
  ⟨_, _, .of_eq hs hg hc⟩

/-- A formula that the record of a class knows stays known, and under the same name. -/
theorem lookup_mono (h : Grew b b') {C : String} {e : Entity} {c : ClassRecord}
    (he : b.schema.entity? C = some e) (hc : b.registry.class? C = some c) :
    ∃ c', b'.registry.class? C = some c' ∧
      ∀ key n, c.fields.lookup key = some n → c'.fields.lookup key = some n := by
  obtain ⟨added, blocks, h⟩ := h
  obtain ⟨_, c', -, hc', hg⟩ := h.grows C e c he hc
  exact ⟨c', hc', fun _ _ => hg.lookup_mono⟩

end Grew

namespace Build

/-! ## Steps on one class -/

variable {b b' : BuildState}

/-- An edit that only marks and moves. -/
theorem stays_edit {C : String} {change : Entity → Except BuildError Entity} {u : Unit}
    (h : (edit C change).Gives b u b')
    (hchange : ∀ e e', b.schema.entity? C = some e → change e = .ok e' →
      e'.name = e.name ∧ e'.cores.Perm e.cores ∧ e'.blocks.Perm e.blocks) :
    Stays b b' := by
  obtain ⟨e, e', he, hok, rfl⟩ := gives_edit.mp h
  obtain ⟨hname, hcores, hblocks⟩ := hchange e e' he hok
  have hC : e'.name = C := hname.trans (Schema.name_of_entity? he)
  rw [Stays, ← only_nil C, ← only_nil C]
  refine .of_class (Schema.names_setEntity he hname) rfl
    (fun D hD => Schema.entity?_setEntity_ne hC hD) (fun _ _ => rfl) ?_ (by simp) (by simp)
  intro e₀ c he₀ hc
  obtain rfl : e = e₀ := Option.some.inj (he.symm.trans he₀)
  exact ⟨e', c, Schema.entity?_setEntity he hname, hc, .of_perm hcores hblocks rfl rfl⟩

/-- A record that notes no new entry. -/
theorem stays_setRecord {C : String} {c c' : ClassRecord} {u : Unit}
    (h : (setRecord C c').Gives b u b') (hc : b.registry.class? C = some c)
    (hname : c'.className = c.className) (hfields : c'.fields = c.fields)
    (hblocks : c'.blocks = c.blocks) : Stays b b' := by
  rw [gives_setRecord] at h
  subst h
  have hC : c'.className = C := hname.trans (Registry.className_of_class? hc)
  rw [Stays, ← only_nil C, ← only_nil C]
  refine .of_class rfl (Registry.names_set hc hname) (fun _ _ => rfl)
    (fun D hD => Registry.class?_set_ne hC hD) ?_ (by simp) (by simp)
  intro e c₀ he hc₀
  obtain rfl : c = c₀ := Option.some.inj (hc.symm.trans hc₀)
  exact ⟨e, c', he, Registry.class?_set hc hname, .of_perm (.refl _) (.refl _) hfields hblocks⟩

/-! ## Creation -/

/-- The space, what is known of rules and what is interrupted are as they were. -/
structure SameLedgers (b b' : BuildState) : Prop where
  space : b'.space = b.space
  fieldOf : b'.fieldOf = b.fieldOf
  blockOf : b'.blockOf = b.blockOf

namespace SameLedgers

protected theorem refl (b : BuildState) : SameLedgers b b := ⟨rfl, rfl, rfl⟩

protected theorem trans {b₁ b₂ b₃ : BuildState} (h : SameLedgers b₁ b₂) (h' : SameLedgers b₂ b₃) :
    SameLedgers b₁ b₃ :=
  ⟨h'.space.trans h.space, h'.fieldOf.trans h.fieldOf, h'.blockOf.trans h.blockOf⟩

end SameLedgers

theorem mem_noteField {C D name n : String} {b b' : BuildState} {u : Unit}
    (h : (noteField C name).Gives b u b') :
    (⟨D, n⟩ ∈ b'.createdFields ↔ ⟨D, n⟩ ∈ b.createdFields ∨ (C = D ∧ name = n)) ∧
      b'.schema = b.schema ∧ b'.registry = b.registry ∧ b'.createdBlocks = b.createdBlocks ∧
      SameLedgers b b' := by
  rw [noteField, gives_modify] at h
  subst h
  cases hc : b.isCreated C name with
  | true =>
    have hmem : ⟨C, name⟩ ∈ b.createdFields := by simpa [BuildState.isCreated] using hc
    refine ⟨⟨.inl, ?_⟩, rfl, rfl, rfl, .refl b⟩
    rintro (h | ⟨rfl, rfl⟩)
    · exact h
    · exact hmem
  | false =>
    refine ⟨?_, rfl, rfl, rfl, ⟨rfl, rfl, rfl⟩⟩
    simp [eq_comm]

/-- A derived field is added to its class under its formula. -/
theorem grows_insertDerived {C n : String} {f : Field} {e : Entity} {b b' : BuildState}
    (h : (insertDerived C f).Gives b n b') (hblock : f.block = none)
    (he : b.schema.entity? C = some e) (hfresh : f.name ∉ e.names) :
    ∃ φ, f.formula = some φ ∧ n = f.name ∧ SameLedgers b b' ∧
      Grows (only C [⟨f.core, (φ, none)⟩]) (only C []) b b' := by
  simp only [insertDerived, gives_bind, gives_register, gives_edit, gives_pure] at h
  obtain ⟨_, _, ⟨c, c', hc, hreg, rfl⟩, _, _, ⟨e₀, _, he₀, hins, rfl⟩, _, b₁, hnote, rfl, rfl⟩ := h
  obtain rfl : e = e₀ := Option.some.inj (he.symm.trans he₀)
  obtain ⟨φ, hφ, hnew, hname, hfields, hblocks⟩ := ClassRecord.registerDerived_eq_ok hreg
  cases hins
  have hgrows : ClassGrows [⟨f.core, (φ, none)⟩] [] e c (e.insertField f) c' :=
    { cores := by simp [Entity.cores, Entity.insertField]
      blocks_perm := by simp [Entity.insertField]
      fields_eq := by simpa [Addition.entry] using hfields
      blocks_eq := by simpa using hblocks
      indexed := by simp [Addition.WellIndexed, hφ, hblock]
      fresh := by simpa using hfresh
      names_nodup := by simp
      keys_new := by simpa using hnew
      keys_nodup := by simp
      blocks_fresh := by simp
      blocks_nodup := by simp
      blocks_new := by simp
      blocks_apart := by simp }
  obtain ⟨-, hs, hg, hblocksNoted, hsame⟩ := mem_noteField (D := C) (n := C) hnote
  refine ⟨φ, hφ, rfl, ⟨hsame.space, hsame.fieldOf, hsame.blockOf⟩,
    .of_set he hc hs hg rfl hname hgrows (fun D m => ?_) fun D m => ?_⟩
  · rw [(mem_noteField hnote).1]
    simp
  · simp [hblocksNoted]

/-- A request for a field with a formula is answered by the field that has it, or by a new one. -/
theorem fieldFor_cases {C n : String} {φ : Formula} {type : Except BuildError FieldType}
    {make : Naming} {b b' : BuildState} (h : (fieldFor C φ type make).Gives b n b') :
    SameLedgers b b' ∧ ∃ c, b.registry.class? C = some c ∧
      ((c.field? φ = some n ∧ b' = { b with reused := b.reused + 1 }) ∨
        (c.field? φ = none ∧ ∃ t, type = .ok t ∧
          Grows (only C [⟨(Field.derived n t φ).core, (φ, none)⟩]) (only C []) b b')) := by
  simp only [fieldFor, gives_record_bind] at h
  obtain ⟨c, hc, h⟩ := h
  cases hφ : c.field? φ with
  | some m =>
    rw [hφ] at h
    obtain ⟨rfl, rfl⟩ := gives_reuse.mp h
    exact ⟨⟨rfl, rfl, rfl⟩, c, hc, .inl ⟨hφ, rfl⟩⟩
  | none =>
    rw [hφ] at h
    simp only [gives_bind, gives_lift, gives_freeName] at h
    obtain ⟨name, _, ⟨stem, names, e, -, he, rfl, rfl⟩, t, _, ⟨ht, rfl⟩, h⟩ := h
    obtain ⟨_, hformula, rfl, hsame, hg⟩ :=
      grows_insertDerived h rfl he (Entity.freeName_notMem e stem)
    cases hformula
    refine ⟨⟨hsame.space, hsame.fieldOf, hsame.blockOf⟩, c, hc, .inr ⟨hφ, t, ht, ?_⟩⟩
    exact ⟨hg.entities, hg.classes, hg.grows, hg.created, hg.createdBlocks⟩

/-- The core of a member of a block. -/
def memberCore (f : Field) (block : String) : Field := (Entity.asMember f block).core

theorem wellIndexed_member {f : Field} {k : Nat} (hk : f.key = some k) (bn : String) (φ : Formula) :
    ∀ a ∈ [(⟨memberCore f bn, (φ, some k)⟩ : Addition)], a.WellIndexed := by
  simp [Addition.WellIndexed, memberCore, Entity.asMember, hk]

/-- A member goes into a block that exists. -/
theorem grows_insertMember_some {C bn B : String} {φ : Formula} {f : Field} {k : Nat}
    {make : Naming} {e : Entity} {b b' : BuildState}
    (h : (insertMember C (some B) φ f make).Gives b bn b') (hk : f.key = some k)
    (he : b.schema.entity? C = some e) (hfresh : f.name ∉ e.names) :
    B = bn ∧ SameLedgers b b' ∧ e.fields.any (·.isIn bn) = true ∧
      ∃ c, b.registry.class? C = some c ∧ c.member? φ k = none ∧
        Grows (only C [⟨memberCore f bn, (φ, some k)⟩]) (only C []) b b' := by
  simp only [insertMember, gives_bind, gives_pure, gives_edit, gives_register] at h
  obtain ⟨_, _, ⟨e₀, e', he₀, hins, rfl⟩, _, _, ⟨rfl, rfl⟩, _, _, ⟨c, c', hc, hreg, rfl⟩, _, _,
    hnote, rfl, rfl⟩ := h
  obtain rfl : e = e₀ := Option.some.inj (he.symm.trans he₀)
  obtain ⟨hname', hblocks', hperm, hany⟩ := Entity.insertMember_eq_ok hins
  obtain ⟨k', hk', hnew, hname, hfields, hblocks⟩ := ClassRecord.registerMember_eq_ok hreg
  obtain rfl : k = k' := Option.some.inj (hk.symm.trans hk')
  have hgrows : ClassGrows [⟨memberCore f bn, (φ, some k)⟩] [] e c e' c' :=
    { cores := by simpa [Entity.cores, memberCore] using hperm.map Field.core
      blocks_perm := by simp [hblocks']
      fields_eq := hfields
      blocks_eq := by simpa using hblocks
      indexed := wellIndexed_member hk bn φ
      fresh := by simpa [memberCore, Entity.asMember] using hfresh
      names_nodup := by simp
      keys_new := by simpa using hnew
      keys_nodup := by simp
      blocks_fresh := by simp
      blocks_nodup := by simp
      blocks_new := by simp
      blocks_apart := by simp }
  obtain ⟨-, hs, hg, hblocksNoted, hsame⟩ := mem_noteField (D := C) (n := C) hnote
  refine ⟨rfl, ⟨hsame.space, hsame.fieldOf, hsame.blockOf⟩, hany, c, hc, hnew,
    .of_set he hc hs hg hname' hname hgrows (fun D m => ?_) fun D m => ?_⟩
  · rw [(mem_noteField hnote).1]
    simp [memberCore, Entity.asMember]
  · simp [hblocksNoted]

/-- A member goes into a new block with the formula. -/
theorem grows_insertMember_none {C bn : String} {φ : Formula} {f : Field} {k : Nat} {make : Naming}
    {e : Entity} {b b' : BuildState} (h : (insertMember C none φ f make).Gives b bn b')
    (hk : f.key = some k) (he : b.schema.entity? C = some e) (hfresh : f.name ∉ e.names) :
    SameLedgers b b' ∧ ∃ c, b.registry.class? C = some c ∧ c.member? φ k = none ∧
      c.block? φ = none ∧
      Grows (only C [⟨memberCore f bn, (φ, some k)⟩]) (only C [⟨bn, φ⟩]) b b' := by
  simp only [insertMember, gives_bind, gives_pure, gives_edit, gives_register, gives_freeName,
    noteBlock, gives_modify] at h
  obtain ⟨bn', _, ⟨stem, names, e₂, -, he₂, hbn, rfl⟩, _, _, ⟨c, c₁, hc, hblock, rfl⟩, _, _,
    ⟨e₀, e', he₀, hins, rfl⟩, _, _, rfl, _, _, ⟨rfl, rfl⟩, _, _, ⟨c₀, c', hc₀, hreg, rfl⟩, _, _,
    hnote, rfl, rfl⟩ := h
  obtain rfl : e = e₀ := Option.some.inj (he.symm.trans he₀)
  obtain rfl : e = e₂ := Option.some.inj (he.symm.trans he₂)
  cases hins
  -- the record of the class is written twice, for the block and for the member
  obtain ⟨hnewBlock, hname₁, hfields₁, hblocks₁⟩ := ClassRecord.registerBlock_eq_ok hblock
  obtain rfl : c₁ = c₀ := Option.some.inj ((Registry.class?_set hc hname₁).symm.trans hc₀)
  obtain ⟨k', hk', hnew, hname, hfields, hblocks⟩ := ClassRecord.registerMember_eq_ok hreg
  obtain rfl : k = k' := Option.some.inj (hk.symm.trans hk')
  rw [hfields₁] at hnew
  have hgrows : ClassGrows [⟨memberCore f bn, (φ, some k)⟩] [⟨bn, φ⟩] e c (e.addBlock ⟨bn, φ⟩ f)
      c' :=
    { cores := by simp [Entity.cores, Entity.addBlock, memberCore]
      blocks_perm := by simp [Entity.addBlock]
      fields_eq := by rw [hfields, hfields₁]; rfl
      blocks_eq := by rw [hblocks, hblocks₁]; rfl
      indexed := wellIndexed_member hk bn φ
      fresh := by simpa [memberCore, Entity.asMember] using hfresh
      names_nodup := by simp
      keys_new := by simpa using hnew
      keys_nodup := by simp
      blocks_fresh := by simpa using hbn ▸ Entity.freeName_notMem e stem
      blocks_nodup := by simp
      blocks_new := by simpa using hnewBlock
      blocks_apart := by simp }
  obtain ⟨-, hs, hg, hblocksNoted, hsame⟩ := mem_noteField (D := C) (n := C) hnote
  rw [Registry.set_set (Registry.className_of_class? hc₀)] at hg
  refine ⟨⟨hsame.space, hsame.fieldOf, hsame.blockOf⟩, c, hc, hnew, hnewBlock,
    .of_set he hc hs hg rfl (hname.trans hname₁) hgrows (fun D m => ?_) fun D m => ?_⟩
  · rw [(mem_noteField hnote).1]
    simp [memberCore, Entity.asMember]
  · rw [hblocksNoted]
    simp [eq_comm]

/-- A member goes into a block that exists, or into a new one with the formula. -/
theorem insertMember_cases {C bn : String} {block : Option String} {φ : Formula} {f : Field}
    {k : Nat} {make : Naming} {e : Entity} {b b' : BuildState}
    (h : (insertMember C block φ f make).Gives b bn b') (hk : f.key = some k)
    (he : b.schema.entity? C = some e) (hfresh : f.name ∉ e.names) :
    SameLedgers b b' ∧ ∃ c, b.registry.class? C = some c ∧ c.member? φ k = none ∧
      ((block = some bn ∧ e.fields.any (·.isIn bn) = true ∧
          Grows (only C [⟨memberCore f bn, (φ, some k)⟩]) (only C []) b b') ∨
        (block = none ∧ c.block? φ = none ∧
          Grows (only C [⟨memberCore f bn, (φ, some k)⟩]) (only C [⟨bn, φ⟩]) b b')) := by
  cases block with
  | some B =>
    obtain ⟨rfl, hsame, hany, c, hc, hnew, hg⟩ := grows_insertMember_some h hk he hfresh
    exact ⟨hsame, c, hc, hnew, .inl ⟨rfl, hany, hg⟩⟩
  | none =>
    obtain ⟨hsame, c, hc, hnew, hnewBlock, hg⟩ := grows_insertMember_none h hk he hfresh
    exact ⟨hsame, c, hc, hnew, .inr ⟨rfl, hnewBlock, hg⟩⟩

end Build

end FeatureSynth
