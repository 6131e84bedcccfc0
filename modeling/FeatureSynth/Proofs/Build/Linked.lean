/-
# Registry, schema and space agree

Three memories answer a build that asks for a block or a member: the records of the
registry, the schema in work, and the links of the space.  They agree.  What the
record of a class knows, its entity has.  And a link of a partition is the name by
which the record of its class knows what is linked: the descriptor, or the block of
parts with the formula that the space gives it.  So it is all the same whether a
block is found by the link or by its formula.
-/
import FeatureSynth.Proofs.Build.Whole
import FeatureSynth.Proofs.Space.Links

namespace FeatureSynth

/-! ## What holds of every class -/

/-- What a record knows, its entity has: fields derived by a formula, blocks with a formula, and
members under a key of a block with a formula, which the record then knows too. -/
structure Indexes (e : Entity) (c : ClassRecord) : Prop where
  fields_nodup : (e.cores.map (·.name)).Nodup
  blocks_nodup : (e.blocks.map (·.name)).Nodup
  keys_nodup : (c.fields.map (·.1)).Nodup
  formulas_nodup : (c.blocks.map (·.1)).Nodup
  derived : ∀ φ n, c.field? φ = some n → ∃ f ∈ e.cores, f.name = n ∧ f.formula = some φ
  member : ∀ φ key n, c.member? φ key = some n → (c.block? φ).isSome = true ∧
    ∃ f ∈ e.cores, ∃ B, f.name = n ∧ f.key = some key ∧ f.block = some B ∧ ⟨B, φ⟩ ∈ e.blocks
  block : ∀ φ B, c.block? φ = some B → ⟨B, φ⟩ ∈ e.blocks

/-- Members are known by the formula of the very block that is known by it, and no derived field is
a member. -/
structure Sharp (e : Entity) (c : ClassRecord) : Prop where
  apart : ∀ f ∈ e.cores, f.formula.isSome = true → f.block = none
  own : ∀ φ key n, c.member? φ key = some n → ∃ f ∈ e.cores, f.name = n ∧ f.block = c.block? φ

namespace ClassGrows

variable {added : List Addition} {blocks : List Block} {e e' : Entity} {c c' : ClassRecord}

theorem core_mem (h : ClassGrows added blocks e c e' c') {f : Field} (hf : f ∈ e.cores) :
    f ∈ e'.cores :=
  h.cores.mem_iff.mpr (List.mem_append_left _ hf)

theorem added_mem (h : ClassGrows added blocks e c e' c') {a : Addition} (ha : a ∈ added) :
    a.field ∈ e'.cores :=
  h.cores.mem_iff.mpr (List.mem_append_right _ (List.mem_map_of_mem ha))

/-- The entity keeps having what the record knows, if members are added to the block known by
their formula. -/
theorem indexes (h : ClassGrows added blocks e c e' c') (hI : Indexes e c)
    (hmember : ∀ a ∈ added, ∀ φ key, a.key = (φ, some key) → c'.block? φ = a.field.block) :
    Indexes e' c' := by
  have hblock : ∀ φ B, c'.block? φ = some B → ⟨B, φ⟩ ∈ e'.blocks := by
    intro φ B hB
    rw [ClassRecord.block?, h.blocks_eq, List.lookup_append, Option.or_eq_some_iff] at hB
    refine h.blocks_perm.mem_iff.mpr (List.mem_append.mpr ?_)
    rcases hB with hold | ⟨-, hnew⟩
    · exact .inl (hI.block φ B hold)
    · obtain ⟨B', hB', heq⟩ := List.mem_map.mp (mem_of_lookup hnew)
      cases heq
      exact .inr hB'
  exact {
    fields_nodup := by
      refine ((h.cores.map (·.name)).nodup_iff).mpr ?_
      rw [List.map_append, List.map_map, List.nodup_append]
      refine ⟨hI.fields_nodup, h.names_nodup, ?_⟩
      rintro _ hold _ hnew rfl
      obtain ⟨f, hf, rfl⟩ := List.mem_map.mp hold
      obtain ⟨a, ha, hname⟩ := List.mem_map.mp hnew
      have hmem := Entity.name_mem_of_mem_cores hf
      rw [← hname] at hmem
      exact h.fresh a ha hmem
    blocks_nodup := by
      refine ((h.blocks_perm.map (·.name)).nodup_iff).mpr ?_
      rw [List.map_append, List.nodup_append]
      refine ⟨hI.blocks_nodup, h.blocks_nodup, ?_⟩
      rintro _ hold _ hnew rfl
      obtain ⟨B, hB, rfl⟩ := List.mem_map.mp hnew
      exact h.blocks_fresh B hB (List.mem_append_right _ hold)
    keys_nodup := by
      rw [h.fields_eq, List.map_append, List.map_map, List.nodup_append]
      refine ⟨hI.keys_nodup, h.keys_nodup, ?_⟩
      rintro _ hold _ hnew rfl
      obtain ⟨a, ha, hkey⟩ := List.mem_map.mp hnew
      obtain ⟨entry, hentry, heq⟩ := List.mem_map.mp hold
      have hne := List.lookup_eq_none_iff.mp (h.keys_new a ha) entry hentry
      rw [show a.key = entry.1 from hkey.trans heq.symm] at hne
      simp at hne
    formulas_nodup := by
      rw [h.blocks_eq, List.map_append, List.map_map, List.nodup_append]
      refine ⟨hI.formulas_nodup, h.blocks_apart, ?_⟩
      rintro _ hold _ hnew rfl
      obtain ⟨B, hB, hformula⟩ := List.mem_map.mp hnew
      obtain ⟨entry, hentry, heq⟩ := List.mem_map.mp hold
      have hne := List.lookup_eq_none_iff.mp (h.blocks_new B hB) entry hentry
      rw [show B.formula = entry.1 from hformula.trans heq.symm] at hne
      simp at hne
    derived := by
      intro φ n hn
      rcases h.lookup_eq_some hn with hold | ⟨⟨f, key⟩, ha, rfl, rfl⟩
      · obtain ⟨f, hf, hfield⟩ := hI.derived φ n hold
        exact ⟨f, h.core_mem hf, hfield⟩
      · exact ⟨f, h.added_mem ha, rfl, (h.indexed _ ha).1⟩
    member := by
      intro φ key n hn
      rcases h.lookup_eq_some hn with hold | ⟨⟨f, k⟩, ha, rfl, rfl⟩
      · obtain ⟨hB, f, hf, B, hname, hkey, hin, hdeclared⟩ := hI.member φ key n hold
        obtain ⟨B₀, hB₀⟩ := Option.isSome_iff_exists.mp hB
        exact ⟨Option.isSome_iff_exists.mpr ⟨B₀, h.block?_mono hB₀⟩, f, h.core_mem hf, B, hname, hkey,
          hin, h.blocks_perm.mem_iff.mpr (List.mem_append_left _ hdeclared)⟩
      · have hindexed := h.indexed _ ha
        obtain ⟨B, hB⟩ := Option.isSome_iff_exists.mp hindexed.2.1
        have hknown := (hmember _ ha φ key rfl).trans hB
        exact ⟨Option.isSome_iff_exists.mpr ⟨B, hknown⟩, f, h.added_mem ha, B, rfl, hindexed.2.2, hB,
          hblock φ B hknown⟩
    block := hblock }

theorem sharp (h : ClassGrows added blocks e c e' c') (hI : Indexes e c) (hS : Sharp e c)
    (hmember : ∀ a ∈ added, ∀ φ key, a.key = (φ, some key) → c'.block? φ = a.field.block) :
    Sharp e' c' where
  apart := by
    intro f hf hφ
    rcases List.mem_append.mp (h.cores.mem_iff.mp hf) with hold | hnew
    · exact hS.apart f hold hφ
    · obtain ⟨⟨f, φ, _ | key⟩, ha, rfl⟩ := List.mem_map.mp hnew
      · exact (h.indexed _ ha).2
      · have hnone : f.formula = none := (h.indexed _ ha).1
        simp [hnone] at hφ
  own := by
    intro φ key n hn
    rcases h.lookup_eq_some hn with hold | ⟨⟨f, k⟩, ha, rfl, rfl⟩
    · obtain ⟨f, hf, hname, hB⟩ := hS.own φ key n hold
      obtain ⟨B, hknown⟩ := Option.isSome_iff_exists.mp (hI.member φ key n hold).1
      exact ⟨f, h.core_mem hf, hname, by rw [hB, hknown, h.block?_mono hknown]⟩
    · exact ⟨f, h.added_mem ha, rfl, (hmember _ ha φ key rfl).symm⟩

end ClassGrows

section Collect

variable (catalogue : Catalogue) (schema : Schema) {e : Entity}

/-- The record of an entity at the start. -/
theorem indexes_collect (hnames : e.names.Nodup) :
    Indexes e (ClassRecord.collect catalogue schema e) where
  fields_nodup := by
    rw [Entity.map_name_cores]
    exact (List.nodup_append.mp hnames).1
  blocks_nodup := (List.nodup_append.mp hnames).2.1
  keys_nodup := (ClassRecord.nodup_collect catalogue schema e).1
  formulas_nodup := (ClassRecord.nodup_collect catalogue schema e).2
  derived := by
    intro φ n hn
    rw [ClassRecord.field?_collect] at hn
    split at hn
    · obtain ⟨g, hg, rfl⟩ := Option.map_eq_some_iff.mp hn
      have hφ : g.formula = some φ := by simpa using List.find?_some hg
      exact ⟨g.core, Entity.core_mem_cores (List.mem_of_find?_eq_some hg), rfl, hφ⟩
    · cases hn
  member := by
    intro φ key n hn
    obtain ⟨f, hf, ⟨-, hkey, B, hB, rfl⟩, rfl, husable⟩ := ClassRecord.member?_collect _ _ _ hn
    obtain ⟨name, hname, hB⟩ := Option.bind_eq_some_iff.mp hB
    have hmem := List.mem_of_find?_eq_some hB
    obtain rfl : B.name = name := by simpa using List.find?_some hB
    refine ⟨?_, f.core, Entity.core_mem_cores hf, B.name, rfl, hkey, hname, hmem⟩
    rw [ClassRecord.block?_collect, if_pos husable, ClassRecord.blockName?, Option.isSome_map,
      List.find?_isSome]
    exact ⟨B, hmem, beq_self_eq_true _⟩
  block := by
    intro φ B hB
    rw [ClassRecord.block?_collect] at hB
    split at hB
    · obtain ⟨B, hfind, rfl⟩ := Option.map_eq_some_iff.mp hB
      obtain rfl : B.formula = φ := by simpa using List.find?_some hfind
      exact List.mem_of_find?_eq_some hfind
    · cases hB

/-- Where block formulas are distinct and no field has both a formula and a block. -/
theorem sharp_collect (hapart : ∀ f ∈ e.fields, f.formula.isSome = true → f.block = none)
    (hblocks : (e.blocks.map (·.formula)).Nodup) :
    Sharp e (ClassRecord.collect catalogue schema e) where
  apart := by
    intro f hf hφ
    obtain ⟨g, hg, rfl⟩ := Entity.mem_cores.mp hf
    exact hapart g hg hφ
  own := by
    intro φ key n hn
    obtain ⟨f, hf, ⟨-, -, B, hB, rfl⟩, rfl, husable⟩ := ClassRecord.member?_collect _ _ _ hn
    obtain ⟨name, hname, hB⟩ := Option.bind_eq_some_iff.mp hB
    obtain rfl : B.name = name := by simpa using List.find?_some hB
    refine ⟨f.core, Entity.core_mem_cores hf, rfl, ?_⟩
    have hfind : e.blocks.find? (·.formula == B.formula) = some B :=
      find?_of_nodup Block.formula hblocks (List.mem_of_find?_eq_some hB)
    rw [ClassRecord.block?_collect, if_pos husable, ClassRecord.blockName?, hfind]
    exact hname

end Collect

namespace BuildState

/-- The record of a class knows a block by its formula. -/
def KnowsBlock (b : BuildState) (C : String) (φ : Formula) (B : String) : Prop :=
  ∃ e c, b.schema.entity? C = some e ∧ b.registry.class? C = some c ∧ c.block? φ = some B

/-- The record of a class knows a member by its key and the formula of its block. -/
def KnowsMember (b : BuildState) (C : String) (φ : Formula) (key : Nat) (n : String) : Prop :=
  ∃ e c, b.schema.entity? C = some e ∧ b.registry.class? C = some c ∧ c.member? φ key = some n

theorem KnowsBlock.unique {b : BuildState} {C B B' : String} {φ : Formula} (h : b.KnowsBlock C φ B)
    (h' : b.KnowsBlock C φ B') : B = B' := by
  obtain ⟨e, c, -, hc, hB⟩ := h
  obtain ⟨e', c', -, hc', hB'⟩ := h'
  obtain rfl : c = c' := Option.some.inj (hc.symm.trans hc')
  exact Option.some.inj (hB.symm.trans hB')

/-- Every member is known by the block it is in. -/
def Sharp (b : BuildState) : Prop :=
  ∀ C e c, b.schema.entity? C = some e → b.registry.class? C = some c → FeatureSynth.Sharp e c

/-- Every record has an entity, which has what it knows, and links are what the records know. -/
structure Linked (b : BuildState) : Prop where
  entity_of_class : ∀ C c, b.registry.class? C = some c → ∃ e, b.schema.entity? C = some e
  indexes : ∀ C e c, b.schema.entity? C = some e → b.registry.class? C = some c → Indexes e c
  described : ∀ (k : Nat) p P, b.space.partitions[k]? = some p → p.descriptorField = some P →
    ∃ φ, b.space.descriptor k = .ok (φ, p.cells) ∧ b.Knows p.parentClass φ P
  tabled : ∀ (k : Nat) p T, b.space.partitions[k]? = some p → p.tableBlock = some T →
    ∃ φ, b.space.tableBlockFormula k = .ok φ ∧ b.KnowsBlock p.parentClass φ T

end BuildState

namespace Grew

open BuildState

variable {b b' : BuildState} {C n : String} {φ : Formula}

theorem knows (h : Grew b b') (hn : b.Knows C φ n) : b'.Knows C φ n := by
  obtain ⟨added, blocks, h⟩ := h
  exact h.knows hn

theorem knowsBlock (h : Grew b b') (hn : b.KnowsBlock C φ n) : b'.KnowsBlock C φ n := by
  obtain ⟨added, blocks, h⟩ := h
  obtain ⟨e, c, he, hc, hn⟩ := hn
  obtain ⟨e', c', he', hc', hg⟩ := h.grows C e c he hc
  exact ⟨e', c', he', hc', hg.block?_mono hn⟩

theorem knowsMember (h : Grew b b') {key : Nat} (hn : b.KnowsMember C φ key n) :
    b'.KnowsMember C φ key n := by
  obtain ⟨added, blocks, h⟩ := h
  obtain ⟨e, c, he, hc, hn⟩ := hn
  obtain ⟨e', c', he', hc', hg⟩ := h.grows C e c he hc
  exact ⟨e', c', he', hc', hg.lookup_mono hn⟩

end Grew

theorem mem_only {α : Type} {C D : String} {x y : α} (h : y ∈ only C [x] D) : C = D ∧ y = x := by
  unfold only at h
  split at h
  · exact ⟨‹C = D›, List.mem_singleton.mp h⟩
  · cases h

/-- What is added to a class is known there. -/
theorem Grows.lookup_added {b b' : BuildState} {C : String} {a : Addition}
    {blocks : String → List Block} {e : Entity} {c : ClassRecord}
    (h : Grows (only C [a]) blocks b b') (he : b.schema.entity? C = some e)
    (hc : b.registry.class? C = some c) :
    ∃ e' c', b'.schema.entity? C = some e' ∧ b'.registry.class? C = some c' ∧
      c'.fields.lookup a.key = some a.field.name := by
  obtain ⟨e', c', he', hc', hclass⟩ := h.grows C e c he hc
  exact ⟨e', c', he', hc', hclass.lookup_added (by simp [only])⟩

namespace BuildState

variable {b b' : BuildState}

/-- Additions leave a state linked, if members are added to the block known by their formula. -/
theorem Linked.of_grows (h : Linked b) {added : String → List Addition}
    {blocks : String → List Block} (hg : Grows added blocks b b') (hspace : b'.space = b.space)
    (hmember : ∀ C c', b'.registry.class? C = some c' → ∀ a ∈ added C, ∀ φ key,
      a.key = (φ, some key) → c'.block? φ = a.field.block) : Linked b' where
  entity_of_class := by
    intro C c' hc'
    obtain ⟨c, hc⟩ := hg.class_before hc'
    obtain ⟨e, he⟩ := h.entity_of_class C c hc
    obtain ⟨e', -, he', -⟩ := hg.grows C e c he hc
    exact ⟨e', he'⟩
  indexes := by
    intro C e' c' he' hc'
    obtain ⟨c, hc⟩ := hg.class_before hc'
    obtain ⟨e, he⟩ := h.entity_of_class C c hc
    obtain ⟨e₁, c₁, he₁, hc₁, hclass⟩ := hg.grows C e c he hc
    obtain rfl : e' = e₁ := Option.some.inj (he'.symm.trans he₁)
    obtain rfl : c' = c₁ := Option.some.inj (hc'.symm.trans hc₁)
    exact hclass.indexes (h.indexes C e c he hc) (hmember C c' hc')
  described := by
    intro k p P hp hP
    rw [hspace] at hp ⊢
    obtain ⟨φ, hφ, hknows⟩ := h.described k p P hp hP
    exact ⟨φ, hφ, hg.knows hknows⟩
  tabled := by
    intro k p T hp hT
    rw [hspace] at hp ⊢
    obtain ⟨φ, hφ, hknows⟩ := h.tabled k p T hp hT
    have hgrew : Grew b b' := ⟨_, _, hg⟩
    exact ⟨φ, hφ, hgrew.knowsBlock hknows⟩

/-- The block that a partition is linked to is the one known by the formula. -/
theorem Linked.table_known (h : Linked b) {k : Nat} {p : Partition} {φ : Formula} {c : ClassRecord}
    (hp : b.space.partitions[k]? = some p) (hφ : b.space.tableBlockFormula k = .ok φ)
    (hc : b.registry.class? p.parentClass = some c) :
    p.tableBlock.or (c.block? φ) = c.block? φ := by
  cases hT : p.tableBlock with
  | none => rfl
  | some T =>
    obtain ⟨ψ, hψ, e, c', -, hc', hT'⟩ := h.tabled _ p T hp hT
    obtain rfl : φ = ψ := Except.ok.inj (hφ.symm.trans hψ)
    obtain rfl : c = c' := Option.some.inj (hc.symm.trans hc')
    exact hT'.symm

/-- The field that a partition is linked to as its descriptor has a formula. -/
theorem Linked.formula_of_descriptor (h : Linked b) {p : Partition} {P : String} {e : Entity}
    {f : Field} (hp : p ∈ b.space.partitions) (hP : p.descriptorField = some P)
    (he : b.schema.entity? p.parentClass = some e) (hf : f ∈ e.fields) (hname : f.name = P) :
    ∃ φ, f.formula = some φ := by
  obtain ⟨k, hk⟩ := List.mem_iff_getElem?.mp hp
  obtain ⟨φ, -, e₁, c, he₁, hc, hknown⟩ := h.described k p P hk hP
  obtain rfl : e = e₁ := Option.some.inj (he.symm.trans he₁)
  have hindexes := h.indexes _ e c he hc
  obtain ⟨g, hg, hgname, hgφ⟩ := hindexes.derived φ P hknown
  have heq : f.core = g := List.inj_on_of_nodup_map hindexes.fields_nodup
    (Entity.core_mem_cores hf) hg (hname.trans hgname.symm)
  exact ⟨φ, (congrArg Field.formula heq).trans hgφ⟩

theorem Linked.sharp (h : Linked b) (hS : b.Sharp) {added : String → List Addition}
    {blocks : String → List Block} (hg : Grows added blocks b b')
    (hmember : ∀ C c', b'.registry.class? C = some c' → ∀ a ∈ added C, ∀ φ key,
      a.key = (φ, some key) → c'.block? φ = a.field.block) : b'.Sharp := by
  intro C e' c' he' hc'
  obtain ⟨c, hc⟩ := hg.class_before hc'
  obtain ⟨e, he⟩ := h.entity_of_class C c hc
  obtain ⟨e₁, c₁, he₁, hc₁, hclass⟩ := hg.grows C e c he hc
  obtain rfl : e' = e₁ := Option.some.inj (he'.symm.trans he₁)
  obtain rfl : c' = c₁ := Option.some.inj (hc'.symm.trans hc₁)
  exact hclass.sharp (h.indexes C e c he hc) (hS C e c he hc) (hmember C c' hc')

/-- A state over a space without links is linked if the entities have what the records know. -/
theorem linked_of_unlinked
    (hclass : ∀ C c, b.registry.class? C = some c → ∃ e, b.schema.entity? C = some e)
    (hindexes : ∀ C e c, b.schema.entity? C = some e → b.registry.class? C = some c → Indexes e c)
    (hspace : b.space.Unlinked) : Linked b where
  entity_of_class := hclass
  indexes := hindexes
  described := by
    intro k p P hp hP
    cases hP.symm.trans (hspace p (List.mem_of_getElem? hp)).1
  tabled := by
    intro k p T hp hT
    cases hT.symm.trans (hspace p (List.mem_of_getElem? hp)).2

/-- From a state to a linked one, with the ledger of fields as it was. -/
structure Links (b b' : BuildState) : Prop where
  grew : Grew b b'
  settles : b.space.Settles b'.space
  fieldOf : b'.fieldOf = b.fieldOf
  linked : Linked b'
  sharp : b.Sharp → b'.Sharp

namespace Links

variable {b'' : BuildState}

protected theorem refl (h : Linked b) : Links b b := ⟨.refl b, .refl _, rfl, h, id⟩

protected theorem trans (h : Links b b') (h' : Links b' b'') : Links b b'' :=
  ⟨h.grew.trans h'.grew, h.settles.trans h'.settles, h'.fieldOf.trans h.fieldOf, h'.linked,
    h'.sharp ∘ h.sharp⟩

/-- Additions that go by the formulas of blocks. -/
theorem of_grows (h : Linked b) {added : String → List Addition} {blocks : String → List Block}
    (hg : Grows added blocks b b') (hspace : b'.space = b.space) (hfieldOf : b'.fieldOf = b.fieldOf)
    (hmember : ∀ C c', b'.registry.class? C = some c' → ∀ a ∈ added C, ∀ φ key,
      a.key = (φ, some key) → c'.block? φ = a.field.block) : Links b b' where
  grew := ⟨_, _, hg⟩
  settles := by rw [hspace]; exact .refl _
  fieldOf := hfieldOf
  linked := h.of_grows hg hspace hmember
  sharp := fun hS => h.sharp hS hg hmember

/-- A step that only marks, moves, or notes what is no entry. -/
theorem of_stays (h : Linked b) (hg : Stays b b') (hspace : b'.space = b.space)
    (hfieldOf : b'.fieldOf = b.fieldOf) : Links b b' :=
  .of_grows h hg hspace hfieldOf fun _ _ _ _ ha => absurd ha List.not_mem_nil

/-- A change of a partition that keeps what it was linked to, and links it to what is known. -/
theorem of_modify (h : Linked b) {k : Nat} {p : Partition} {change : Partition → Partition}
    (hp : b.space.partitions[k]? = some p) (hsettles : p.Settles (change p))
    (hdescribed : ∀ P, (change p).descriptorField = some P → p.descriptorField = some P ∨
      ∃ φ, b.space.descriptor k = .ok (φ, (change p).cells) ∧ b.Knows p.parentClass φ P)
    (htabled : ∀ T, (change p).tableBlock = some T → p.tableBlock = some T ∨
      ∃ φ, b.space.tableBlockFormula k = .ok φ ∧ b.KnowsBlock p.parentClass φ T) :
    Links b { b with space := b.space.modifyPartition k change } := by
  have hs : b.space.Settles (b.space.modifyPartition k change) :=
    .of_modify fun q hq => Option.some.inj (hp.symm.trans hq) ▸ hsettles
  have hpartition : ∀ {j q'}, (b.space.modifyPartition k change).partitions[j]? = some q' →
      (j = k ∧ q' = change p) ∨ b.space.partitions[j]? = some q' := by
    intro j q' hq'
    by_cases hj : k = j
    · subst hj
      simp only [Space.modifyPartition, List.getElem?_modify_eq, hp] at hq'
      exact .inl ⟨rfl, (Option.some.inj hq').symm⟩
    · simp only [Space.modifyPartition] at hq'
      exact .inr ((List.getElem?_modify_ne _ _ hj).symm.trans hq')
  refine ⟨.of_eq rfl rfl rfl, hs, rfl, ⟨h.entity_of_class, h.indexes, ?_, ?_⟩, id⟩
  · intro j q' P hq' hP
    show ∃ φ, (b.space.modifyPartition k change).descriptor j = .ok (φ, q'.cells) ∧ _
    rw [hs.descriptor_eq]
    rcases hpartition hq' with ⟨rfl, rfl⟩ | hq
    · rw [hsettles.parentClass]
      rcases hdescribed P hP with hold | hnew
      · rw [(hsettles.described P hold).2]
        exact h.described j p P hp hold
      · exact hnew
    · exact h.described j q' P hq hP
  · intro j q' T hq' hT
    have hold : ∃ φ, b.space.tableBlockFormula j = .ok φ ∧ b.KnowsBlock q'.parentClass φ T := by
      rcases hpartition hq' with ⟨rfl, rfl⟩ | hq
      · rw [hsettles.parentClass]
        rcases htabled T hT with hold | hnew
        · exact h.tabled j p T hp hold
        · exact hnew
      · exact h.tabled j q' T hq hT
    obtain ⟨φ, hφ, hknows⟩ := hold
    exact ⟨φ, hs.tableBlockFormula_eq hφ, hknows⟩

end Links

end BuildState

namespace Build

open BuildState

variable {b b' : BuildState}

/-! ## Fields -/

/-- The field asked for by a formula is known by it. -/
theorem links_fieldFor (h : Linked b) {C n : String} {φ : Formula}
    {type : Except BuildError FieldType} {make : Naming}
    (hrun : (fieldFor C φ type make).Gives b n b') : Links b b' ∧ b'.Knows C φ n := by
  obtain ⟨hsame, c, hc, hcases⟩ := fieldFor_cases hrun
  obtain ⟨e, he⟩ := h.entity_of_class C c hc
  rcases hcases with ⟨hn, rfl⟩ | ⟨-, t, -, hg⟩
  · exact ⟨.of_stays h (.of_eq rfl rfl rfl) rfl rfl, e, c, he, hc, hn⟩
  · refine ⟨.of_grows h hg hsame.space hsame.fieldOf fun D c' _ a ha ψ key hkey => ?_,
      hg.lookup_added he hc⟩
    obtain rfl := (mem_only ha).2
    cases hkey

/-- The field of a rule is known by its formula, and the ledger notes it last. -/
theorem links_formulaField (h : Linked b) {r : Rule} {φ : Formula} {n : String}
    (hrun : (formulaField r φ).Gives b n b') :
    ∃ b₁, Links b b₁ ∧ b₁.Knows r.className φ n ∧ (recordField r n).Gives b₁ () b' := by
  obtain ⟨name, b₁, hfield, hrun⟩ := gives_bind.mp hrun
  obtain ⟨_, b₂, hrecord, hpure⟩ := gives_bind.mp hrun
  obtain ⟨rfl, rfl⟩ := gives_pure.mp hpure
  obtain ⟨hlinks, hknows⟩ := links_fieldFor h hfield
  exact ⟨b₁, hlinks, hknows, hrecord⟩

/-! ## Members -/

/-- A member goes into the block known by the formula, or into a new one that is known by it from
then on. -/
theorem grows_insertMember {C n B : String} {φ : Formula} {t : FieldType} {key : Nat}
    {make : Naming} {e : Entity} {c : ClassRecord} (he : b.schema.entity? C = some e)
    (hc : b.registry.class? C = some c) (hfresh : n ∉ e.names)
    (hrun : (insertMember C (c.block? φ) φ (.member n t "" key) make).Gives b B b') :
    SameLedgers b b' ∧ b'.KnowsBlock C φ B ∧ ∃ blocks,
      Grows (only C [⟨memberCore (.member n t "" key) B, (φ, some key)⟩]) (only C blocks) b b' := by
  obtain ⟨hsame, c₁, hc₁, -, hcases⟩ := insertMember_cases hrun rfl he hfresh
  obtain rfl : c = c₁ := Option.some.inj (hc.symm.trans hc₁)
  refine ⟨hsame, ?_⟩
  rcases hcases with ⟨hB, -, hg⟩ | ⟨hB, -, hg⟩
  · have hgrew : Grew b b' := ⟨_, _, hg⟩
    exact ⟨hgrew.knowsBlock ⟨e, c, he, hc, hB⟩, _, hg⟩
  · obtain ⟨e', c', he', hc', hclass⟩ := hg.grows C e c he hc
    have hknown : c'.block? φ = some B := hclass.block?_added (B := ⟨B, φ⟩) (by simp [only])
    exact ⟨⟨e', c', he', hc', hknown⟩, _, hg⟩

/-- A new member of the block of a formula is known by its key, and the block by the formula. -/
theorem links_newMember (h : Linked b) {C : String} {c : ClassRecord} {φ : Formula} {t : FieldType}
    {key : Nat} {make makeBlock : Naming} {name B : String} {b₁ : BuildState}
    (hc : b.registry.class? C = some c) (hname : (freeName C make).Gives b name b₁)
    (hrun : (insertMember C (c.block? φ) φ (.member name t "" key) makeBlock).Gives b₁ B b') :
    Links b b' ∧ b'.KnowsBlock C φ B ∧ b'.KnowsMember C φ key name := by
  obtain ⟨stem, names, e, -, he, rfl, rfl⟩ := gives_freeName.mp hname
  obtain ⟨hsame, hB, blocks, hg⟩ :=
    grows_insertMember (b := { b with names }) he hc (Entity.freeName_notMem e stem) hrun
  have hnames : Links b { b with names } := .of_stays h (.of_eq rfl rfl rfl) rfl rfl
  refine ⟨hnames.trans (.of_grows hnames.linked hg hsame.space hsame.fieldOf ?_), hB,
    hg.lookup_added he hc⟩
  intro D c' hc' a ha ψ k hkey
  obtain ⟨rfl, rfl⟩ := mem_only ha
  cases hkey
  obtain ⟨e₁, c₁, -, hc₁, hB⟩ := hB
  obtain rfl : c' = c₁ := Option.some.inj (hc'.symm.trans hc₁)
  exact hB

/-- The member of a rule is known by its key and formula, and the ledger notes it last. -/
theorem links_blockMember (h : Linked b) {r : Rule} {φ : Formula} {key : Nat}
    {n : String} (hrun : (blockMember r φ key).Gives b n b') :
    ∃ b₁, Links b b₁ ∧ b₁.KnowsMember r.className φ key n ∧ (recordField r n).Gives b₁ () b' := by
  simp only [blockMember, gives_record_bind] at hrun
  obtain ⟨c, hc, hrun⟩ := hrun
  obtain ⟨e, he⟩ := h.entity_of_class _ c hc
  cases hmember : c.member? φ key with
  | some name =>
    simp only [hmember] at hrun
    obtain ⟨name', b₁, hreuse, hrun⟩ := gives_bind.mp hrun
    obtain ⟨rfl, rfl⟩ := gives_reuse.mp hreuse
    obtain ⟨_, b₂, hrecord, hpure⟩ := gives_bind.mp hrun
    obtain ⟨rfl, rfl⟩ := gives_pure.mp hpure
    exact ⟨{ b with reused := b.reused + 1 }, .of_stays h (.of_eq rfl rfl rfl) rfl rfl,
      ⟨e, c, he, hc, hmember⟩, hrecord⟩
  | none =>
    simp only [hmember, pure_bind] at hrun
    obtain ⟨name, b₁, hname, hrun⟩ := gives_bind.mp hrun
    obtain ⟨type, -, hrun⟩ := gives_lift_bind.mp hrun
    obtain ⟨B, b₂, hinsert, hrun⟩ := gives_bind.mp hrun
    rw [gives_modify_bind] at hrun
    obtain ⟨_, b₃, hrecord, hpure⟩ := gives_bind.mp hrun
    obtain ⟨rfl, rfl⟩ := gives_pure.mp hpure
    obtain ⟨hlinks, -, hknows⟩ := links_newMember h hc hname hinsert
    exact ⟨{ b₂ with blockOf := b₂.blockOf.update b₂.space.compareBlock r B },
      hlinks.trans (.of_stays hlinks.linked (.of_eq rfl rfl rfl) rfl rfl), hknows, hrecord⟩

/-! ## Partitions -/

theorem gives_partition {rank : Nat} {p : Partition} :
    (partition rank).Gives b p b' ↔ b.space.partitions[rank]? = some p ∧ b' = b := by
  rw [partition, gives_get_bind]
  cases b.space.partitions[rank]? with
  | none => simp [breach]
  | some q => simp [eq_comm]

theorem gives_partition_bind {β : Type} {rank : Nat} {f : Partition → Build β} {x : β} :
    (partition rank >>= f).Gives b x b' ↔
      ∃ p, b.space.partitions[rank]? = some p ∧ (f p).Gives b x b' := by
  simp only [gives_bind, gives_partition]
  constructor
  · rintro ⟨p, _, ⟨hp, rfl⟩, h⟩; exact ⟨p, hp, h⟩
  · rintro ⟨p, hp, h⟩; exact ⟨p, b, ⟨hp, rfl⟩, h⟩

/-- A partition that is not described yet may get other cells. -/
theorem links_cells (h : Linked b) {rank : Nat} {p : Partition}
    (hp : b.space.partitions[rank]? = some p) (hP : p.descriptorField = none) (cells : List Cells) :
    Links b { b with space := b.space.modifyPartition rank fun p => { p with cells } } := by
  refine .of_modify h hp ⟨rfl, rfl, ?_, fun T hT => hT⟩ (fun P hP => .inl hP)
    fun T hT => .inl hT
  intro P' hP'
  cases hP.symm.trans hP'

/-- The field of a descriptor is linked to its partition. -/
theorem links_descriptorField (h : Linked b) {rank : Nat} {P : String}
    (hrun : (descriptorField rank).Gives b P b') :
    Links b b' ∧ ∃ p, b'.space.partitions[rank]? = some p ∧ p.descriptorField = some P := by
  unfold descriptorField at hrun
  rw [gives_partition_bind] at hrun
  obtain ⟨p, hp, hrun⟩ := hrun
  cases hP : p.descriptorField with
  | some name =>
    rw [hP] at hrun
    obtain ⟨rfl, rfl⟩ := gives_pure.mp hrun
    exact ⟨.refl h, p, hp, hP⟩
  | none =>
    simp only [hP, gives_get_bind, gives_lift_bind, gives_modify_bind] at hrun
    obtain ⟨⟨φ, space⟩, hdescribe, hrun⟩ := hrun
    obtain ⟨name, b₂, hfield, hrun⟩ := gives_bind.mp hrun
    rw [modifyPartition, gives_modify_bind] at hrun
    obtain ⟨rfl, rfl⟩ := gives_pure.mp hrun
    obtain ⟨cells, hφ, rfl⟩ := Space.describe_eq_ok hdescribe
    have hcells := links_cells h hp hP cells
    obtain ⟨hfor, hknows⟩ := links_fieldFor hcells.linked hfield
    obtain ⟨hsame, -⟩ := fieldFor_cases hfield
    have hp₂ : b₂.space.partitions[rank]? = some { p with cells } := by
      rw [hsame.space]
      simp [Space.modifyPartition, hp]
    have hlink : Links b₂ { b₂ with
        space := b₂.space.modifyPartition rank fun p => { p with descriptorField := some P } } := by
      refine .of_modify hfor.linked hp₂ ⟨rfl, rfl, ?_, fun T hT => hT⟩ ?_ fun T hT => .inl hT
      · intro P' hP'
        cases hP.symm.trans hP'
      · intro P' hP'
        cases hP'
        rw [hfor.settles.descriptor_eq, hcells.settles.descriptor_eq]
        exact .inr ⟨φ, hφ, hknows⟩
    refine ⟨(hcells.trans hfor).trans hlink, { p with cells, descriptorField := some P }, ?_, rfl⟩
    simp [Space.modifyPartition, hp₂]

/-- How a block of parts comes to be known, once the partition is described: it is known already, with
the part, or a member for the part is inserted. -/
structure TabledBy (part : Part) (T : String) (b b' : BuildState) (p : Partition) (φ : Formula)
    (key : Nat) : Prop where
  cut : b.space.partitions[part.partition]? = some p
  described : p.descriptorField.isSome = true
  formula : b.space.tableBlockFormula part.partition = .ok φ
  keyed : b.space.key part = .ok key
  links : Links b b'
  block : b'.KnowsBlock p.parentClass φ T
  member : ∃ t, b'.KnowsMember p.parentClass φ key t
  inserted : b' = b ∨ ∃ (c : ClassRecord) (name : String) (b₁ : BuildState) (make makeBlock : Naming),
    (freeName p.parentClass make).Gives b name b₁ ∧
      (insertMember p.parentClass (c.block? φ) φ
        (.member name (.objectArray p.className) "" key) makeBlock).Gives b₁ T b'

/-- A block of parts is linked to its partition last. -/
theorem tableBlock_cases (h : Linked b) {part : Part} {T : String}
    (hrun : (tableBlock part).Gives b T b') :
    ∃ P b₁ b₂ p φ key, (descriptorField part.partition).Gives b P b₁ ∧
      TabledBy part T b₁ b₂ p φ key ∧ { b₂ with
        space := b₂.space.modifyPartition part.partition
          fun p => { p with tableBlock := some T } } = b' := by
  unfold tableBlock at hrun
  obtain ⟨P, b₁, hdescriptor, hrun⟩ := gives_bind.mp hrun
  obtain ⟨hlinks, p, hp, hP⟩ := links_descriptorField h hdescriptor
  simp only [gives_get_bind, gives_lift_bind, gives_partition_bind, gives_record_bind] at hrun
  obtain ⟨φ, hφ, key, hkey, p', hp', c, hc, hrun⟩ := hrun
  obtain rfl : p = p' := Option.some.inj (hp.symm.trans hp')
  rw [hlinks.linked.table_known hp hφ hc] at hrun
  have hdescribed : p.descriptorField.isSome = true := by rw [hP]; rfl
  obtain ⟨e, he⟩ := hlinks.linked.entity_of_class _ c hc
  split at hrun
  · rename_i hmember hblock
    simp only [pure_bind, modifyPartition, gives_modify_bind] at hrun
    obtain ⟨rfl, rfl⟩ := gives_pure.mp hrun
    obtain ⟨t, ht⟩ := Option.isSome_iff_exists.mp hmember
    exact ⟨P, b₁, b₁, p, φ, key, hdescriptor, ⟨hp, hdescribed, hφ, hkey, .refl hlinks.linked,
      ⟨e, c, he, hc, hblock⟩, ⟨t, e, c, he, hc, ht⟩, .inl rfl⟩, rfl⟩
  · obtain ⟨name, b₂, hname, hrun⟩ := gives_bind.mp hrun
    obtain ⟨B, b₃, hinsert, hrun⟩ := gives_bind.mp hrun
    rw [modifyPartition, gives_modify_bind] at hrun
    obtain ⟨rfl, rfl⟩ := gives_pure.mp hrun
    obtain ⟨hlinks', hT, ht⟩ := links_newMember hlinks.linked hc hname hinsert
    exact ⟨P, b₁, b₃, p, φ, key, hdescriptor, ⟨hp, hdescribed, hφ, hkey, hlinks', hT, ⟨name, ht⟩,
      .inr ⟨c, name, b₂, _, _, hname, hinsert⟩⟩, rfl⟩

/-- The block of parts of a described partition may be linked to it. -/
theorem TabledBy.link {part : Part} {T : String} {p : Partition} {φ : Formula} {key : Nat}
    (h : TabledBy part T b b' p φ key) :
    ∃ p', b'.space.partitions[part.partition]? = some p' ∧ p.Settles p' ∧ Links b' { b' with
      space := b'.space.modifyPartition part.partition fun p => { p with tableBlock := some T } } := by
  obtain ⟨p', hp', hsettles⟩ := h.links.settles.partition _ p h.cut
  have hφ := h.links.settles.tableBlockFormula_eq h.formula
  have hT := h.block
  rw [← hsettles.parentClass] at hT
  refine ⟨p', hp', hsettles, .of_modify h.links.linked hp' ⟨rfl, rfl, fun P' hP' => ⟨hP', rfl⟩, ?_⟩
    (fun P' hP' => .inl hP') ?_⟩
  · intro T' hT'
    obtain ⟨ψ, hψ, hknows⟩ := h.links.linked.tabled _ p' T' hp' hT'
    obtain rfl : φ = ψ := Except.ok.inj (hφ.symm.trans hψ)
    exact congrArg some (hT.unique hknows)
  · intro T' hT'
    cases hT'
    exact .inr ⟨φ, hφ, hT⟩

/-- A block of parts is linked to its partition, known by its formula, and has the part. -/
theorem links_tableBlock (h : Linked b) {part : Part} {T : String}
    (hrun : (tableBlock part).Gives b T b') :
    Links b b' ∧ ∃ p φ key t, b'.space.partitions[part.partition]? = some p ∧
      p.tableBlock = some T ∧ b'.space.tableBlockFormula part.partition = .ok φ ∧
      b'.space.key part = .ok key ∧ b'.KnowsBlock p.parentClass φ T ∧
      b'.KnowsMember p.parentClass φ key t := by
  obtain ⟨P, b₁, b₂, p, φ, key, hdescriptor, htabled, rfl⟩ := tableBlock_cases h hrun
  obtain ⟨hlinks, -⟩ := links_descriptorField h hdescriptor
  obtain ⟨p₂, hp₂, hsettles, hlink⟩ := htabled.link
  obtain ⟨hp, hdescribed, hφ, hkey, hlinks', hT, ⟨t, ht⟩, -⟩ := htabled
  obtain ⟨P, hP⟩ := Option.isSome_iff_exists.mp hdescribed
  rw [← hlinks'.settles.key_eq hp hP] at hkey
  rw [← hsettles.parentClass] at hT ht
  refine ⟨(hlinks.trans hlinks').trans hlink, { p₂ with tableBlock := some T }, φ, key, t, ?_, rfl,
    hlink.settles.tableBlockFormula_eq (hlinks'.settles.tableBlockFormula_eq hφ), ?_, hT, ht⟩
  · simp [Space.modifyPartition, hp₂]
  · exact (hlink.settles.key_eq hp₂ (hsettles.described P hP).1).trans hkey

end Build

end FeatureSynth
