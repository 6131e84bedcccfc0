/-
# Registry and schema stay in step

The registry and the schema in work are changed by separate calls, and a creation
makes them in its own order: a derived field is registered and then added, a member
added and then registered, with the registration of a new block and its own note in
between.  Whatever the order, after every creation the two say the same: what the
record of a class indexes the class has, and what was created is indexed.  So nothing
is created twice.

A build is looked at as a path of states.  One step of it is a creation, of a derived
field or of a member, or adds nothing.  What one step keeps is shown once, and all
states on a path follow.
-/
import Mathlib.Logic.Relation
import FeatureSynth.Proofs.Build.Linked

namespace FeatureSynth

/-! ## In step -/

/-- What the record of a class indexes, the class has; and every key is indexed once. -/
structure ClassInStep (e : Entity) (c : ClassRecord) : Prop where
  derived : ∀ φ n, ((φ, none), n) ∈ c.fields → ∃ f, e.field? n = some f ∧ f.formula = some φ
  member : ∀ φ key n, ((φ, some key), n) ∈ c.fields → ∃ f B, e.field? n = some f ∧
    f.key = some key ∧ f.block = some B ∧ e.block? B = some ⟨B, φ⟩
  block : ∀ φ B, (φ, B) ∈ c.blocks → e.block? B = some ⟨B, φ⟩
  keys_nodup : (c.fields.map (·.1)).Nodup
  formulas_nodup : (c.blocks.map (·.1)).Nodup

/-- A field is indexed: a derived one under its formula, a member under its key and the formula of
its block. -/
inductive Field.Indexed (f : Field) (e : Entity) (c : ClassRecord) : Prop
  | derived (φ : Formula) (formula : f.formula = some φ) (block : f.block = none)
      (entry : ((φ, none), f.name) ∈ c.fields)
  | member (φ : Formula) (key : Nat) (B : String) (formula : f.formula = none)
      (block : f.block = some B) (key_eq : f.key = some key) (declared : e.block? B = some ⟨B, φ⟩)
      (entry : ((φ, some key), f.name) ∈ c.fields)

namespace BuildState

/-- Registry and schema in work say the same of every class, and what was created is indexed. -/
structure InStep (b : BuildState) : Prop where
  classes : b.registry.classes.map (·.className) = b.schema.entities.map (·.name)
  indexed : ∀ C e c, b.schema.entity? C = some e → b.registry.class? C = some c → ClassInStep e c
  createdField : ∀ C n, ⟨C, n⟩ ∈ b.createdFields → ∃ e c f, b.schema.entity? C = some e ∧
    b.registry.class? C = some c ∧ e.field? n = some f ∧ f.Indexed e c
  createdBlock : ∀ C n, ⟨C, n⟩ ∈ b.createdBlocks → ∃ e c φ, b.schema.entity? C = some e ∧
    b.registry.class? C = some c ∧ e.block? n = some ⟨n, φ⟩ ∧ (φ, n) ∈ c.blocks

/-- Nothing was created twice in a class: no derived field with the same formula, no member under
the same key of blocks with the same formula, no block with the same formula. -/
structure NoRepeats (b : BuildState) : Prop where
  derived : ∀ C e n n' f f' φ, ⟨C, n⟩ ∈ b.createdFields → ⟨C, n'⟩ ∈ b.createdFields →
    b.schema.entity? C = some e → e.field? n = some f → e.field? n' = some f' →
    f.formula = some φ → f'.formula = some φ → n = n'
  member : ∀ C e n n' f f' B B' φ key, ⟨C, n⟩ ∈ b.createdFields → ⟨C, n'⟩ ∈ b.createdFields →
    b.schema.entity? C = some e → e.field? n = some f → e.field? n' = some f' →
    f.block = some B → f'.block = some B' → e.block? B = some ⟨B, φ⟩ →
    e.block? B' = some ⟨B', φ⟩ → f.key = some key → f'.key = some key → n = n'
  block : ∀ C e n n' φ, ⟨C, n⟩ ∈ b.createdBlocks → ⟨C, n'⟩ ∈ b.createdBlocks →
    b.schema.entity? C = some e → e.block? n = some ⟨n, φ⟩ → e.block? n' = some ⟨n', φ⟩ → n = n'

end BuildState

/-- What stands under one key is one name. -/
theorem eq_of_mem_of_mem {κ : Type} [BEq κ] [LawfulBEq κ] {entries : List (κ × String)}
    (h : (entries.map (·.1)).Nodup) {key : κ} {n n' : String} (hn : (key, n) ∈ entries)
    (hn' : (key, n') ∈ entries) : n = n' :=
  Option.some.inj ((lookup_of_mem h hn).symm.trans (lookup_of_mem h hn'))

namespace BuildState

variable {b b' : BuildState}

/-- A created field of a class is indexed. -/
theorem InStep.indexed_of_created (h : b.InStep) {C n : String} {e : Entity} {f : Field}
    (hn : ⟨C, n⟩ ∈ b.createdFields) (he : b.schema.entity? C = some e) (hf : e.field? n = some f) :
    ∃ c, b.registry.class? C = some c ∧ f.name = n ∧ f.Indexed e c := by
  obtain ⟨e₁, c, f₁, he₁, hc, hf₁, hindexed⟩ := h.createdField C n hn
  obtain rfl : e = e₁ := Option.some.inj (he.symm.trans he₁)
  obtain rfl : f = f₁ := Option.some.inj (hf.symm.trans hf₁)
  exact ⟨c, hc, by simpa using List.find?_some hf, hindexed⟩

/-- Where all that was created is indexed, nothing was created twice. -/
theorem InStep.noRepeats (h : b.InStep) : b.NoRepeats where
  derived := by
    intro C e n n' f f' φ hn hn' he hf hf' hφ hφ'
    obtain ⟨c, hc, rfl, hindexed⟩ := h.indexed_of_created hn he hf
    obtain ⟨c', hc', rfl, hindexed'⟩ := h.indexed_of_created hn' he hf'
    obtain rfl : c = c' := Option.some.inj (hc.symm.trans hc')
    rcases hindexed with ⟨ψ, hψ, -, hentry⟩ | ⟨-, -, -, hnone, -, -, -, -⟩
    · rcases hindexed' with ⟨ψ', hψ', -, hentry'⟩ | ⟨-, -, -, hnone, -, -, -, -⟩
      · obtain rfl : φ = ψ := Option.some.inj (hφ.symm.trans hψ)
        obtain rfl : φ = ψ' := Option.some.inj (hφ'.symm.trans hψ')
        exact eq_of_mem_of_mem (h.indexed C e c he hc).keys_nodup hentry hentry'
      · cases hφ'.symm.trans hnone
    · cases hφ.symm.trans hnone
  member := by
    intro C e n n' f f' B B' φ key hn hn' he hf hf' hB hB' hφ hφ' hkey hkey'
    have entry : ∀ {n f B}, ⟨C, n⟩ ∈ b.createdFields → e.field? n = some f → f.block = some B →
        e.block? B = some ⟨B, φ⟩ → f.key = some key →
        ∃ c, b.registry.class? C = some c ∧ ((φ, some key), n) ∈ c.fields := by
      intro n f B hn hf hB hφ hkey
      obtain ⟨c, hc, rfl, hindexed⟩ := h.indexed_of_created hn he hf
      rcases hindexed with ⟨-, -, hnone, -⟩ | ⟨ψ, k, B₁, -, hB₁, hk, hψ, hentry⟩
      · cases hB.symm.trans hnone
      · obtain rfl : B = B₁ := Option.some.inj (hB.symm.trans hB₁)
        obtain rfl : key = k := Option.some.inj (hkey.symm.trans hk)
        cases Option.some.inj (hφ.symm.trans hψ)
        exact ⟨c, hc, hentry⟩
    obtain ⟨c, hc, hentry⟩ := entry hn hf hB hφ hkey
    obtain ⟨c', hc', hentry'⟩ := entry hn' hf' hB' hφ' hkey'
    obtain rfl : c = c' := Option.some.inj (hc.symm.trans hc')
    exact eq_of_mem_of_mem (h.indexed C e c he hc).keys_nodup hentry hentry'
  block := by
    intro C e n n' φ hn hn' he hφ hφ'
    have entry : ∀ {n}, ⟨C, n⟩ ∈ b.createdBlocks → e.block? n = some ⟨n, φ⟩ →
        ∃ c, b.registry.class? C = some c ∧ (φ, n) ∈ c.blocks := by
      intro n hn hφ
      obtain ⟨e₁, c, ψ, he₁, hc, hψ, hentry⟩ := h.createdBlock C n hn
      obtain rfl : e = e₁ := Option.some.inj (he.symm.trans he₁)
      cases Option.some.inj (hφ.symm.trans hψ)
      exact ⟨c, hc, hentry⟩
    obtain ⟨c, hc, hentry⟩ := entry hn hφ
    obtain ⟨c', hc', hentry'⟩ := entry hn' hφ'
    obtain rfl : c = c' := Option.some.inj (hc.symm.trans hc')
    exact eq_of_mem_of_mem (h.indexed C e c he hc).formulas_nodup hentry hentry'

/-! ## What a step keeps -/

/-- What is in step, in the terms in which a step adds: up to marks and order. -/
structure Accounted (b : BuildState) : Prop where
  classes : b.registry.classes.map (·.className) = b.schema.entities.map (·.name)
  indexes : ∀ C e c, b.schema.entity? C = some e → b.registry.class? C = some c → Indexes e c
  createdField : ∀ C n, ⟨C, n⟩ ∈ b.createdFields → ∃ e c, b.schema.entity? C = some e ∧
    b.registry.class? C = some c ∧
      ∃ a : Addition, a.WellIndexed ∧ a.field ∈ e.cores ∧ a.field.name = n ∧ a.entry ∈ c.fields
  createdBlock : ∀ C n, ⟨C, n⟩ ∈ b.createdBlocks → ∃ e c, b.schema.entity? C = some e ∧
    b.registry.class? C = some c ∧ ∃ B ∈ e.blocks, B.name = n ∧ (B.formula, n) ∈ c.blocks

/-- Every record has an entity. -/
theorem Accounted.entity_of_class (h : b.Accounted) {C : String} {c : ClassRecord}
    (hc : b.registry.class? C = some c) : ∃ e, b.schema.entity? C = some e := by
  have hmem : C ∈ b.schema.entities.map (·.name) := by
    rw [← h.classes, ← Registry.className_of_class? hc]
    exact List.mem_map_of_mem (List.mem_of_find?_eq_some hc)
  obtain ⟨e, he, rfl⟩ := List.mem_map.mp hmem
  exact Option.isSome_iff_exists.mp (List.find?_isSome.mpr ⟨e, he, beq_self_eq_true _⟩)

/-- Additions to classes that have a record, members to the block known by their formula. -/
theorem Accounted.of_grows (h : b.Accounted) {added : String → List Addition}
    {blocks : String → List Block} (hg : Grows added blocks b b')
    (hclass : ∀ C, added C ≠ [] ∨ blocks C ≠ [] →
      ∃ e c, b.schema.entity? C = some e ∧ b.registry.class? C = some c)
    (hmember : ∀ C c', b'.registry.class? C = some c' → ∀ a ∈ added C, ∀ φ key,
      a.key = (φ, some key) → c'.block? φ = a.field.block) : b'.Accounted where
  classes := by rw [hg.classes, hg.entities, h.classes]
  indexes := by
    intro C e' c' he' hc'
    obtain ⟨c, hc⟩ := hg.class_before hc'
    obtain ⟨e, he⟩ := h.entity_of_class hc
    obtain ⟨e₁, c₁, he₁, hc₁, hgrows⟩ := hg.grows C e c he hc
    obtain rfl : e' = e₁ := Option.some.inj (he'.symm.trans he₁)
    obtain rfl : c' = c₁ := Option.some.inj (hc'.symm.trans hc₁)
    exact hgrows.indexes (h.indexes C e c he hc) (hmember C c' hc')
  createdField := by
    intro C n hn
    rcases (hg.created C n).mp hn with hold | ⟨a, ha, rfl⟩
    · obtain ⟨e, c, he, hc, a, hindexed, hfield, hname, hentry⟩ := h.createdField C n hold
      obtain ⟨e', c', he', hc', hgrows⟩ := hg.grows C e c he hc
      refine ⟨e', c', he', hc', a, hindexed, hgrows.core_mem hfield, hname, ?_⟩
      exact hgrows.fields_eq ▸ List.mem_append_left _ hentry
    · obtain ⟨e, c, he, hc⟩ := hclass C (.inl (List.ne_nil_of_mem ha))
      obtain ⟨e', c', he', hc', hgrows⟩ := hg.grows C e c he hc
      refine ⟨e', c', he', hc', a, hgrows.indexed a ha, hgrows.added_mem ha, rfl, ?_⟩
      exact hgrows.fields_eq ▸ List.mem_append_right _ (List.mem_map_of_mem ha)
  createdBlock := by
    intro C n hn
    rcases (hg.createdBlocks C n).mp hn with hold | ⟨B, hB, rfl⟩
    · obtain ⟨e, c, he, hc, B, hB, hname, hentry⟩ := h.createdBlock C n hold
      obtain ⟨e', c', he', hc', hgrows⟩ := hg.grows C e c he hc
      refine ⟨e', c', he', hc', B, hgrows.blocks_perm.mem_iff.mpr (List.mem_append_left _ hB),
        hname, ?_⟩
      exact hgrows.blocks_eq ▸ List.mem_append_left _ hentry
    · obtain ⟨e, c, he, hc⟩ := hclass C (.inr (List.ne_nil_of_mem hB))
      obtain ⟨e', c', he', hc', hgrows⟩ := hg.grows C e c he hc
      refine ⟨e', c', he', hc', B, hgrows.blocks_perm.mem_iff.mpr (List.mem_append_right _ hB), rfl,
        ?_⟩
      exact hgrows.blocks_eq ▸
        List.mem_append_right _ (List.mem_map_of_mem (f := fun B : Block => (B.formula, B.name)) hB)

end BuildState

namespace Indexes

variable {e : Entity} {c : ClassRecord}

/-- A field is found under its own name. -/
theorem field?_of_core (h : Indexes e c) {f : Field} (hf : f ∈ e.cores) :
    ∃ g, e.field? f.name = some g ∧ g.core = f := by
  obtain ⟨g, hg, rfl⟩ := Entity.mem_cores.mp hf
  have hnodup := h.fields_nodup
  rw [Entity.map_name_cores] at hnodup
  exact ⟨g, find?_of_nodup Field.name hnodup hg, rfl⟩

/-- A block is found under its own name. -/
theorem block?_of_mem (h : Indexes e c) {B : Block} (hB : B ∈ e.blocks) :
    e.block? B.name = some B :=
  find?_of_nodup Block.name h.blocks_nodup hB

theorem inStep (h : Indexes e c) : ClassInStep e c where
  derived := by
    intro φ n hn
    obtain ⟨f, hf, rfl, hφ⟩ := h.derived φ n (lookup_of_mem h.keys_nodup hn)
    obtain ⟨g, hg, rfl⟩ := h.field?_of_core hf
    exact ⟨g, hg, hφ⟩
  member := by
    intro φ key n hn
    obtain ⟨-, f, hf, B, rfl, hkey, hB, hdeclared⟩ := h.member φ key n (lookup_of_mem h.keys_nodup hn)
    obtain ⟨g, hg, rfl⟩ := h.field?_of_core hf
    exact ⟨g, B, hg, hkey, hB, h.block?_of_mem hdeclared⟩
  block := fun φ B hB => h.block?_of_mem (h.block φ B (lookup_of_mem h.formulas_nodup hB))
  keys_nodup := h.keys_nodup
  formulas_nodup := h.formulas_nodup

end Indexes

namespace BuildState

variable {b b' : BuildState}

theorem Accounted.inStep (h : b.Accounted) : b.InStep where
  classes := h.classes
  indexed := fun C e c he hc => (h.indexes C e c he hc).inStep
  createdField := by
    intro C n hn
    obtain ⟨e, c, he, hc, ⟨f, φ, k⟩, hindexed, hf, rfl, hentry⟩ := h.createdField C n hn
    have hI := h.indexes C e c he hc
    obtain ⟨g, hg, rfl⟩ := hI.field?_of_core hf
    refine ⟨e, c, g, he, hc, hg, ?_⟩
    cases k with
    | none => exact .derived φ hindexed.1 hindexed.2 hentry
    | some key =>
      -- the block of the member is the one its entry is known by
      obtain ⟨g', B, hg', hkey, hB, hdeclared⟩ := hI.inStep.member φ key _ hentry
      obtain rfl : g = g' := Option.some.inj (hg.symm.trans hg')
      exact .member φ key B hindexed.1 hB hkey hdeclared hentry
  createdBlock := by
    intro C n hn
    obtain ⟨e, c, he, hc, B, hB, rfl, hentry⟩ := h.createdBlock C n hn
    exact ⟨e, c, B.formula, he, hc, (h.indexes C e c he hc).block?_of_mem hB, hentry⟩

/-! ## Paths -/

/-- One creation: a derived field under a name that is free, or a member, of the block that the
record knows by its formula, under a name that is free and a key that is not taken. -/
inductive Creates (b b' : BuildState) : Prop
  | derived {C n : String} {t : FieldType} {φ : Formula} {e : Entity} {c : ClassRecord}
      (entity : b.schema.entity? C = some e) (record : b.registry.class? C = some c)
      (fresh : n ∉ e.names)
      (run : (Build.insertDerived C (.derived n t φ)).Gives b n b')
  | member {C n B : String} {t : FieldType} {φ : Formula} {key : Nat} {e : Entity} {c : ClassRecord}
      {make : Build.Naming} (entity : b.schema.entity? C = some e)
      (record : b.registry.class? C = some c) (fresh : n ∉ e.names)
      (run : (Build.insertMember C (c.block? φ) φ (.member n t "" key) make).Gives b B b')

/-- One step: a creation, or one that adds nothing. -/
def Advances (b b' : BuildState) : Prop := Creates b b' ∨ Stays b b'

/-- Step by step from one state to another. -/
abbrev Path : BuildState → BuildState → Prop := Relation.ReflTransGen Advances

/-- A creation adds one field to one class, a member to the block known by its formula. -/
theorem Creates.grows (h : Creates b b') : ∃ C e c a blocks, b.schema.entity? C = some e ∧
    b.registry.class? C = some c ∧ Grows (only C [a]) (only C blocks) b b' ∧
      ∀ φ key, a.key = (φ, some key) → ∃ B, a.field.block = some B ∧ b'.KnowsBlock C φ B := by
  rcases h with ⟨he, hc, hfresh, hrun⟩ | ⟨he, hc, hfresh, hrun⟩
  · obtain ⟨φ, -, -, -, hg⟩ := Build.grows_insertDerived hrun rfl he hfresh
    refine ⟨_, _, _, _, _, he, hc, hg, fun ψ key hkey => ?_⟩
    cases hkey
  · obtain ⟨-, hB, blocks, hg⟩ := Build.grows_insertMember he hc hfresh hrun
    refine ⟨_, _, _, _, _, he, hc, hg, fun ψ key hkey => ?_⟩
    cases hkey
    exact ⟨_, rfl, hB⟩

theorem Accounted.of_creates (h : b.Accounted) (hc : Creates b b') : b'.Accounted := by
  obtain ⟨C, e, c, a, blocks, he, hc, hg, hmember⟩ := hc.grows
  refine h.of_grows hg ?_ ?_
  · intro D hD
    obtain rfl : C = D := by
      by_contra hne
      simp [only, hne] at hD
    exact ⟨e, c, he, hc⟩
  · intro D c' hc' a' ha' φ key hkey
    obtain ⟨rfl, rfl⟩ := mem_only ha'
    obtain ⟨B, hB, e₁, c₁, -, hc₁, hknown⟩ := hmember φ key hkey
    obtain rfl : c' = c₁ := Option.some.inj (hc'.symm.trans hc₁)
    rw [hB, hknown]

theorem Accounted.of_stays (h : b.Accounted) (hg : Stays b b') : b'.Accounted :=
  h.of_grows hg (fun _ hne => by simp at hne) fun _ _ _ _ ha => absurd ha List.not_mem_nil

/-- What is in step stays in step. -/
theorem Accounted.of_path (h : b.Accounted) (hp : Path b b') : b'.Accounted := by
  induction hp with
  | refl => exact h
  | tail _ step ih => exact step.elim ih.of_creates ih.of_stays

/-- At the start the registry is that of the schema, and nothing is created. -/
theorem accounted_start (catalogue : Catalogue) (o : Options) {schema : Schema} (space : Space)
    (interrupt : Interrupt) (hschema : schema.compile = .ok ()) :
    (start catalogue o schema space interrupt).Accounted where
  classes := by simp [start, Registry.collect, Function.comp_def]
  indexes := by
    intro C e c he hc
    rw [class?_start, show schema.entity? C = some e from he] at hc
    cases hc
    exact indexes_collect catalogue schema
      ((Schema.nodup_of_compile hschema).2 e (Schema.mem_of_entity? he))
  createdField := fun _ _ hn => absurd hn List.not_mem_nil
  createdBlock := fun _ _ hn => absurd hn List.not_mem_nil

end BuildState

end FeatureSynth
