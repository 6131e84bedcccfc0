/-
# What a build leaves to be found

A build on the schema that another one left asks for what that one made.  What it finds
goes by formulas: a derived field under its own, a member under that of its block and
its key, a block under its own.  A formula may stand in several places of a schema, and
the first one is found.  But a build that starts from stored fields alone creates
whatever has a formula, and nothing twice, so there is one place only, and the name found
in it is the name the registry had at the end of the build.

A formula is found under an operator of its class.  That the operators are usable is a
question about the rules, and left open here.
-/
import FeatureSynth.Proofs.Build.Path
import FeatureSynth.Proofs.Registry.Applies

namespace FeatureSynth

/-- Nothing in a schema is derived: no field has a formula, and there are no blocks. -/
def Schema.Stored (s : Schema) : Prop :=
  ∀ e ∈ s.entities, e.blocks = [] ∧ ∀ f ∈ e.fields, f.formula = none

namespace Schema

variable {s : Schema}

/-- Where there are no blocks there are no members. -/
theorem Stored.block_eq_none (h : s.Stored) (hcompile : s.compile = .ok ()) {e : Entity}
    (he : e ∈ s.entities) {f : Field} (hf : f ∈ e.fields) : f.block = none := by
  obtain ⟨-, hentities⟩ := Option.or_eq_none_iff.mp (fault?_of_compile hcompile)
  have hentity := Option.map_eq_none_iff.mp (List.findSome?_eq_none_iff.mp hentities e he)
  obtain ⟨-, hmembers⟩ := Option.or_eq_none_iff.mp
    (Option.or_eq_none_iff.mp (Option.or_eq_none_iff.mp hentity).2).2
  have hmember := List.findSome?_eq_none_iff.mp hmembers f hf
  cases hblock : f.block with
  | none => rfl
  | some B => simp [Entity.memberFault?, hblock, Entity.block?, (h e he).1] at hmember

end Schema

namespace BuildState

/-- A registry collected from the schema of a state knows what the state knows, under operators that
are usable there. -/
structure Found (b : BuildState) : Prop where
  field : ∀ C φ n, b.Knows C φ n → b.schema.Usable C φ.name →
    ∃ c, (Registry.collect .default b.schema).class? C = some c ∧ c.field? φ = some n
  member : ∀ C φ key n, b.KnowsMember C φ key n → b.schema.Usable C φ.name →
    ∃ c, (Registry.collect .default b.schema).class? C = some c ∧ c.member? φ key = some n
  block : ∀ C φ B, b.KnowsBlock C φ B → b.schema.Usable C φ.name →
    ∃ c, (Registry.collect .default b.schema).class? C = some c ∧ c.block? φ = some B

/-- In a state all that is derived was created, and nothing was created twice. -/
structure Made (b : BuildState) : Prop where
  compile : b.schema.compile = .ok ()
  accounted : b.Accounted
  field : ∀ C e f, b.schema.entity? C = some e → f ∈ e.fields →
    (f.formula.isSome = true ∨ f.block.isSome = true) → ⟨C, f.name⟩ ∈ b.createdFields
  block : ∀ C e B, b.schema.entity? C = some e → B ∈ e.blocks → ⟨C, B.name⟩ ∈ b.createdBlocks

namespace Made

variable {b : BuildState} {C : String} {e : Entity}

theorem names_nodup (h : b.Made) (he : b.schema.entity? C = some e) : e.names.Nodup :=
  (Schema.nodup_of_compile h.compile).2 e (Schema.mem_of_entity? he)

theorem class?_collect (he : b.schema.entity? C = some e) :
    (Registry.collect .default b.schema).class? C =
      some (ClassRecord.collect .default b.schema e) := by
  have hclass := class?_start .default .default b.schema .empty .never C
  rwa [he] at hclass

/-- A created field is known by its formula under one name. -/
theorem found_field (h : b.Made) {φ : Formula} {n : String} (hn : b.Knows C φ n)
    (hu : b.schema.Usable C φ.name) :
    ∃ c, (Registry.collect .default b.schema).class? C = some c ∧ c.field? φ = some n := by
  obtain ⟨e, c, he, hc, hn⟩ := hn
  refine ⟨_, class?_collect he, ?_⟩
  obtain ⟨x, hx, rfl, hφ⟩ := (h.accounted.indexes C e c he hc).derived φ n hn
  obtain ⟨f, hf, rfl⟩ := Entity.mem_cores.mp hx
  rw [Field.core_formula] at hφ
  have husable := hu.isUsable he
  obtain ⟨m, hm⟩ := Option.isSome_iff_exists.mp
    ((ClassRecord.field?_collect_isSome .default b.schema e φ).mpr ⟨⟨f, hf, hφ⟩, husable⟩)
  rw [hm]
  rw [ClassRecord.field?_collect, if_pos husable] at hm
  obtain ⟨g, hg, rfl⟩ := Option.map_eq_some_iff.mp hm
  have hψ : g.formula = some φ := by simpa using List.find?_some hg
  have hg := List.mem_of_find?_eq_some hg
  have hnames := h.names_nodup he
  exact congrArg some (h.accounted.inStep.noRepeats.derived C e _ _ g f φ
    (h.field C e g he hg (.inl (by rw [hψ]; rfl))) (h.field C e f he hf (.inl (by rw [hφ]; rfl)))
    he (Entity.field?_of_mem hnames hg) (Entity.field?_of_mem hnames hf) hψ hφ)

/-- A created member is known by its key and the formula of its block under one name. -/
theorem found_member (h : b.Made) {φ : Formula} {key : Nat} {n : String}
    (hn : b.KnowsMember C φ key n) (hu : b.schema.Usable C φ.name) :
    ∃ c, (Registry.collect .default b.schema).class? C = some c ∧ c.member? φ key = some n := by
  obtain ⟨e, c, he, hc, hn⟩ := hn
  refine ⟨_, class?_collect he, ?_⟩
  have hindexes := h.accounted.indexes C e c he hc
  obtain ⟨-, x, hx, B, rfl, hkey, hB, hφ⟩ := hindexes.member φ key n hn
  obtain ⟨f, hf, rfl⟩ := Entity.mem_cores.mp hx
  rw [Field.core_block] at hB
  rw [Field.core_key] at hkey
  have hnames := h.names_nodup he
  have hcreated := h.field C e f he hf (.inr (by rw [hB]; rfl))
  have hf? := Entity.field?_of_mem hnames hf
  have hplain : f.formula = none := by
    obtain ⟨_, -, -, hindexed⟩ := h.accounted.inStep.indexed_of_created hcreated he hf?
    cases hindexed with
    | derived _ _ hnone => cases hB.symm.trans hnone
    | member _ _ _ hplain => exact hplain
  have hB? : e.block? B = some ⟨B, φ⟩ := hindexes.block?_of_mem hφ
  have husable := hu.isUsable he
  obtain ⟨m, hm⟩ := Option.isSome_iff_exists.mp
    (ClassRecord.member?_collect_isSome .default b.schema hf
      ⟨hplain, hkey, ⟨B, φ⟩, by rw [hB]; exact hB?, rfl⟩ husable)
  rw [hm]
  obtain ⟨g, hg, ⟨-, hgkey, B', hB', rfl⟩, rfl, -⟩ := ClassRecord.member?_collect _ _ _ hm
  obtain ⟨U, hU, hU?⟩ := Option.bind_eq_some_iff.mp hB'
  obtain rfl : B'.name = U := by simpa using List.find?_some hU?
  exact congrArg some (h.accounted.inStep.noRepeats.member C e _ _ g f _ _ _ key
    (h.field C e g he hg (.inr (by rw [hU]; rfl))) hcreated he (Entity.field?_of_mem hnames hg) hf?
    hU hB hU? hB? hgkey hkey)

/-- A created block is known by its formula under one name. -/
theorem found_block (h : b.Made) {φ : Formula} {B : String} (hB : b.KnowsBlock C φ B)
    (hu : b.schema.Usable C φ.name) :
    ∃ c, (Registry.collect .default b.schema).class? C = some c ∧ c.block? φ = some B := by
  obtain ⟨e, c, he, hc, hB⟩ := hB
  refine ⟨_, class?_collect he, ?_⟩
  have hindexes := h.accounted.indexes C e c he hc
  have hmem : (⟨B, φ⟩ : Block) ∈ e.blocks := hindexes.block φ B hB
  rw [ClassRecord.block?_collect, if_pos (hu.isUsable he), ClassRecord.blockName?]
  obtain ⟨⟨U, ψ⟩, hU⟩ := Option.isSome_iff_exists.mp
    (List.find?_isSome.mpr ⟨_, hmem, beq_iff_eq.mpr rfl⟩ :
      (e.blocks.find? (·.formula == φ)).isSome = true)
  obtain rfl : ψ = φ := by simpa using List.find?_some hU
  rw [hU]
  have hU := List.mem_of_find?_eq_some hU
  exact congrArg some (h.accounted.inStep.noRepeats.block C e U B ψ (h.block C e _ he hU)
    (h.block C e _ he hmem) he (hindexes.block?_of_mem hU) (hindexes.block?_of_mem hmem))

theorem found (h : b.Made) : b.Found where
  field := fun _ _ _ => h.found_field
  member := fun _ _ _ _ => h.found_member
  block := fun _ _ _ => h.found_block

end Made

end BuildState

section Whole

open BuildState

variable {catalogue : Catalogue} {o : Options} {schema : Schema} {space : Space}
variable {rules : List Rule} {interrupt : Interrupt} {b : BuildState}

/-- A build from stored fields alone made all that is derived in the end. -/
theorem made_runBuild (hschema : schema.compile = .ok ()) (hstored : schema.Stored)
    (hbuild : runBuild catalogue o schema space rules interrupt = (.ok (), b)) : b.Made := by
  obtain ⟨-, -, -, hcompile⟩ := runBuild_eq_ok hbuild
  obtain ⟨added, blocks, hgrows⟩ := runBuild_grows hbuild
  have haccounted : b.Accounted := by
    have hstart := accounted_start catalogue o space interrupt hschema
    have hpath := hstart.of_path
      (Build.path_complete hstart (Space.unlinked_clearLinks space) o rules)
    rwa [show ((Build.complete o rules).run _).2 = b from congrArg Prod.snd hbuild] at hpath
  have hclass : ∀ C e, b.schema.entity? C = some e → ∃ e₀ c', schema.entity? C = some e₀ ∧
      ClassGrows (added C) (blocks C) e₀ (ClassRecord.collect catalogue schema e₀) e c' := by
    intro C e he
    have hmem : C ∈ schema.entities.map (·.name) := by
      rw [show schema.entities.map (·.name) = b.schema.entities.map (·.name) from
        hgrows.entities.symm]
      exact Schema.class_of_entity? he
    obtain ⟨x, hx, hname⟩ := List.mem_map.mp hmem
    obtain ⟨e₀, he₀⟩ := Option.isSome_iff_exists.mp (List.find?_isSome.mpr
      ⟨x, hx, beq_iff_eq.mpr hname⟩ : (schema.entity? C).isSome = true)
    obtain ⟨e', c', he', -, hgrows⟩ := hgrows.class_of_start he₀
    obtain rfl : e = e' := Option.some.inj (he.symm.trans he')
    exact ⟨e₀, c', he₀, hgrows⟩
  refine ⟨hcompile, haccounted, fun C e f he hf hderived => ?_, fun C e B he hB => ?_⟩
  · obtain ⟨e₀, c', he₀, hgrows'⟩ := hclass C e he
    refine (hgrows.created C f.name).mpr (.inr ?_)
    rcases List.mem_append.mp (hgrows'.cores.mem_iff.mp (Entity.core_mem_cores hf)) with hold | hnew
    · obtain ⟨g, hg, hcore⟩ := Entity.mem_cores.mp hold
      have he₀ := Schema.mem_of_entity? he₀
      have hφ : f.formula = none := by
        rw [← Field.core_formula, ← hcore, Field.core_formula, (hstored e₀ he₀).2 g hg]
      have hB : f.block = none := by
        rw [← Field.core_block, ← hcore, Field.core_block,
          hstored.block_eq_none hschema he₀ hg]
      simp [hφ, hB] at hderived
    · obtain ⟨a, ha, hfield⟩ := List.mem_map.mp hnew
      exact ⟨a, ha, by rw [hfield, Field.core_name]⟩
  · obtain ⟨e₀, c', he₀, hgrows'⟩ := hclass C e he
    refine (hgrows.createdBlocks C B.name).mpr (.inr ?_)
    have hB := hgrows'.blocks_perm.mem_iff.mp hB
    rw [(hstored e₀ (Schema.mem_of_entity? he₀)).1, List.nil_append] at hB
    exact ⟨B, hB, rfl⟩

end Whole

end FeatureSynth
