/-
# Whole builds

A build that succeeds starts from the records of its schema, adds, gives every
field its final cost, and ends in a schema that compiles.  So what was added is
told apart by its names: the added fields of a class are those whose name the
class did not carry.
-/
import Mathlib.Data.List.Nodup
import FeatureSynth.Proofs.Build.Steps
import FeatureSynth.Proofs.Schema.WellFormed

namespace FeatureSynth

/-! ## Start -/

namespace ClassRecord

/-- What a record of an entity knows are names of its fields. -/
theorem name_mem_of_lookup_collect {catalogue : Catalogue} {schema : Schema} {e : Entity}
    {key : Formula × Option Nat} {n : String}
    (h : (collect catalogue schema e).fields.lookup key = some n) : n ∈ e.names := by
  obtain ⟨φ, _ | k⟩ := key
  · have hf : (collect catalogue schema e).field? φ = some n := h
    rw [field?_collect] at hf
    split at hf
    · obtain ⟨f, hfind, rfl⟩ := Option.map_eq_some_iff.mp hf
      exact Entity.name_mem_names (List.mem_of_find?_eq_some hfind)
    · cases hf
  · obtain ⟨f, hf, -, rfl, -⟩ := member?_collect catalogue schema e h
    exact Entity.name_mem_names hf

end ClassRecord

namespace BuildState

variable (catalogue : Catalogue) (o : Options) (schema : Schema) (space : Space)
variable (interrupt : Interrupt)

theorem class?_start (C : String) :
    (start catalogue o schema space interrupt).registry.class? C =
      (schema.entity? C).map (ClassRecord.collect catalogue schema) := by
  simp [start, Registry.class?, Registry.collect, Schema.entity?, List.find?_map]

end BuildState

/-! ## End -/

namespace Options

variable (o : Options) (s : Schema)

theorem entity?_annotate (C : String) :
    (o.annotate s).entity? C = (s.entity? C).map fun e =>
      { e with fields := e.fields.map (o.annotateField (s.main?.map (·.name) == some e.name)) } := by
  simp [annotate, Schema.entity?, List.find?_map]

/-- The final cost leaves a field used and loaded as it was. -/
theorem marks_annotateField (isMain : Bool) (f : Field) :
    (o.annotateField isMain f).used = f.used ∧ (o.annotateField isMain f).loaded = f.loaded := by
  unfold annotateField
  split <;> exact ⟨rfl, rfl⟩

end Options

theorem grows_annotate (o : Options) (b : BuildState) :
    Grows (fun _ => []) (fun _ => []) b { b with schema := o.annotate b.schema } where
  entities := by simp [Options.annotate]
  classes := rfl
  grows := by
    intro C e c he hc
    refine ⟨_, c, (o.entity?_annotate b.schema C).trans (by rw [he]; rfl), hc, .of_perm ?_ ?_ rfl rfl⟩
    · refine .of_eq ?_
      simp only [Entity.cores, List.map_map]
      exact List.map_congr_left fun f _ => core_annotateField o _ f
    · exact .refl _
  created := by simp
  createdBlocks := by simp

namespace Build

/-- A whole build lays out what it creates, gives the final costs, and compiles. -/
theorem gives_complete {o : Options} {rules : List Rule} {b b' : BuildState} {u : Unit} :
    (complete o rules).Gives b u b' ↔
      ∃ b₁, (layOut o rules).Gives b () b₁ ∧ b' = { b₁ with schema := o.annotate b₁.schema } ∧
        b'.schema.compile = .ok () := by
  simp only [complete, gives_bind, gives_modify, gives_get, gives_lift]
  constructor
  · rintro ⟨_, b₁, hlay, _, _, rfl, _, _, ⟨rfl, rfl⟩, hcompile, rfl⟩
    exact ⟨b₁, hlay, rfl, hcompile⟩
  · rintro ⟨b₁, hlay, rfl, hcompile⟩
    exact ⟨(), b₁, hlay, (), _, rfl, _, _, ⟨rfl, rfl⟩, hcompile, rfl⟩

end Build

theorem eq_ok_of_isOk {ε : Type} {x : Except ε Unit} (h : x.isOk = true) : x = .ok () := by
  cases x with
  | ok u => rfl
  | error e => cases h

theorem run_eq_of_isOk {σ ε : Type} {x : Except ε Unit × σ} (h : x.1.isOk = true) :
    x = (.ok (), x.2) :=
  Prod.ext (eq_ok_of_isOk h) rfl

section Build

variable {catalogue : Catalogue} {o : Options} {schema : Schema} {space : Space}
variable {rules : List Rule} {interrupt : Interrupt} {b : BuildState}

open BuildState

/-- A build that succeeds lays out what it creates in a copy of the schema. -/
theorem runBuild_eq_ok (h : runBuild catalogue o schema space rules interrupt = (.ok (), b)) :
    ∃ b₁, (Build.layOut o rules).Gives (start catalogue o schema space interrupt) () b₁ ∧
      b = { b₁ with schema := o.annotate b₁.schema } ∧ b.schema.compile = .ok () :=
  Build.gives_complete.mp h

/-- A build that succeeds only adds. -/
theorem runBuild_grows (h : runBuild catalogue o schema space rules interrupt = (.ok (), b)) :
    ∃ added blocks, Grows added blocks (start catalogue o schema space interrupt) b := by
  obtain ⟨b₁, hlay, rfl, -⟩ := runBuild_eq_ok h
  obtain ⟨added, blocks, hg⟩ := Build.grew_layOut o rules hlay
  exact ⟨_, _, hg.trans (grows_annotate o b₁)⟩

/-- Every class goes from its record on with additions. -/
theorem Grows.class_of_start {added : String → List Addition} {blocks : String → List Block}
    (h : Grows added blocks (start catalogue o schema space interrupt) b) {C : String} {e : Entity}
    (he : schema.entity? C = some e) :
    ∃ e' c', b.schema.entity? C = some e' ∧ b.registry.class? C = some c' ∧
      ClassGrows (added C) (blocks C) e (ClassRecord.collect catalogue schema e) e' c' :=
  h.grows C e _ he (by rw [class?_start, he]; rfl)

end Build

/-! ## What was added -/

namespace Entity

/-- The fields of an entity under names that another does not carry. -/
def fieldsBeyond (e' e : Entity) : List Field := e'.fields.filter fun f => f.name ∉ e.names

theorem mem_fieldsBeyond {e e' : Entity} {f : Field} :
    f ∈ e'.fieldsBeyond e ↔ f ∈ e'.fields ∧ f.name ∉ e.names := by
  simp [fieldsBeyond]

end Entity

namespace ClassGrows

variable {added : List Addition} {blocks : List Block} {e e' : Entity} {c c' : ClassRecord}

theorem filter_cores (h : ClassGrows added blocks e c e' c') (p : String → Bool) :
    ((e'.fields.filter (p ·.name)).map Field.core).Perm
      (e.cores.filter (p ·.name) ++ (added.map (·.field)).filter (p ·.name)) := by
  have hmap : (e'.fields.filter (p ·.name)).map Field.core = e'.cores.filter (p ·.name) := by
    rw [Entity.cores, List.filter_map]
    rfl
  rw [hmap, ← List.filter_append]
  exact h.cores.filter _

/-- The added fields are those under new names. -/
theorem fieldsBeyond_perm (h : ClassGrows added blocks e c e' c') :
    ((e'.fieldsBeyond e).map Field.core).Perm (added.map (·.field)) := by
  have hold : e.cores.filter (fun f => decide (f.name ∉ e.names)) = [] := by
    refine List.filter_eq_nil_iff.mpr fun f hf h => ?_
    exact of_decide_eq_true h (Entity.name_mem_of_mem_cores hf)
  have hnew : (added.map (·.field)).filter (fun f => decide (f.name ∉ e.names)) =
      added.map (·.field) := by
    refine List.filter_eq_self.mpr fun f hf => ?_
    obtain ⟨a, ha, rfl⟩ := List.mem_map.mp hf
    simpa using h.fresh a ha
  have := h.filter_cores fun n => decide (n ∉ e.names)
  rwa [hold, hnew, List.nil_append] at this

/-- All other fields are those of before, up to marks. -/
theorem fields_kept (h : ClassGrows added blocks e c e' c') :
    ((e'.fields.filter fun f => f.name ∈ e.names).map Field.core).Perm e.cores := by
  have hold : e.cores.filter (fun f => decide (f.name ∈ e.names)) = e.cores := by
    exact List.filter_eq_self.mpr fun f hf => decide_eq_true (Entity.name_mem_of_mem_cores hf)
  have hnew : (added.map (·.field)).filter (fun f => decide (f.name ∈ e.names)) = [] := by
    refine List.filter_eq_nil_iff.mpr fun f hf => ?_
    obtain ⟨a, ha, rfl⟩ := List.mem_map.mp hf
    simpa using h.fresh a ha
  have := h.filter_cores fun n => decide (n ∈ e.names)
  rwa [hold, hnew, List.append_nil] at this

/-- An added derived field has a formula that the record did not know and now does. -/
theorem of_mem_fieldsBeyond (h : ClassGrows added blocks e c e' c') {f : Field} {φ : Formula}
    (hf : f ∈ e'.fieldsBeyond e) (hφ : f.formula = some φ) :
    c.field? φ = none ∧ c'.field? φ = some f.name ∧ (⟨f.core, (φ, none)⟩ : Addition) ∈ added := by
  have hmem := h.fieldsBeyond_perm.mem_iff.mp (List.mem_map_of_mem (f := Field.core) hf)
  obtain ⟨⟨g, ψ, key⟩, ha, hg⟩ := List.mem_map.mp hmem
  obtain rfl : g = f.core := hg
  have hindexed := h.indexed _ ha
  cases key with
  | none =>
    obtain rfl : φ = ψ := Option.some.inj (hφ.symm.trans hindexed.1)
    exact ⟨h.keys_new _ ha, h.lookup_added ha, ha⟩
  | some k =>
    have hnone : f.formula = none := hindexed.1
    rw [hφ] at hnone
    cases hnone

/-- A formula the record did not know and now does is that of an added field. -/
theorem exists_fieldsBeyond (h : ClassGrows added blocks e c e' c') {φ : Formula} {n : String}
    (hnone : c.field? φ = none) (hn : c'.field? φ = some n) :
    ∃ f ∈ e'.fieldsBeyond e, f.name = n ∧ f.formula = some φ := by
  rcases h.lookup_eq_some hn with hold | ⟨a, ha, hkey, rfl⟩
  · rw [ClassRecord.field?, hold] at hnone
    cases hnone
  · obtain ⟨f, hf, hcore⟩ :=
      List.mem_map.mp (h.fieldsBeyond_perm.mem_iff.mpr (List.mem_map_of_mem (f := (·.field)) ha))
    have hindexed := h.indexed a ha
    rw [Addition.WellIndexed, hkey] at hindexed
    refine ⟨f, hf, ?_, ?_⟩
    · rw [← hcore, Field.core_name]
    · rw [← Field.core_formula, hcore]
      exact hindexed.1

/-- Added fields that are all derived have different formulas. -/
theorem formulas_nodup (h : ClassGrows added blocks e c e' c')
    (hderived : ∀ a ∈ added, ∃ φ, a.key = (φ, none)) :
    ((e'.fieldsBeyond e).map (·.formula)).Nodup := by
  have hformulas : ((e'.fieldsBeyond e).map (·.formula)).Perm (added.map (·.field.formula)) := by
    simpa [Function.comp_def] using h.fieldsBeyond_perm.map (·.formula)
  refine hformulas.nodup_iff.mpr (List.Nodup.map_on ?_ (List.Nodup.of_map _ h.keys_nodup))
  intro a ha a' ha' heq
  obtain ⟨φ, hkey⟩ := hderived a ha
  obtain ⟨φ', hkey'⟩ := hderived a' ha'
  have hindexed := h.indexed a ha
  have hindexed' := h.indexed a' ha'
  rw [Addition.WellIndexed, hkey] at hindexed
  rw [Addition.WellIndexed, hkey'] at hindexed'
  rw [hindexed.1, hindexed'.1] at heq
  refine List.inj_on_of_nodup_map h.keys_nodup ha ha' ?_
  rw [hkey, hkey', Option.some.inj heq]

/-- What the record of a class of the input knows in the end is the formula of a field of the
class. -/
theorem field_of_known {catalogue : Catalogue} {schema : Schema}
    (h : ClassGrows added blocks e (ClassRecord.collect catalogue schema e) e' c') {φ : Formula}
    {n : String} (hn : c'.field? φ = some n) : ∃ f ∈ e'.fields, f.name = n ∧ f.formula = some φ := by
  cases hold : (ClassRecord.collect catalogue schema e).field? φ with
  | none =>
    obtain ⟨f, hf, hname, hφ⟩ := h.exists_fieldsBeyond hold hn
    exact ⟨f, (Entity.mem_fieldsBeyond.mp hf).1, hname, hφ⟩
  | some m =>
    obtain rfl : m = n := Option.some.inj ((h.lookup_mono hold).symm.trans hn)
    rw [ClassRecord.field?_collect] at hold
    split at hold
    · obtain ⟨g, hg, rfl⟩ := Option.map_eq_some_iff.mp hold
      have hφ : g.formula = some φ := by simpa using List.find?_some hg
      have hmem := Entity.core_mem_cores (List.mem_of_find?_eq_some hg)
      obtain ⟨f, hf, hcore⟩ :=
        Entity.mem_cores.mp (h.cores.mem_iff.mpr (List.mem_append_left _ hmem))
      refine ⟨f, hf, ?_, ?_⟩
      · rw [← Field.core_name, hcore, Field.core_name]
      · rw [← Field.core_formula, hcore, Field.core_formula, hφ]
    · cases hold

end ClassGrows

/-! ## What a class knows -/

namespace BuildState

/-- The record of a class knows a formula by a field. -/
def Knows (b : BuildState) (C : String) (φ : Formula) (n : String) : Prop :=
  ∃ e c, b.schema.entity? C = some e ∧ b.registry.class? C = some c ∧ c.field? φ = some n

/-- A state no step has changed: every record knows fields of its entity, and nothing is created. -/
structure Untouched (b : BuildState) : Prop where
  entity_of_class : ∀ C c, b.registry.class? C = some c → ∃ e, b.schema.entity? C = some e
  known_names : ∀ C e c key n, b.schema.entity? C = some e → b.registry.class? C = some c →
    c.fields.lookup key = some n → n ∈ e.names
  no_created : b.createdFields = []

theorem untouched_start (catalogue : Catalogue) (o : Options) (schema : Schema) (space : Space)
    (interrupt : Interrupt) : (start catalogue o schema space interrupt).Untouched where
  entity_of_class := by
    intro C c hc
    rw [class?_start] at hc
    obtain ⟨e, he, -⟩ := Option.map_eq_some_iff.mp hc
    exact ⟨e, he⟩
  known_names := by
    intro C e c key n he hc hn
    rw [class?_start, show schema.entity? C = some e from he] at hc
    cases hc
    exact ClassRecord.name_mem_of_lookup_collect hn
  no_created := rfl

end BuildState

namespace Grows

open BuildState

variable {added : String → List Addition} {blocks : String → List Block} {b b' : BuildState}

theorem knows (h : Grows added blocks b b') {C : String} {φ : Formula} {n : String}
    (hk : b.Knows C φ n) : b'.Knows C φ n := by
  obtain ⟨e, c, he, hc, hn⟩ := hk
  obtain ⟨e', c', he', hc', hg⟩ := h.grows C e c he hc
  exact ⟨e', c', he', hc', hg.lookup_mono hn⟩

theorem class_before (h : Grows added blocks b b') {C : String} {c' : ClassRecord}
    (hc' : b'.registry.class? C = some c') : ∃ c, b.registry.class? C = some c := by
  have hmem : C ∈ b.registry.classes.map (·.className) := by
    rw [← h.classes, ← Registry.className_of_class? hc']
    exact List.mem_map_of_mem (List.mem_of_find?_eq_some hc')
  obtain ⟨c, hc, rfl⟩ := List.mem_map.mp hmem
  exact Option.isSome_iff_exists.mp (List.find?_isSome.mpr ⟨c, hc, beq_self_eq_true _⟩)

/-- The class of a record, before and after additions to an untouched state. -/
theorem class_of_untouched (h : Grows added blocks b b') (hb : b.Untouched) {C : String}
    {c' : ClassRecord} (hc' : b'.registry.class? C = some c') :
    ∃ e c e', b.schema.entity? C = some e ∧ b.registry.class? C = some c ∧
      b'.schema.entity? C = some e' ∧ ClassGrows (added C) (blocks C) e c e' c' := by
  obtain ⟨c, hc⟩ := h.class_before hc'
  obtain ⟨e, he⟩ := hb.entity_of_class C c hc
  obtain ⟨e', c'', he', hc'', hg⟩ := h.grows C e c he hc
  obtain rfl : c' = c'' := Option.some.inj (hc'.symm.trans hc'')
  exact ⟨e, c, e', he, hc, he', hg⟩

theorem isCreated_iff (h : Grows added blocks b b') (hb : b.Untouched) {C n : String} :
    b'.isCreated C n = true ↔ ∃ a ∈ added C, a.field.name = n := by
  rw [isCreated, List.contains_iff_mem, h.created, hb.no_created]
  simp

end Grows

end FeatureSynth
