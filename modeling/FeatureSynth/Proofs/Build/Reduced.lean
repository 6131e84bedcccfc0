/-
# What is lost by reduction

A reduced schema keeps what its used fields need.  The names needed are followed through
every class: from a field to the names in its formula, from a block to those in its own,
from a member to its block.  This goes on in rounds, and the rounds suffice: each but the
last meets a field or a block not met before.  So the names found are exactly those that
a chain of references leads to from a used field.

A field with a needed name stays.  A block stays for the sake of its members only, and
that is one rule too few.  Where a formula that is kept refers to a block, the block is
needed, but none of its members need be; then they go, and the block goes with them.
References to such blocks are lost by reduction, and no others.
-/
import Mathlib.Data.Finset.Card
import Mathlib.Logic.Relation
import FeatureSynth.Proofs.Build.NamesDiffer
import FeatureSynth.Proofs.Schema.Later

namespace FeatureSynth

open Relation (ReflTransGen)

/-! ## Saturation -/

/-- A step finds what single names lead to. -/
def StepsAlong (leads : String → String → Prop) (step : List String → List String) : Prop :=
  ∀ known y, y ∈ step known ↔ ∃ x ∈ known, leads x y

section Saturation

variable {leads : String → String → Prop} {step : List String → List String}
variable {known : List String} {x y : String}

theorem mem_news : x ∈ news step known ↔ x ∈ step known ∧ x ∉ known := by
  simp [news]

theorem saturate_of_news (h : news step known = []) : ∀ rounds, saturate step rounds known = known
  | 0 => rfl
  | rounds + 1 => by rw [saturate, h]

theorem mem_saturate_of_mem : ∀ {rounds : Nat} {known : List String}, x ∈ known →
    x ∈ saturate step rounds known
  | 0, _, h => h
  | rounds + 1, known, h => by
      unfold saturate
      split
      · exact h
      · exact mem_saturate_of_mem (List.mem_append_left _ h)

/-- What is found is led to. -/
theorem exists_of_mem_saturate (hstep : StepsAlong leads step) :
    ∀ {rounds : Nat} {known : List String},
      x ∈ saturate step rounds known → ∃ s ∈ known, ReflTransGen leads s x
  | 0, _, h => ⟨x, h, .refl⟩
  | rounds + 1, known, h => by
      unfold saturate at h
      split at h
      · exact ⟨x, h, .refl⟩
      · obtain ⟨s, hs, hchain⟩ := exists_of_mem_saturate hstep h
        rcases List.mem_append.mp hs with hs | hs
        · exact ⟨s, hs, hchain⟩
        · obtain ⟨r, hr, hrs⟩ := (hstep known s).mp (mem_news.mp hs).1
          exact ⟨r, hr, .head hrs hchain⟩

theorem mem_of_news (hstep : StepsAlong leads step) (h : news step known = []) (hx : x ∈ known)
    (hxy : leads x y) : y ∈ known := by
  by_contra hy
  exact List.eq_nil_iff_forall_not_mem.mp h y (mem_news.mpr ⟨(hstep _ _).mpr ⟨x, hx, hxy⟩, hy⟩)

/-- What is found in a second round is found from a name met in the first. -/
theorem exists_source_of_news (hstep : StepsAlong leads step)
    (h : news step (known ++ news step known) ≠ []) : ∃ w ∈ news step known, ∃ z, leads w z := by
  obtain ⟨z, hz⟩ := List.exists_mem_of_ne_nil _ h
  obtain ⟨hfound, hunknown⟩ := mem_news.mp hz
  obtain ⟨w, hw, hwz⟩ := (hstep _ _).mp hfound
  refine ⟨w, (List.mem_append.mp hw).resolve_left fun hknown => hunknown ?_, z, hwz⟩
  rw [List.mem_append, mem_news, hstep]
  by_cases hmem : z ∈ known
  · exact .inl hmem
  · exact .inr ⟨⟨w, hknown, hwz⟩, hmem⟩

/-- Nothing is left to find if there are more rounds than names yet to meet that lead anywhere. -/
theorem mem_saturate_of_leads (hstep : StepsAlong leads step) {sources : List String}
    (hsources : ∀ x y, leads x y → x ∈ sources) : ∀ {rounds : Nat} {known : List String},
      (sources.toFinset \ known.toFinset).card < rounds → x ∈ saturate step rounds known →
        leads x y → y ∈ saturate step rounds known
  | rounds + 1, known, hrounds, hx, hxy => by
      unfold saturate at hx ⊢
      split at hx
      · rename_i hnews
        exact mem_of_news hstep hnews hx hxy
      · by_cases hnext : news step (known ++ news step known) = []
        · rw [saturate_of_news hnext] at hx ⊢
          exact mem_of_news hstep hnext hx hxy
        · obtain ⟨w, hw, z, hwz⟩ := exists_source_of_news hstep hnext
          refine mem_saturate_of_leads hstep hsources
            (Nat.lt_of_lt_of_le (Finset.card_lt_card ?_) (Nat.le_of_lt_succ hrounds)) hx hxy
          refine (Finset.ssubset_iff_of_subset ?_).mpr ⟨w, ?_, ?_⟩
          · exact Finset.sdiff_subset_sdiff subset_rfl (by simp)
          · simp [hsources w z hwz, (mem_news.mp hw).2]
          · simp [hw]

/-- With enough rounds what is found is exactly what is led to. -/
theorem mem_saturate_iff (hstep : StepsAlong leads step) {sources : List String}
    (hsources : ∀ x y, leads x y → x ∈ sources) {rounds : Nat} (hrounds : sources.length < rounds) :
    x ∈ saturate step rounds known ↔ ∃ s ∈ known, ReflTransGen leads s x := by
  refine ⟨exists_of_mem_saturate hstep, ?_⟩
  rintro ⟨s, hs, hchain⟩
  have hcard : (sources.toFinset \ known.toFinset).card < rounds :=
    (Finset.card_le_card Finset.sdiff_subset).trans_lt
      ((List.toFinset_card_le sources).trans_lt hrounds)
  induction hchain with
  | refl => exact mem_saturate_of_mem hs
  | tail _ hlast ih => exact mem_saturate_of_leads hstep hsources hcard ih hlast

end Saturation

/-! ## Needed names -/

namespace Entity

/-- The formulas of the fields and blocks. -/
def formulas (e : Entity) : List Formula := e.fields.filterMap (·.formula) ++ e.blocks.map (·.formula)

theorem mem_formulas {e : Entity} {φ : Formula} : φ ∈ e.formulas ↔
    (∃ f ∈ e.fields, f.formula = some φ) ∨ ∃ b ∈ e.blocks, b.formula = φ := by
  simp [formulas]

end Entity

namespace Schema

/-- A field or block of a name refers to another one in some class, by its formula or as a
member of a block. -/
def Refers (s : Schema) (n x : String) : Prop := ∃ e ∈ s.entities, x ∈ references e n

/-- A chain of references of a schema leads to a name from a field that a reduced schema uses. -/
def Needs (s reduced : Schema) (x : String) : Prop :=
  ∃ e ∈ reduced.entities, ∃ f ∈ e.fields, f.used = true ∧ ReflTransGen s.Refers f.name x

variable {s : Schema} {e : Entity} {n x : String}

theorem stepsAlong_allReferences (s : Schema) : StepsAlong s.Refers s.allReferences := by
  intro known y
  simp [allReferences, Refers]

theorem mem_names_of_references (h : x ∈ references e n) : n ∈ e.names := by
  by_contra hn
  rw [← Entity.hasName_iff, Entity.hasName, Bool.or_eq_true, not_or, Option.not_isSome_iff_eq_none,
    Option.not_isSome_iff_eq_none] at hn
  simp [references, hn.1, hn.2] at h

/-- The rounds suffice for the names of all classes. -/
theorem mem_neededNames : x ∈ s.neededNames ↔
    ∃ e ∈ s.entities, ∃ f ∈ e.fields, f.used = true ∧ ReflTransGen s.Refers f.name x := by
  have hsources : ∀ x y, s.Refers x y → x ∈ s.entities.flatMap Entity.names := by
    rintro x y ⟨e, he, hy⟩
    exact List.mem_flatMap.mpr ⟨e, he, mem_names_of_references hy⟩
  have hrounds : ∀ es : List Entity, (es.flatMap Entity.names).length <
      (es.map fun e => e.fields.length + e.blocks.length).foldr (· + ·) 1 := by
    intro es
    induction es with
    | nil => simp
    | cons e es ih =>
      simp only [List.flatMap_cons, List.length_append, List.map_cons, List.foldr_cons]
      have hnames : e.names.length = e.fields.length + e.blocks.length := by simp [Entity.names]
      omega
  rw [neededNames, mem_saturate_iff (stepsAlong_allReferences s) hsources (hrounds s.entities)]
  simp only [List.mem_eraseDups, usedNames, List.mem_flatMap, List.mem_map, List.mem_filter]
  constructor
  · rintro ⟨_, ⟨e, he, f, ⟨hf, hused⟩, rfl⟩, hchain⟩
    exact ⟨e, he, f, hf, hused, hchain⟩
  · rintro ⟨e, he, f, hf, hused, hchain⟩
    exact ⟨_, ⟨e, he, f, ⟨hf, hused⟩, rfl⟩, hchain⟩

section References

variable {f : Field} {B : Block} {φ : Formula} {block : String}

theorem mem_references_formula (h : e.names.Nodup) (hf : f ∈ e.fields)
    (hformula : f.formula = some φ) (hx : x ∈ φ.refs) : x ∈ references e f.name := by
  simp [references, Entity.field?_of_mem h hf, hformula, hx]

theorem mem_references_member (h : e.names.Nodup) (hf : f ∈ e.fields) (hin : f.isIn block = true) :
    block ∈ references e f.name := by
  have hblock : f.block = some block := by simpa [Field.isIn] using hin
  simp [references, Entity.field?_of_mem h hf, hblock]

theorem mem_references_block (h : e.names.Nodup) (hB : B ∈ e.blocks) (hx : x ∈ B.formula.refs) :
    x ∈ references e B.name := by
  have hfound : e.block? B.name = some B :=
    find?_of_nodup Block.name (List.nodup_append.mp h).2.1 hB
  simp [references, hfound, hx]

end References

/-! ## What stays -/

/-- An entity with the given fields used and no others. -/
def useOnlyIn (kept : List FieldPath) (e : Entity) : Entity :=
  { e with
    fields := e.fields.map fun f =>
      if kept.contains ⟨e.name, f.name⟩ then { f with used := true, loaded := true }
      else { f with used := false } }

variable {kept : List FieldPath} {needed : List String} {φ : Formula} {f : Field}

theorem mem_entities_useOnly : e ∈ (s.useOnly kept).entities ↔
    ∃ d ∈ s.entities, useOnlyIn kept d = e :=
  List.mem_map

theorem map_useOnlyIn {α : Type} {g : Field → α}
    (hg : ∀ (f : Field) (used loaded : Bool), g { f with used, loaded } = g f) (e : Entity) :
    (useOnlyIn kept e).fields.map g = e.fields.map g := by
  rw [useOnlyIn, List.map_map]
  refine List.map_congr_left fun f _ => ?_
  rw [Function.comp_apply]
  split
  · exact hg f true true
  · exact hg f false f.loaded

theorem mem_fields_keepNeeded : f ∈ (keepNeeded needed e).fields ↔
    f ∈ e.fields ∧ (f.used = true ∨ f.isStored = true ∨ f.name ∈ needed) := by
  simp [keepNeeded, Field.isStored, Field.isDerived, or_assoc]

/-- Every formula that stays is that of a needed name, so it refers to needed names only. -/
theorem mem_neededNames_of_formula (hnames : ∀ e ∈ s.entities, e.names.Nodup) (he : e ∈ s.entities)
    (hφ : φ ∈ (keepNeeded s.neededNames e).formulas) (hx : x ∈ φ.refs) : x ∈ s.neededNames := by
  have hnodup := hnames e he
  have hstays : ∀ f ∈ (keepNeeded s.neededNames e).fields, f.isStored = false →
      f.name ∈ s.neededNames := by
    intro f hf hstored
    obtain ⟨hf, hused | hstored' | hneeded⟩ := mem_fields_keepNeeded.mp hf
    · exact mem_neededNames.mpr ⟨e, he, f, hf, hused, .refl⟩
    · cases hstored.symm.trans hstored'
    · exact hneeded
  have hnext : ∀ n y, n ∈ s.neededNames → y ∈ references e n → y ∈ s.neededNames := by
    intro n y hn hy
    obtain ⟨d, hd, f, hf, hused, hchain⟩ := mem_neededNames.mp hn
    exact mem_neededNames.mpr ⟨d, hd, f, hf, hused, hchain.tail ⟨e, he, hy⟩⟩
  rcases Entity.mem_formulas.mp hφ with ⟨f, hf, hformula⟩ | ⟨B, hB, rfl⟩
  · have hneeded := hstays f hf (Field.not_isStored_of_formula hformula)
    exact hnext f.name x hneeded
      (mem_references_formula hnodup (mem_fields_keepNeeded.mp hf).1 hformula hx)
  · obtain ⟨hB, hany⟩ := List.mem_filter.mp hB
    obtain ⟨m, hm, hin⟩ := List.any_eq_true.mp hany
    have hmember := hstays m hm (Field.not_isStored_of_block hin)
    have hblock := hnext m.name B.name hmember
      (mem_references_member hnodup (mem_fields_keepNeeded.mp hm).1 hin)
    exact hnext B.name x hblock (mem_references_block hnodup hB hx)

/-- A block stays for the sake of its needed members. -/
theorem mem_blocks_keepNeeded {B : Block}
    (hused : ∀ f ∈ e.fields, f.used = true → f.name ∈ needed) :
    B ∈ (keepNeeded needed e).blocks ↔ B ∈ e.blocks ∧ ∃ f ∈ e.members B.name, f.name ∈ needed := by
  have hany : (keepNeeded needed e).fields.any (·.isIn B.name) = true ↔
      ∃ f ∈ e.members B.name, f.name ∈ needed := by
    rw [List.any_eq_true]
    constructor
    · rintro ⟨f, hf, hin⟩
      obtain ⟨hf, hstays⟩ := mem_fields_keepNeeded.mp hf
      refine ⟨f, List.mem_filter.mpr ⟨hf, hin⟩, ?_⟩
      rcases hstays with hf' | hstored | hneeded
      · exact hused f hf hf'
      · cases (Field.not_isStored_of_block hin).symm.trans hstored
      · exact hneeded
    · rintro ⟨f, hf, hneeded⟩
      obtain ⟨hf, hin⟩ := List.mem_filter.mp hf
      exact ⟨f, mem_fields_keepNeeded.mpr ⟨hf, .inr (.inr hneeded)⟩, hin⟩
  rw [← hany]
  exact List.mem_filter

/-- A needed name goes only with a block none of whose members is needed. -/
theorem hasName_keepNeeded (hnodup : e.names.Nodup)
    (hused : ∀ f ∈ e.fields, f.used = true → f.name ∈ needed) (hx : x ∈ needed)
    (hbefore : e.hasName x = true) : (keepNeeded needed e).hasName x = false ↔
      (e.block? x).isSome = true ∧ ∀ f ∈ e.members x, f.name ∉ needed := by
  rw [← Bool.not_eq_true, Entity.hasName_iff, Entity.block?_isSome]
  rcases List.mem_append.mp (Entity.hasName_iff.mp hbefore) with hfield | hblock
  · obtain ⟨f, hf, rfl⟩ := List.mem_map.mp hfield
    have hstays : f ∈ (keepNeeded needed e).fields :=
      mem_fields_keepNeeded.mpr ⟨hf, .inr (.inr hx)⟩
    refine iff_of_false (fun hgone => hgone (Entity.name_mem_names hstays)) ?_
    rintro ⟨hblock, -⟩
    exact (List.nodup_append.mp hnodup).2.2 _ hfield _ hblock rfl
  · obtain ⟨B, hB, rfl⟩ := List.mem_map.mp hblock
    have hstays : B.name ∈ (keepNeeded needed e).names ↔ B ∈ (keepNeeded needed e).blocks := by
      refine ⟨fun hmem => ?_, fun hmem => List.mem_append_right _ (List.mem_map_of_mem hmem)⟩
      rcases List.mem_append.mp hmem with hfield | hmem
      · obtain ⟨f, hf, hname⟩ := List.mem_map.mp hfield
        exact absurd hname ((List.nodup_append.mp hnodup).2.2 _
          (List.mem_map_of_mem (mem_fields_keepNeeded.mp hf).1) _ hblock)
      · obtain ⟨B', hB', hname⟩ := List.mem_map.mp hmem
        have hfirst := find?_of_nodup Block.name (List.nodup_append.mp hnodup).2.1 hB
        have hfirst' := find?_of_nodup Block.name (List.nodup_append.mp hnodup).2.1
          (List.mem_filter.mp hB').1
        rw [hname] at hfirst'
        exact Option.some.inj (hfirst'.symm.trans hfirst) ▸ hB'
    rw [hstays, mem_blocks_keepNeeded hused]
    simp [hB, hblock]

/-! ## Reduction -/

theorem names_useOnlyIn (kept : List FieldPath) (e : Entity) : (useOnlyIn kept e).names = e.names :=
  congrArg (· ++ e.blocks.map (·.name)) (map_useOnlyIn (fun _ _ _ => rfl) e)

/-- What is referred to does not depend on the marks of fields. -/
theorem references_useOnlyIn (kept : List FieldPath) (e : Entity) (n : String) :
    references (useOnlyIn kept e) n = references e n := by
  have hfield : ∀ {α : Type} (g : Field → Option α),
      (∀ (f : Field) (used loaded : Bool), g { f with used, loaded } = g f) →
        ((useOnlyIn kept e).field? n).bind g = (e.field? n).bind g := by
    intro α g hg
    have hfound : ((useOnlyIn kept e).fields.map fun f => (f.name, g f)).find? (·.1 == n) =
        (e.fields.map fun f => (f.name, g f)).find? (·.1 == n) :=
      congrArg (List.find? _) (map_useOnlyIn (fun f used loaded => by rw [hg f used loaded]) e)
    rw [List.find?_map, List.find?_map] at hfound
    have hsecond := congrArg (·.bind Prod.snd) hfound
    simpa [Entity.field?, Option.bind_map, Function.comp_def] using hsecond
  simp only [references]
  rw [hfield (·.formula) fun _ _ _ => rfl, hfield (·.block) fun _ _ _ => rfl]
  rfl

/-- The members of a block under their names. -/
theorem names_members_useOnlyIn (kept : List FieldPath) (e : Entity) (block : String) :
    ((useOnlyIn kept e).members block).map (·.name) = (e.members block).map (·.name) := by
  have hpairs : (useOnlyIn kept e).fields.map (fun f => (f.isIn block, f.name)) =
      e.fields.map fun f => (f.isIn block, f.name) := map_useOnlyIn (fun _ _ _ => rfl) e
  have hkept := congrArg (fun l => (l.filter (·.1)).map Prod.snd) hpairs
  simpa [Entity.members, List.filter_map, Function.comp_def] using hkept

theorem refers_useOnly (kept : List FieldPath) (s : Schema) : (s.useOnly kept).Refers = s.Refers := by
  funext n x
  simp only [Refers, mem_entities_useOnly, exists_exists_and_eq_and, references_useOnlyIn]

/-- The needed names are those that references lead to from the used fields that stay. -/
theorem needs_dropUnneeded : s.Needs s.dropUnneeded x ↔ x ∈ s.neededNames := by
  rw [mem_neededNames, Needs]
  constructor
  · rintro ⟨_, he', f, hf, hused, hchain⟩
    obtain ⟨e, he, rfl⟩ := List.mem_map.mp he'
    exact ⟨e, he, f, (mem_fields_keepNeeded.mp hf).1, hused, hchain⟩
  · rintro ⟨e, he, f, hf, hused, hchain⟩
    exact ⟨_, List.mem_map_of_mem he, f, mem_fields_keepNeeded.mpr ⟨hf, .inl hused⟩, hused, hchain⟩

/-- A reference of a formula that stays is lost if it is to a block without needed members, and in
no other case. -/
theorem reduceTo_loses_iff (hnames : ∀ e ∈ s.entities, e.names.Nodup) (sampled : List FieldPath)
    {e' : Entity} (he' : e' ∈ (s.reduceTo sampled).entities) :
    ∃ e ∈ s.entities, e.name = e'.name ∧ ∀ φ ∈ e'.formulas, ∀ x ∈ φ.refs, e.hasName x = true →
      (e'.hasName x = false ↔ (e.block? x).isSome = true ∧
        ∀ f ∈ e.members x, ¬ s.Needs (s.reduceTo sampled) f.name) := by
  obtain ⟨kept, hkept⟩ : ∃ kept, s.reduceTo sampled = (s.useOnly kept).dropUnneeded := ⟨_, rfl⟩
  rw [hkept] at he' ⊢
  obtain ⟨_, he₁, rfl⟩ := List.mem_map.mp he'
  obtain ⟨e, he, rfl⟩ := mem_entities_useOnly.mp he₁
  have hnames₁ : ∀ d ∈ (s.useOnly kept).entities, d.names.Nodup := by
    intro _ hmarked
    obtain ⟨d, hd, rfl⟩ := mem_entities_useOnly.mp hmarked
    exact (names_useOnlyIn kept d).symm ▸ hnames d hd
  have hneeds : ∀ n, s.Needs (s.useOnly kept).dropUnneeded n ↔ n ∈ (s.useOnly kept).neededNames := by
    intro n
    rw [← needs_dropUnneeded, Needs, Needs, refers_useOnly]
  refine ⟨e, he, rfl, fun φ hφ x hx hbefore => ?_⟩
  have hneeded := mem_neededNames_of_formula hnames₁ he₁ hφ hx
  have hused : ∀ f ∈ (useOnlyIn kept e).fields, f.used = true →
      f.name ∈ (s.useOnly kept).neededNames := fun f hf hused =>
    mem_neededNames.mpr ⟨_, he₁, f, hf, hused, .refl⟩
  have hbefore₁ : (useOnlyIn kept e).hasName x = true := by
    rw [Entity.hasName_iff, names_useOnlyIn]
    exact Entity.hasName_iff.mp hbefore
  rw [hasName_keepNeeded (hnames₁ _ he₁) hused hneeded hbefore₁]
  refine and_congr_right fun _ => ?_
  simp only [hneeds]
  rw [← List.forall_mem_map (f := Field.name) (P := (· ∉ (s.useOnly kept).neededNames)),
    names_members_useOnlyIn, List.forall_mem_map]

end Schema

/-! ## The schema that is sampled -/

section Bound

open Build BuildState

variable {catalogue : Catalogue} {o : Options} {schema : Schema} {space : Space}
variable {interrupt : Interrupt} {b : BuildState}

/-- Binding dimensions keeps the classes, and names go on to differ in each. -/
theorem bindSchema_names (hschema : schema.compile = .ok ())
    (hbind : bindSchema catalogue o schema space interrupt = (.ok (), b)) :
    (b.schema.entities.map (·.name)).Nodup ∧ b.NamesDiffer := by
  obtain ⟨hclasses, hdiffer⟩ := Schema.nodup_of_compile hschema
  have hrun : (bindDimensions o).Gives (start catalogue o schema space interrupt) () b := hbind
  obtain ⟨added, blocks, hg⟩ := closed_bindDimensions firstParts_grew.toReadyParts o hrun
  refine ⟨hg.entities ▸ hclasses, ?_⟩
  have hparts : FirstParts (fun m => Always (KeepsDistinct o.readableNames) m) := firstParts_distinct
  have hdistinct := (closed_bindDimensions hparts.toReadyParts o).respects hrun
  exact (hdistinct ⟨rfl, hdiffer⟩).differ

/-- When the dimensions in use are bound, and the schema is reduced to their fields: a formula that
is kept loses a reference to a field or block of its class exactly if it is to a block none of
whose members is a used field or needed by one through a chain of references. -/
theorem bindSchema_reduced_loses_iff (hschema : schema.compile = .ok ())
    (hbind : bindSchema catalogue o schema space interrupt = (.ok (), b)) :
    ∀ e' ∈ b.reduced.entities, ∃ e, b.schema.entity? e'.name = some e ∧
      ∀ φ ∈ e'.formulas, ∀ x ∈ φ.refs, e.hasName x = true →
        (e'.hasName x = false ↔ (e.block? x).isSome = true ∧
          ∀ f ∈ e.members x, ¬ b.schema.Needs b.reduced f.name) := by
  intro e' he'
  obtain ⟨hclasses, hdiffer⟩ := bindSchema_names hschema hbind
  obtain ⟨e, he, hname, hloses⟩ := Schema.reduceTo_loses_iff hdiffer b.space.sampledFields he'
  exact ⟨e, hname ▸ find?_of_nodup Entity.name hclasses he, hloses⟩

end Bound

namespace SmallOrders

def customers : FieldType := .objectArray "Customer"

/-- Customers of shops, with their orders cut by amount in a block, and the parts counted in
another one. -/
def schema : Schema :=
  ⟨[ ⟨"Shop", [.native "Customers" customers], []⟩,
     ⟨"Customer",
       [.native "Orders" (.objectArray "Orders"),
         .derived "cut" (.structured "Partition")
           ⟨"Partition", [.ofFormula ⟨"IntervalBounds", [.continuous 10]⟩]⟩,
         .member "small orders" (.objectArray "Orders") "orders by amount" 1,
         .member "count of small" .continuous "counts by amount" 1],
       [⟨"orders by amount", ⟨"TablePartition", [.field "Orders", .field "cut", .field "amount"]⟩⟩,
         ⟨"counts by amount", ⟨"TablePartitionCount", [.field "orders by amount"]⟩⟩]⟩,
     ⟨"Orders", [.native "amount" .continuous], []⟩ ]⟩

/-- The customers cut by the count of their small orders. -/
def space : Space :=
  ⟨[⟨"Customer", .field "count of small" .continuous, 1, none, none⟩],
    [{ className := "Customer", parentClass := "Shop", table := "Customers", axes := [⟨0, 2⟩]
       parts := [([0], ⟨1, 0⟩)], uses := 1, descriptorField := none, tableBlock := none
       cells := [.none] }]⟩

def binding : Except BuildError Unit × BuildState :=
  bindSchema .default Options.default schema space .never

theorem compile_schema : schema.compile = .ok () := eq_ok_of_isOk (by decide +kernel)

theorem binding_eq : binding = (.ok (), binding.2) := run_eq_of_isOk (by decide +kernel)

end SmallOrders

open SmallOrders in
/-- The count of small orders is sampled, and reduction keeps all that it takes but the block of
the small orders themselves. -/
theorem smallOrders_reduced_loses :
    schema.compile = .ok () ∧ binding = (.ok (), binding.2) ∧ ∀ e' ∈ binding.2.reduced.entities,
      ∃ e, binding.2.schema.entity? e'.name = some e ∧
        ∀ φ ∈ e'.formulas, ∀ x ∈ φ.refs, e.hasName x = true →
          (e'.hasName x = false ↔ (e.block? x).isSome = true ∧
            ∀ f ∈ e.members x, ¬ binding.2.schema.Needs binding.2.reduced f.name) :=
  ⟨compile_schema, binding_eq, bindSchema_reduced_loses_iff compile_schema binding_eq⟩

open SmallOrders in
/-- The block of the counts is kept, and its formula refers to the block of the small orders, which
is there before reduction and is not after. -/
theorem smallOrders_reduced_not_closed :
    schema.compile = .ok () ∧ binding.1 = .ok () ∧
      ¬ ∀ e' ∈ binding.2.reduced.entities, ∀ e ∈ binding.2.schema.entities, e.name = e'.name →
        ∀ φ ∈ e'.formulas, ∀ x ∈ φ.refs, e.hasName x = true → e'.hasName x = true :=
  ⟨compile_schema, congrArg Prod.fst binding_eq, by decide +kernel⟩

end FeatureSynth
