/-
# A build loses nothing

A schema that a build returns is the schema it was given with the created fields and blocks
in addition, class by class.  The classes are in their order, and the stored fields of each
in theirs; of a field that was there only marks and costs are changed; and a created field
is used exactly if it is the field of a candidate that had its turn.

How much was added is known from growth, what was kept from a step at a time, and which
fields are used from the turns.  Here the three are put together.
-/
import FeatureSynth.Proofs.Build.Used

namespace FeatureSynth

/-! ## Extended schemas -/

/-- Names of the paths into a class. -/
def namesIn (C : String) (paths : List FieldPath) : List String :=
  (paths.filter (·.className == C)).map (·.name)

theorem mem_namesIn {C n : String} {paths : List FieldPath} :
    n ∈ namesIn C paths ↔ ⟨C, n⟩ ∈ paths := by
  constructor
  · intro h
    obtain ⟨⟨D, m⟩, hfilter, rfl⟩ := List.mem_map.mp h
    obtain ⟨hmem, hD⟩ := List.mem_filter.mp hfilter
    obtain rfl : D = C := by simpa using hD
    exact hmem
  · intro h
    exact List.mem_map.mpr ⟨⟨C, n⟩, List.mem_filter.mpr ⟨h, beq_self_eq_true C⟩, rfl⟩

theorem nodup_namesIn {C : String} {paths : List FieldPath} (h : paths.Nodup) :
    (namesIn C paths).Nodup := by
  refine List.Nodup.map_on ?_ (h.filter _)
  rintro ⟨D, n⟩ hn ⟨D', n'⟩ hn' hname
  have hD : D = C := by simpa using (List.mem_filter.mp hn).2
  have hD' : D' = C := by simpa using (List.mem_filter.mp hn').2
  rw [hD, hD', show n = n' from hname]

/-- A class with more fields and blocks, of new names, and all of its own kept. -/
structure Entity.ExtendedBy (e e' : Entity) (fields blocks : List String) : Prop where
  name_eq : e'.name = e.name
  fresh : ∀ n ∈ fields ++ blocks, n ∉ e.names
  fields_perm : (e'.fields.map (·.name)).Perm (e.fields.map (·.name) ++ fields)
  blocks_perm : ∃ more : List Block,
    e'.blocks.Perm (e.blocks ++ more) ∧ (more.map (·.name)).Perm blocks
  keeps : e.Keeps e'

/-- A schema with more fields and blocks in its classes, each listed once. -/
structure Schema.ExtendedBy (s s' : Schema) (fields blocks : List FieldPath) : Prop where
  classes : s'.entities.map (·.name) = s.entities.map (·.name)
  fields_nodup : fields.Nodup
  blocks_nodup : blocks.Nodup
  placed : ∀ p ∈ fields ++ blocks, p.className ∈ s.entities.map (·.name)
  extended : ∀ e ∈ s.entities, ∃ e' ∈ s'.entities,
    e.ExtendedBy e' (namesIn e.name fields) (namesIn e.name blocks)

/-- What grew and was kept is extended. -/
theorem ClassGrows.extendedBy {added : List Addition} {blocks : List Block} {e e' : Entity}
    {c c' : ClassRecord} (h : ClassGrows added blocks e c e' c') (hkeeps : e.Keeps e')
    (hname : e'.name = e.name) {fieldNames blockNames : List String}
    (hfields : (added.map (·.field.name)).Perm fieldNames)
    (hblocks : (blocks.map (·.name)).Perm blockNames) : e.ExtendedBy e' fieldNames blockNames where
  name_eq := hname
  fields_perm := by
    have hcores := h.cores.map Field.name
    rw [List.map_append, Entity.map_name_cores, Entity.map_name_cores, List.map_map] at hcores
    exact hcores.trans (hfields.append_left _)
  blocks_perm := ⟨blocks, h.blocks_perm, hblocks⟩
  fresh := by
    intro n hn
    rcases List.mem_append.mp hn with hn | hn
    · obtain ⟨a, ha, rfl⟩ := List.mem_map.mp (hfields.mem_iff.mpr hn)
      exact h.fresh a ha
    · obtain ⟨B, hB, rfl⟩ := List.mem_map.mp (hblocks.mem_iff.mpr hn)
      exact h.blocks_fresh B hB
  keeps := hkeeps

/-! ## Whole builds -/

/-- The candidates that had their turns in a build, each with its field: all the candidates, in
order, or as many of them as there was room for. -/
def Processed (catalogue : Catalogue) (o : Options) (schema : Schema) (space : Space)
    (rules : List Rule) (interrupt : Interrupt) (turns : List (Rule × String)) : Prop :=
  ∃ b₀ new b₁, (Build.ready o rules).Gives (.start catalogue o schema space interrupt) () b₀ ∧
    Build.Turns o b₀ turns new b₁ ∧ turns.map (·.1) <+: rules ∧
      (turns.map (·.1) = rules ∨ Build.isFull o new = true)

namespace Build

open BuildState

variable {o : Options} {b b₀ b₁ b₂ b' : BuildState} {new laid : NewFields} {i : Interrupt}
variable {turns : List (Rule × String)} {rules : List Rule} {u v : Unit} {C n : String}

theorem keepsClasses_annotate (o : Options) (b : BuildState) :
    b.KeepsClasses { b with schema := o.annotate b.schema } := by
  intro C e he
  exact ⟨_, (o.entity?_annotate b.schema C).trans (by rw [he]; rfl),
    e.keeps_map (Field.later_annotate o _)⟩

theorem sameUsed_annotate (o : Options) (b : BuildState) :
    SameUsed b { b with schema := o.annotate b.schema } := by
  have hname : ∀ isMain f, (o.annotateField isMain f).name = f.name := by
    intro isMain f
    rw [← Field.core_name, core_annotateField, Field.core_name]
  intro C n
  simp only [IsUsed, HasField, o.entity?_annotate, Option.map_eq_some_iff]
  constructor
  · rintro ⟨_, ⟨e, he, rfl⟩, _, hmem, rfl, hused⟩
    obtain ⟨f, hf, rfl⟩ := List.mem_map.mp hmem
    rw [(o.marks_annotateField _ f).1] at hused
    exact ⟨e, he, f, hf, (hname _ f).symm, hused⟩
  · rintro ⟨e, he, f, hf, rfl, hused⟩
    refine ⟨_, ⟨e, he, rfl⟩, _, List.mem_map_of_mem hf, hname _ f, ?_⟩
    rw [(o.marks_annotateField _ f).1]
    exact hused

theorem conserves_arrange (hlinked : Mode.ofOptions o ≠ .standard → Linked b)
    (hlaid : ∀ p ∈ laid.paths, p ∈ b.createdFields) (h : (arrange o laid).Gives b u b') :
    Conserves b b' := by
  obtain ⟨_, b₁, hfields, h⟩ := gives_bind.mp h
  refine making_conserves.trans (conserves_arrangeFields hlaid hfields) ?_
  split at h
  · rename_i hsparse
    have hmode : Mode.ofOptions o ≠ .standard := by
      intro hstandard
      rw [hstandard] at hsparse
      cases hsparse
    have hkeeps : Safe (arrangeFields laid.paths) := tidying_safe.moving.arrangeFields _
    exact conserves_arrangeBlocks (hkeeps.respects hfields (hlinked hmode)) h
  · exact making_conserves.closed.pure _ h

/-- The new fields that are laid out were created. -/
theorem created_of_laid (hturns : Turns o b₀ turns new b₁)
    (hmark : (markNew new).Gives { b₁ with interrupt := i } laid b₂) :
    ∀ p ∈ laid.paths, p ∈ b₂.createdFields := by
  intro p hp
  refine Grew.created (grew_markNew new hmark) p (hturns.new_created p ?_)
  simp only [markNew, gives_get_bind] at hmark
  obtain ⟨_, _, -, hpure⟩ := gives_bind.mp hmark
  obtain ⟨rfl, -⟩ := gives_pure.mp hpure
  exact ((List.mergeSort_perm _ _).map _).mem_iff.mp hp

/-- Up to the final costs everything is kept. -/
theorem conserves_layOut (h : b.Accounted) (hclear : b.space.Unlinked)
    (hrun : (layOut o rules).Gives b u b') : Conserves b b' := by
  obtain ⟨b₀, turns, new, b₁, i, laid, b₂, hready, hturns, -, -, hmark, harrange⟩ :=
    layOut_turns hrun
  have hstill : Conserves b₁ { b₁ with interrupt := i } :=
    making_conserves.still ⟨rfl, rfl, rfl, rfl⟩
  have hmarked : Conserves { b₁ with interrupt := i } b₂ :=
    closed_markNew making_conserves.closed conserves_mark new hmark
  refine making_conserves.trans (conserves_ready o rules hready) (making_conserves.trans
    hturns.conserves (making_conserves.trans hstill (making_conserves.trans hmarked ?_)))
  refine conserves_arrange (fun hmode => ?_) (fun p hp => ?_) harrange
  · have hlinked₀ : Linked b₀ := by
      unfold ready at hready
      split at hready
      · exact absurd ‹_› hmode
      · exact linked_prepare h hclear hready
    have hlinked₁ : Linked { b₁ with interrupt := i } :=
      (hturns.linked hmode hlinked₀).of_grows (.of_eq rfl rfl rfl) rfl fun _ _ _ _ ha =>
        absurd ha List.not_mem_nil
    exact (tidying_safe.markNew new).respects hmark hlinked₁
  · exact created_of_laid hturns hmark p hp

end Build

section Whole

open BuildState

variable {catalogue : Catalogue} {o : Options} {schema : Schema} {space : Space}
variable {rules : List Rule} {interrupt : Interrupt} {b : BuildState}

theorem tallied_start : (start catalogue o schema space interrupt).Tallied where
  fields_nodup := List.nodup_nil
  blocks_nodup := List.nodup_nil
  fields := fun _ hp => absurd hp List.not_mem_nil
  blocks := fun _ hp => absurd hp List.not_mem_nil

theorem runBuild_extendedBy (hschema : schema.compile = .ok ())
    (h : runBuild catalogue o schema space rules interrupt = (.ok (), b)) :
    schema.ExtendedBy b.schema b.createdFields b.createdBlocks := by
  obtain ⟨added, blocks, hg⟩ := runBuild_grows h
  obtain ⟨b₁, hlay, rfl, -⟩ := runBuild_eq_ok h
  obtain ⟨htallied, hkeeps⟩ := Build.conserves_layOut
    (accounted_start catalogue o space interrupt hschema) (Space.unlinked_clearLinks space) hlay
    tallied_start
  have hnames := (Schema.nodup_of_compile hschema).1
  have hclass : ∀ {C e'}, b₁.schema.entity? C = some e' → C ∈ schema.entities.map (·.name) := by
    intro C e' he'
    have hb₁ : b₁.schema.entities.map (·.name) = schema.entities.map (·.name) := by
      have hentities := hg.entities
      rw [Options.annotate, List.map_map] at hentities
      exact hentities
    exact hb₁ ▸ Schema.class_of_entity? he'
  refine ⟨hg.entities, htallied.fields_nodup, htallied.blocks_nodup, fun p hp => ?_, fun e he => ?_⟩
  · rcases List.mem_append.mp hp with hp | hp
    · obtain ⟨e', he', -⟩ := htallied.fields p hp
      exact hclass he'
    · obtain ⟨e', he', -⟩ := htallied.blocks p hp
      exact hclass he'
  · have he : schema.entity? e.name = some e := find?_of_nodup Entity.name hnames he
    obtain ⟨e', c', he', -, hclassGrows⟩ := hg.class_of_start he
    obtain ⟨e₁, he₁, hkeeps₁⟩ := hkeeps e.name e he
    obtain ⟨e₂, he₂, hkeeps₂⟩ := Build.keepsClasses_annotate o b₁ e.name e₁ he₁
    obtain rfl : e' = e₂ := Option.some.inj (he'.symm.trans he₂)
    refine ⟨e', Schema.mem_of_entity? he', hclassGrows.extendedBy (hkeeps₁.trans hkeeps₂)
      (Schema.name_of_entity? he') ?_ ?_⟩
    · refine (List.perm_ext_iff_of_nodup hclassGrows.names_nodup
        (nodup_namesIn htallied.fields_nodup)).mpr fun n => ?_
      rw [mem_namesIn, List.mem_map]
      exact ((hg.created e.name n).trans (or_iff_right List.not_mem_nil)).symm
    · refine (List.perm_ext_iff_of_nodup hclassGrows.blocks_nodup
        (nodup_namesIn htallied.blocks_nodup)).mpr fun n => ?_
      rw [mem_namesIn, List.mem_map]
      exact ((hg.createdBlocks e.name n).trans (or_iff_right List.not_mem_nil)).symm

/-- Of the created fields those are used that are the fields of candidates that had their turns. -/
theorem isUsed_iff_of_turns {b₀ b₁ b₂ b₃ : BuildState} {turns : List (Rule × String)}
    {new laid : NewFields} {i : Interrupt}
    (hlay : (Build.layOut o rules).Gives (start catalogue o schema space interrupt) () b₃)
    (hready : (Build.ready o rules).Gives (start catalogue o schema space interrupt) () b₀)
    (hturns : Build.Turns o b₀ turns new b₁)
    (hmark : (Build.markNew new).Gives { b₁ with interrupt := i } laid b₂)
    (harrange : (Build.arrange o laid).Gives b₂ () b₃) {C n : String}
    (hcreated : ⟨C, n⟩ ∈ b₃.createdFields) :
    BuildState.IsUsed { b₃ with schema := o.annotate b₃.schema } C n ↔
      Build.IsFieldOf C n turns := by
  rw [Build.sameUsed_annotate o b₃ C n, Build.layOut_isUsed hready hturns hmark harrange]
  refine or_iff_right ?_
  -- no field is created under a name that was taken at the start
  rintro ⟨e, he, f, hf, rfl, -⟩
  have htaken : (start catalogue o schema space interrupt).Taken C f.name :=
    ⟨e, he, Entity.name_mem_names hf⟩
  have hkeeps := Build.making_keepsTaken.layOut Build.tidying_keepsTaken o rules hlay
  exact List.not_mem_nil ((hkeeps C f.name htaken).2 hcreated)

/-- A build that succeeds returns the schema it was given with what it created in addition, and
nothing else changed but marks and costs; of what it created it uses the fields of candidates. -/
theorem runBuild_conserves (hschema : schema.compile = .ok ())
    (h : runBuild catalogue o schema space rules interrupt = (.ok (), b)) :
    schema.ExtendedBy b.schema b.createdFields b.createdBlocks ∧
      ∃ turns, Processed catalogue o schema space rules interrupt turns ∧
        ∀ C n, ⟨C, n⟩ ∈ b.createdFields → (b.IsUsed C n ↔ Build.IsFieldOf C n turns) := by
  refine ⟨runBuild_extendedBy hschema h, ?_⟩
  obtain ⟨b₃, hlay, rfl, -⟩ := runBuild_eq_ok h
  obtain ⟨b₀, turns, new, b₁, i, laid, b₂, hready, hturns, hprefix, hend, hmark, harrange⟩ :=
    Build.layOut_turns hlay
  exact ⟨turns, ⟨b₀, new, b₁, hready, hturns, hprefix, hend⟩, fun C n hcreated =>
    isUsed_iff_of_turns hlay hready hturns hmark harrange hcreated⟩

end Whole

open EarlyOrders in
/-- The mean of the early orders adds three fields and two blocks to the customers. -/
theorem earlyMean_conserves :
    schema.compile = .ok () ∧ sparseBuild.1 = .ok () ∧
      (namesIn "Customer" sparseBuild.2.createdFields).length = 3 ∧
      (namesIn "Customer" sparseBuild.2.createdBlocks).length = 2 ∧
      schema.ExtendedBy sparseBuild.2.schema sparseBuild.2.createdFields
        sparseBuild.2.createdBlocks ∧
      ∃ turns, Processed .default { Options.default with sparse := true } schema space
          [yearDay, mean] .never turns ∧
        ∀ C n, ⟨C, n⟩ ∈ sparseBuild.2.createdFields →
          (sparseBuild.2.IsUsed C n ↔ Build.IsFieldOf C n turns) := by
  have hcompile : schema.compile = .ok () := eq_ok_of_isOk (by decide +kernel)
  have hbuild : sparseBuild.1.isOk = true := by decide +kernel
  have hfields : (namesIn "Customer" sparseBuild.2.createdFields).length = 3 := by decide +kernel
  have hblocks : (namesIn "Customer" sparseBuild.2.createdBlocks).length = 2 := by decide +kernel
  have hrun : runBuild .default { Options.default with sparse := true } schema space
      [yearDay, mean] .never = (.ok (), sparseBuild.2) := run_eq_of_isOk hbuild
  have hconserves := runBuild_conserves hcompile hrun
  exact ⟨hcompile, eq_ok_of_isOk hbuild, hfields, hblocks, hconserves⟩

end FeatureSynth
