/-
# The same candidates in every build

With a name that is free and no field to be found, the field of a candidate is called by the
readable name of the candidate, whether the build makes blocks or not.  What is used in the
end is what was used before, and the fields of the candidates; so of two such builds the used
fields that are derived or in blocks have the same names, class by class.
-/
import FeatureSynth.Proofs.Build.Titled

namespace FeatureSynth

/-- A class of a schema has a used field of a name that is derived or in a block. -/
def Schema.UsesBuilt (s : Schema) (C n : String) : Prop :=
  ∃ e, s.entity? C = some e ∧
    ∃ f ∈ e.fields, f.name = n ∧ f.used = true ∧ (f.formula.isSome = true ∨ f.block.isSome = true)

/-- No field or block of the class of a candidate is called by the readable name of the candidate
with a number. -/
def Schema.Unnumbered (s : Schema) (space : Space) (rules : List Rule) : Prop :=
  ∀ r ∈ rules, ∀ m, space.ruleName r false = .ok m → ∀ e, s.entity? r.className = some e →
    ∀ i, Entity.numbered m i ∉ e.names

theorem Field.isStored_eq_false_iff {f : Field} :
    f.isStored = false ↔ f.formula.isSome = true ∨ f.block.isSome = true := by
  unfold isStored
  cases f.formula <;> cases f.block <;> simp

namespace Build

open BuildState

variable {s : Space} {ts : Catalogue} {o : Options} {b b₀ b' : BuildState} {r : Rule} {n : String}
variable {new : NewFields} {rules : List Rule} {turns : List (Rule × String)} {u : Unit}

/-! ## Before the turns -/

theorem titled_collectFields (r : Rule) : Respects (KeepsTitled s ts) (collectFields r) := by
  refine titled_of_passes ?_
  intro b u b' h
  rw [collectFields, gives_modify] at h
  subst h
  exact ⟨.refl _, rfl, Nat.le_refl _, List.Subset.refl _,
    fun x n hx => (Ledger.mem_foldl_enter _ _).mp hx⟩

/-- Dimensions are bound to fields called after their rules. -/
theorem titled_bindDimension (ho : o.shareRules = true) (hs : s.Over ts) (k : Nat)
    (h : (bindDimension o k).Gives b u b') (hb : b.Titled s ts) : b'.Titled s ts := by
  obtain ⟨_, b₁, hcheck, h⟩ := gives_bind.mp h
  have hb₁ := hb.of_passes (passes_checkInterrupt hcheck)
  rw [gives_get_bind] at h
  split at h
  · obtain ⟨-, rfl⟩ := gives_pure.mp h
    exact hb₁
  · rename_i d hd
    obtain ⟨name, b₂, hfield, h⟩ := gives_bind.mp h
    have hb₂ : b₂.Titled s ts := by
      unfold dimensionField at hfield
      split at hfield
      · obtain ⟨-, rfl⟩ := gives_pure.mp hfield
        exact hb₁
      · rename_i q horigin
        rw [if_pos ho] at hfield
        obtain ⟨d', hd', -, horigin', -⟩ := hb₁.levels.symm.dimension hd
        have hq : q.Over ts := hs d' (List.mem_of_getElem? hd') q (horigin'.trans horigin)
        exact ((closed_titled s ts).bind (titled_collectFields q)
          (fun _ => memberParts_titled.toFieldParts.sharedField q hq) hfield).titled hb₁
    rw [gives_modify] at h
    subst h
    exact hb₂.of_passes ⟨.of_modifyDimension _ _ fun _ => ⟨rfl, rfl, rfl⟩, rfl, Nat.le_refl _,
      List.Subset.refl _, fun _ _ => id⟩

theorem titled_ready (hmode : Mode.ofOptions o ≠ .standard) (hs : s.Over ts)
    (h : (ready o rules).Gives b u b') (hb : b.Titled s ts) : b'.Titled s ts := by
  have ho := shareRules_of_mode hmode
  unfold ready at h
  split at h
  · exact absurd ‹_› hmode
  · simp only [prepare, gives_modify_bind] at h
    obtain ⟨_, b₁, hbind, hcollect⟩ := gives_bind.mp h
    simp only [bindDimensions, gives_get_bind] at hbind
    obtain ⟨_, b₂, hdims, harrange⟩ := gives_bind.mp hbind
    rw [gives_get_bind] at harrange
    have hcounted : Titled s ts { b with space := b.space.countUses rules } :=
      hb.of_passes ⟨.of_reset (Space.resetUses_countUses b.space rules), rfl, Nat.le_refl _,
        List.Subset.refl _, fun _ _ => id⟩
    have hbound := gives_forM_induct (Titled s ts)
      (fun k _ _ _ hb hone => titled_bindDimension ho hs k hone hb) hcounted hdims
    have harranged := hbound.of_passes (tidying_passes.moving.arrangeFields _ harrange)
    have hP := closed_titled s ts
    refine (hP.forM (fun r _ => hP.bind (titled_collectFields r) fun _ => ?_) hcollect).titled
      harranged
    split
    · exact titled_of_passes (always_modify fun _ =>
        ⟨.refl _, rfl, Nat.le_refl _, List.Subset.refl _, fun _ _ => id⟩).respects
    · exact hP.pure _

/-! ## Turns -/

/-- In a state like that the field of every candidate that had its turn is called after it. -/
structure TitledTurns (s : Space) (ts : Catalogue) (turns : List (Rule × String)) (b : BuildState) :
    Prop where
  titled : b.Titled s ts
  turns : b.reused = 0 → ∀ turn ∈ turns, b.CalledAfter s ts turn.1 turn.2

theorem TitledTurns.of_passes (h : TitledTurns s ts turns b) (hpasses : Passes b b') :
    TitledTurns s ts turns b' where
  titled := h.titled.of_passes hpasses
  turns := fun hnone turn hturn =>
    (h.turns (Nat.eq_zero_of_le_zero (hnone ▸ hpasses.reused)) turn hturn).mono hpasses.created

/-- What is realized is called after its rule, if no field was found. -/
theorem calledAfter_of_realized (hs : s.WellFounded) (hb : b.Titled s ts) (hr : r.Over ts)
    (hnone : b.reused = 0) (h : b.Realized s r n) : b.CalledAfter s ts r n := by
  have hsignature : ∀ {x y}, s.Takes x y → x.signature = y.signature := by
    rintro x y (rfl | heq)
    · rfl
    · exact ((Space.compareCostName_eq_iff hs).mp heq).signature
  obtain ⟨x, hx, hxr⟩ := h
  obtain ⟨y, hxy, hy, hcreated, m, hname, hn⟩ := hb.called hnone x n hx
  have hyr := (hsignature hxy).symm.trans (hsignature hxr)
  refine ⟨hr, ?_, m, ?_, hn⟩
  · rwa [← Rule.className_eq_of_signature hyr]
  · rwa [← Space.ruleName_eq_of_signature hyr hy hr]

/-- The states after more turns found no fewer fields, and created no fewer. -/
theorem Turns.titled (hmode : Mode.ofOptions o ≠ .standard) (hs : s.WellFounded)
    (h : Turns o b₀ turns new b) (hrules : ∀ turn ∈ turns, turn.1.Over ts)
    (h₀ : b₀.Titled s ts) : TitledTurns s ts turns b := by
  induction h with
  | start => exact ⟨h₀, fun _ _ h => absurd h List.not_mem_nil⟩
  | @turn turns new new' b b₁ b' r n before check room one ih =>
    have h₁ := (ih fun turn hturn => hrules turn (List.mem_append_left _ hturn)).of_passes
      (passes_checkInterrupt check)
    have hr : r.Over ts := hrules (r, n) (by simp)
    have hfield : ∀ {b₂}, (candidateField o r).Gives b₁ n b₂ →
        TitledTurns s ts (turns ++ [(r, n)]) b₂ := by
      intro b₂ hrun
      have hpart : Respects (KeepsTitled s ts) (candidateField o r) :=
        memberParts_titled.candidateField (fun hstandard => absurd hstandard hmode) hr
      have hkeeps := hpart hrun
      have htitled := hkeeps.titled h₁.titled
      refine ⟨htitled, fun hnone turn hturn => ?_⟩
      rcases List.mem_append.mp hturn with hold | hlast
      · have hnone₁ := Nat.eq_zero_of_le_zero (hnone ▸ hkeeps.reused)
        exact (h₁.turns hnone₁ turn hold).mono (Grew.created (grew_candidateField r hrun))
      · rw [List.mem_singleton.mp hlast]
        exact calledAfter_of_realized hs htitled hr hnone
          (realized_candidateField hmode hr h₁.titled hrun)
    cases one with
    | counted field => exact hfield field
    | repeated field => exact hfield field
    | marked field mark => exact (hfield field).of_passes (tidying_passes.mark _ _ _ mark)

end Build

/-! ## Whole builds -/

/-- A build that shares fields under readable names and has no bound on them, which succeeds
without a field found or a number given to the name of a candidate. -/
structure NamesPlainly (catalogue : Catalogue) (o : Options) (schema : Schema) (space : Space)
    (rules : List Rule) (interrupt : Interrupt) (b : BuildState) : Prop where
  shares : Mode.ofOptions o ≠ .standard
  readable : o.readableNames = true
  unbounded : o.maxFields = none
  succeeds : runBuild catalogue o schema space rules interrupt = (.ok (), b)
  unfound : b.reused = 0
  unnumbered : b.schema.Unnumbered space rules

section Whole

open BuildState

variable {catalogue : Catalogue} {o o' : Options} {schema : Schema} {space : Space}
variable {rules : List Rule} {interrupt interrupt' : Interrupt} {b b' : BuildState} {C n : String}

theorem titled_start (hreadable : o.readableNames = true) :
    (start catalogue o schema space interrupt).Titled space catalogue where
  levels := .clearLinks space
  readable := hreadable
  called := fun _ _ _ hx => absurd hx List.not_mem_nil

/-- A created field is in its class, and not stored. -/
theorem unstored_of_created (hschema : schema.compile = .ok ())
    (h : runBuild catalogue o schema space rules interrupt = (.ok (), b)) {p : FieldPath}
    (hp : p ∈ b.createdFields) :
    b.HasField p.className fun f => f.name = p.name ∧ f.isStored = false := by
  have hextended := runBuild_extendedBy hschema h
  obtain ⟨b₃, hlay, rfl, hcompile⟩ := runBuild_eq_ok h
  obtain ⟨htallied, -⟩ := Build.conserves_layOut
    (accounted_start catalogue o space interrupt hschema) (Space.unlinked_clearLinks space) hlay
    tallied_start
  obtain ⟨e₃, he₃, hunstored⟩ := htallied.fields p hp
  obtain ⟨e, he, hname⟩ := List.mem_map.mp (hextended.placed p (List.mem_append_left _ hp))
  obtain ⟨e', he', hgrown⟩ := hextended.extended e he
  have he' : (o.annotate b₃.schema).entity? p.className = some e' := by
    rw [← hname, ← hgrown.name_eq]
    exact find?_of_nodup Entity.name (Schema.nodup_of_compile hcompile).1 he'
  have hmem : p.name ∈ e'.fields.map (·.name) := by
    refine hgrown.fields_perm.mem_iff.mpr (List.mem_append_right _ ?_)
    rw [mem_namesIn, hname]
    exact hp
  obtain ⟨f, hf, hf'⟩ := List.mem_map.mp hmem
  refine ⟨e', he', f, hf, hf', ?_⟩
  rw [o.entity?_annotate, he₃] at he'
  obtain rfl := Option.some.inj he'
  obtain ⟨g, hg, rfl⟩ := List.mem_map.mp hf
  have hlater := Field.later_annotate o (b₃.schema.main?.map (·.name) == some e₃.name) g
  rw [hlater.isStored_eq]
  exact hunstored g hg (hlater.name_eq.symm.trans hf')

/-- The fields that were there are kept. -/
theorem keepsClasses_runBuild (hschema : schema.compile = .ok ())
    (h : runBuild catalogue o schema space rules interrupt = (.ok (), b)) :
    (start catalogue o schema space interrupt).KeepsClasses b := by
  obtain ⟨b₃, hlay, rfl, -⟩ := runBuild_eq_ok h
  have hkeeps := Build.conserves_layOut (accounted_start catalogue o space interrupt hschema)
    (Space.unlinked_clearLinks space) hlay tallied_start
  intro C e he
  obtain ⟨e₁, he₁, hkeeps₁⟩ := hkeeps.2 C e he
  obtain ⟨e₂, he₂, hkeeps₂⟩ := Build.keepsClasses_annotate o b₃ C e₁ he₁
  exact ⟨e₂, he₂, hkeeps₁.trans hkeeps₂⟩

theorem isFieldOf_iff_of_mem {turns : List (Rule × String)}
    (hrules : turns.map (·.1) = rules)
    (hnames : ∀ turn ∈ turns, space.ruleName turn.1 false = .ok turn.2) :
    Build.IsFieldOf C n turns ↔
      ∃ r ∈ rules, r.className = C ∧ space.ruleName r false = .ok n := by
  constructor
  · rintro ⟨r, hr, hC⟩
    exact ⟨r, hrules ▸ List.mem_map_of_mem hr, hC, hnames _ hr⟩
  · rintro ⟨r, hr, hC, hname⟩
    rw [← hrules] at hr
    obtain ⟨⟨x, m⟩, hturn, rfl⟩ := List.mem_map.mp hr
    obtain rfl : m = n := Except.ok.inj ((hnames _ hturn).symm.trans hname)
    exact ⟨x, hturn, hC⟩

/-- Every candidate has its turn, and its field is called by its readable name. -/
theorem NamesPlainly.turns (h : NamesPlainly catalogue o schema space rules interrupt b)
    (hschema : schema.compile = .ok ()) (hspace : space.WellFounded) (hover : space.Over catalogue)
    (hrules : ∀ r ∈ rules, r.Over catalogue) :
    ∃ turns : List (Rule × String), turns.map (·.1) = rules ∧
      (∀ turn ∈ turns, space.ruleName turn.1 false = .ok turn.2 ∧
        ⟨turn.1.className, turn.2⟩ ∈ b.createdFields) ∧
      ∀ C n, b.IsUsed C n ↔
        (start catalogue o schema space interrupt).IsUsed C n ∨ Build.IsFieldOf C n turns := by
  obtain ⟨b₃, hlay, hb, -⟩ := runBuild_eq_ok h.succeeds
  obtain ⟨b₀, turns, new, b₁, i, laid, b₂, hready, hturns, hprefix, hend, hmark, harrange⟩ :=
    Build.layOut_turns hlay
  have hall : turns.map (·.1) = rules := by
    refine hend.resolve_right fun hfull => ?_
    rw [Build.isFull, h.unbounded] at hfull
    cases hfull
  have htidy : Passes { b₁ with interrupt := i } b₃ := by
    have harranged : Build.Respects Passes (Build.arrange o laid) := by
      refine Build.closed_passes.bind (Build.tidying_passes.moving.arrangeFields _) fun _ => ?_
      split
      · exact Build.tidying_passes.moving.arrangeBlocks
      · exact Build.closed_passes.pure _
    exact Build.chained_passes.trans (Build.tidying_passes.markNew new hmark) (harranged harrange)
  have hnone : b₁.reused = 0 := by
    have hunfound := h.unfound
    rw [hb] at hunfound
    exact Nat.eq_zero_of_le_zero (hunfound ▸ htidy.reused)
  have htitled := hturns.titled h.shares hspace
    (fun turn hturn => hrules _ (hall ▸ List.mem_map_of_mem hturn))
    (Build.titled_ready h.shares hover hready (titled_start h.readable))
  refine ⟨turns, hall, fun turn hturn => ?_, fun C n => ?_⟩
  · obtain ⟨-, hcreated, m, hname, hm⟩ := htitled.turns hnone turn hturn
    have hcreated : ⟨turn.1.className, turn.2⟩ ∈ b.createdFields := by
      rw [hb]
      exact htidy.created hcreated
    refine ⟨?_, hcreated⟩
    rcases hm with rfl | ⟨k, hk⟩
    · exact hname
    · -- the field is in its class, where no number was given
      obtain ⟨e, he, f, hf, hf', -⟩ := unstored_of_created hschema h.succeeds hcreated
      have hmem : Entity.numbered m k ∈ e.names := by
        rw [← hk, ← show f.name = turn.2 from hf']
        exact Entity.name_mem_names hf
      exact absurd hmem (h.unnumbered _ (hall ▸ List.mem_map_of_mem hturn) m hname e he k)
  · rw [hb, Build.sameUsed_annotate o b₃ C n]
    exact Build.layOut_isUsed hready hturns hmark harrange

/-- The used fields that are derived or in blocks are those that were there, and one for each
candidate, called by its readable name. -/
theorem NamesPlainly.usesBuilt_iff (h : NamesPlainly catalogue o schema space rules interrupt b)
    (hschema : schema.compile = .ok ()) (hspace : space.WellFounded) (hover : space.Over catalogue)
    (hrules : ∀ r ∈ rules, r.Over catalogue) :
    b.schema.UsesBuilt C n ↔ schema.UsesBuilt C n ∨
      ∃ r ∈ rules, r.className = C ∧ space.ruleName r false = .ok n := by
  obtain ⟨turns, hall, hturns, hused⟩ := h.turns hschema hspace hover hrules
  have hnames : ∀ turn ∈ turns, space.ruleName turn.1 false = .ok turn.2 :=
    fun turn hturn => (hturns turn hturn).1
  obtain ⟨-, -, -, hcompile⟩ := runBuild_eq_ok h.succeeds
  have hunique : ∀ {e : Entity} {f g : Field}, b.schema.entity? C = some e → f ∈ e.fields →
      g ∈ e.fields → f.name = g.name → f = g := fun he hf hg hname =>
    Entity.eq_of_name ((Schema.nodup_of_compile hcompile).2 _ (Schema.mem_of_entity? he)) hf hg hname
  rw [← isFieldOf_iff_of_mem hall hnames]
  constructor
  · rintro ⟨e, he, f, hf, rfl, hfused, hbuilt⟩
    rcases (hused C f.name).mp ⟨e, he, f, hf, rfl, hfused⟩ with ⟨e₀, he₀, f₀, hf₀, hname, hused₀⟩ |
      hfield
    · left
      obtain ⟨e', he', hkeeps⟩ := keepsClasses_runBuild hschema h.succeeds C e₀ he₀
      obtain rfl : e = e' := Option.some.inj (he.symm.trans he')
      obtain ⟨g, hg, hlater⟩ := hkeeps.later f₀ hf₀
      obtain rfl := hunique he hf hg (hname.symm.trans hlater.name_eq.symm)
      refine ⟨e₀, he₀, f₀, hf₀, hname, hused₀, Field.isStored_eq_false_iff.mp ?_⟩
      rw [← hlater.isStored_eq]
      exact Field.isStored_eq_false_iff.mpr hbuilt
    · exact .inr hfield
  · rintro (⟨e₀, he₀, f₀, hf₀, rfl, hused₀, hbuilt⟩ | ⟨r, hr, rfl⟩)
    · obtain ⟨e, he, hkeeps⟩ := keepsClasses_runBuild hschema h.succeeds C e₀ he₀
      obtain ⟨g, hg, hlater⟩ := hkeeps.later f₀ hf₀
      refine ⟨e, he, g, hg, hlater.name_eq, hlater.used hused₀, Field.isStored_eq_false_iff.mp ?_⟩
      rw [hlater.isStored_eq]
      exact Field.isStored_eq_false_iff.mpr hbuilt
    · obtain ⟨e, he, f, hf, rfl, hfused⟩ := (hused r.className n).mpr (.inr ⟨r, hr, rfl⟩)
      obtain ⟨e', he', g, hg, hname, hunstored⟩ :=
        unstored_of_created hschema h.succeeds (hturns (r, f.name) hr).2
      obtain rfl : e = e' := Option.some.inj (he.symm.trans he')
      obtain rfl := hunique he hf hg hname.symm
      exact ⟨e, he, f, hf, rfl, hfused, Field.isStored_eq_false_iff.mp hunstored⟩

/-- Builds of one request use the same candidates under the same names, with blocks and without, as
far as they find no fields and give no numbers to candidates. -/
theorem runBuild_same_candidates (hschema : schema.compile = .ok ()) (hspace : space.WellFounded)
    (hover : space.Over catalogue) (hrules : ∀ r ∈ rules, r.Over catalogue)
    (h : NamesPlainly catalogue o schema space rules interrupt b)
    (h' : NamesPlainly catalogue o' schema space rules interrupt' b') (C n : String) :
    b.schema.UsesBuilt C n ↔ b'.schema.UsesBuilt C n := by
  rw [h.usesBuilt_iff hschema hspace hover hrules, h'.usesBuilt_iff hschema hspace hover hrules]

end Whole

/-! ## The days of early orders -/

/-- Where no name of the class of a candidate goes on behind its readable name and the mark of a
number, no number was given. -/
theorem Schema.unnumbered_of_all {s : Schema}
    (h : (rules.all fun r => (space.ruleName r false).toOption.all fun m =>
      (s.entity? r.className).all fun e => e.names.all fun n =>
        !(m.toList ++ ['_']).isPrefixOf n.toList) = true) : s.Unnumbered space rules := by
  intro r hr m hm e he i hmem
  simp only [List.all_eq_true] at h
  have hn := h r hr
  rw [hm, he] at hn
  simp only [Except.toOption, Option.all_some, List.all_eq_true, Bool.not_eq_true'] at hn
  have hprefix := hn _ hmem
  rw [← Bool.not_eq_true, List.isPrefixOf_iff_prefix, Entity.numbered] at hprefix
  exact hprefix ⟨(toString i).toList, by simp⟩

namespace EarlyOrders

def denseBuild (rules : List Rule) : Except BuildError Unit × BuildState :=
  runBuild .default .default stored space rules .never

def blockBuild (rules : List Rule) : Except BuildError Unit × BuildState :=
  runBuild .default sparse stored space rules .never

end EarlyOrders

open EarlyOrders in
/-- The day and the mean are used under the same names with blocks and without. -/
theorem earlyMean_same_candidates :
    (denseBuild [yearDay, mean]).1 = .ok () ∧ (blockBuild [yearDay, mean]).1 = .ok () ∧
      ∀ C n, (denseBuild [yearDay, mean]).2.schema.UsesBuilt C n ↔
        (blockBuild [yearDay, mean]).2.schema.UsesBuilt C n := by
  have hdense : (denseBuild [yearDay, mean]).1.isOk = true := by decide +kernel
  have hblocks : (blockBuild [yearDay, mean]).1.isOk = true := by decide +kernel
  have hrules : ∀ r ∈ [yearDay, mean], r.Over .default := by simp [over_yearDay, over_mean]
  have hplain : NamesPlainly .default .default stored space [yearDay, mean] .never
      (denseBuild [yearDay, mean]).2 :=
    ⟨by decide, rfl, rfl, run_eq_of_isOk hdense, by decide +kernel,
      Schema.unnumbered_of_all (by decide +kernel)⟩
  have hplain' : NamesPlainly .default sparse stored space [yearDay, mean] .never
      (blockBuild [yearDay, mean]).2 :=
    ⟨by decide, rfl, rfl, run_eq_of_isOk hblocks, by decide +kernel,
      Schema.unnumbered_of_all (by decide +kernel)⟩
  exact ⟨eq_ok_of_isOk hdense, eq_ok_of_isOk hblocks,
    runBuild_same_candidates (eq_ok_of_isOk (by decide +kernel)) wellFounded_space over_space hrules
      hplain hplain'⟩

namespace EarlyOrders

/-- The early orders themselves, as a candidate. -/
def selection : Rule := { early with cost := 3 }

/-- What the build of the mean and the early orders ends with. -/
def finished (o : Options) : Except BuildError Unit × BuildState :=
  Build.finished .default o stored space [mean, selection]
    (Build.gatheredFields .default o stored space [mean, selection])

theorem runBuild_selection {o : Options}
    (hgathered : (Build.gathered .default o stored space [mean, selection]).1.isOk = true)
    (hsorted : (Build.gatheredFields .default o stored space [mean, selection]).Pairwise fun x y =>
      ((Build.gathered .default o stored space [mean, selection]).2.space.compareCostName x.1 y.1
        != .gt) = true)
    (hfinished : (finished o).1.isOk = true) :
    runBuild .default o stored space [mean, selection] .never = (.ok (), (finished o).2) :=
  Build.runBuild_of_finished hgathered (List.mergeSort_of_pairwise hsorted) hfinished

end EarlyOrders

open EarlyOrders in
/-- Where the early orders are a candidate of their own the table has the name of their field, when
their turn comes: they are used under a name with a number then, and without blocks under the
readable one. -/
theorem selection_renamed :
    stored.compile = .ok () ∧ space.WellFounded ∧ space.Over .default ∧
      (∀ r ∈ [mean, selection], r.check space = .ok () ∧ r.Over .default) ∧
      (denseBuild [mean, selection]).1 = .ok () ∧ (blockBuild [mean, selection]).1 = .ok () ∧
      ¬ ∀ C n, (denseBuild [mean, selection]).2.schema.UsesBuilt C n ↔
        (blockBuild [mean, selection]).2.schema.UsesBuilt C n := by
  have hselection : selection.Over .default := ⟨by decide +kernel, trivial⟩
  have hchecked : selection.check space = .ok () := eq_ok_of_isOk (by decide +kernel)
  have hrules : ∀ r ∈ [mean, selection], r.check space = .ok () ∧ r.Over .default := by
    simp [checked_mean.2, over_mean, hselection, hchecked]
  have hdense : denseBuild [mean, selection] = (.ok (), (finished .default).2) :=
    runBuild_selection (by decide +kernel) (by decide +kernel) (by decide +kernel)
  have hblocks : blockBuild [mean, selection] = (.ok (), (finished sparse).2) :=
    runBuild_selection (by decide +kernel) (by decide +kernel) (by decide +kernel)
  rw [hdense, hblocks]
  refine ⟨eq_ok_of_isOk (by decide +kernel), wellFounded_space, over_space, hrules, rfl, rfl,
    fun hsame => ?_⟩
  dsimp only at hsame
  have hused : (((finished sparse).2.schema.entity? "Customer").bind fun e => e.fields.find? fun f =>
      f.name == "Orders where date.YearDay <= 100_1" && f.used && f.formula.isSome).isSome =
        true := by decide +kernel
  have hunused : ((finished .default).2.schema.entity? "Customer").all (fun e =>
      e.fields.all fun f => f.name != "Orders where date.YearDay <= 100_1") = true := by
    decide +kernel
  obtain ⟨f, hfind⟩ := Option.isSome_iff_exists.mp hused
  obtain ⟨e, he, hf⟩ := Option.bind_eq_some_iff.mp hfind
  have hP := List.find?_some hf
  simp only [Bool.and_eq_true, beq_iff_eq] at hP
  obtain ⟨⟨hname, hfused⟩, hformula⟩ := hP
  have huses : (finished sparse).2.schema.UsesBuilt "Customer" "Orders where date.YearDay <= 100_1" :=
    ⟨e, he, f, List.mem_of_find?_eq_some hf, hname, hfused, .inl hformula⟩
  obtain ⟨e', he', g, hg, hgname, -⟩ := (hsame _ _).mpr huses
  rw [he', Option.all_some] at hunused
  have hother := List.all_eq_true.mp hunused g hg
  rw [hgname] at hother
  exact absurd hother (by decide)

end FeatureSynth
