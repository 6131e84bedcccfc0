/-
# Requests that cannot fail

A request that is checked, over a space as registration makes it and a schema that has the fields
it names, is analysed and built without a failure, if the sampler answers what it is asked.  Three
things come between all the same.  Dimensions are bound to fields before any of them is sampled,
so a dimension whose rule selects a part takes the partiles that former analyses left: these have
to be there.  Where statistics go into blocks, no field of the schema may have a formula and a
block at once, for such a field is not known as the member that it is.  And the numbers that are
sampled have to be far enough apart for the bounds between them: on others the program ends.

The analysis is followed step by step, as a build is: a step is stopped, for a cause, or it
succeeds with what is said of it.  What it leaves has the cuts of the request's space, and locates
the parts of the candidates that are kept.
-/
import FeatureSynth.Proofs.Build.Unfailing
import FeatureSynth.Proofs.Partile.Cuttable
import FeatureSynth.Proofs.Request.AnyOrder
import FeatureSynth.Proofs.Space.Costs

namespace FeatureSynth

/-! ## Grounded rules and their tie-breaks -/

namespace Rule

variable {s : Space} {schema : Schema} {a b : Rule}

/-- What is checked of operands does not look at the tie-break of their rule. -/
theorem checkOperands_untied (r : Rule) : ∀ (xs : List (RuleOperand Rule)) (index : Nat)
    (slots : List Kind), checkOperands s r.untied index slots xs = checkOperands s r index slots xs
  | [], _, slots => by cases slots <;> simp [checkOperands]
  | x :: rest, index, [] => by simp [checkOperands]
  | x :: rest, index, slot :: slots => by
      cases x with
      | field name type =>
        rw [checkOperands, checkOperands, checkOperands_untied r rest]
        rfl
      | rule inner =>
        rw [checkOperands, checkOperands, checkOperands_untied r rest]
        rfl
      | part part =>
        rw [checkOperands, checkOperands, checkOperands_untied r rest]
        rfl

theorem check_untied (r : Rule) : r.untied.check s = r.check s := by
  obtain ⟨template, className, operands, cost, tieBreak⟩ := r
  have hoperands := checkOperands_untied (s := s)
    ⟨template, className, operands, cost, tieBreak⟩ operands 0 template.slots
  unfold check
  dsimp only [untied] at hoperands ⊢
  rw [hoperands]
  rfl

theorem fieldsFrom_untied (r : Rule) : ∀ (xs : List (RuleOperand Rule)) (index : Nat),
    FieldsFrom schema r.untied index xs ↔ FieldsFrom schema r index xs
  | [], _ => by simp [FieldsFrom]
  | x :: rest, index => by
      cases x with
      | field name type =>
        rw [FieldsFrom, FieldsFrom, fieldsFrom_untied r rest]
        rfl
      | rule inner => rw [FieldsFrom, FieldsFrom, fieldsFrom_untied r rest]
      | part part => rw [FieldsFrom, FieldsFrom, fieldsFrom_untied r rest]

theorem fieldsIn_untied (r : Rule) : r.untied.FieldsIn schema ↔ r.FieldsIn schema := by
  obtain ⟨template, className, operands, cost, tieBreak⟩ := r
  exact fieldsFrom_untied ⟨template, className, operands, cost, tieBreak⟩ operands 0

theorem Grounded.of_untied (h : a.untied = b.untied) (ha : a.Grounded s schema) :
    b.Grounded s schema where
  named := .of_untied h ha.named
  checked := by rw [← check_untied, ← h, check_untied, ha.checked]
  fields := by rw [← fieldsIn_untied, ← h, fieldsIn_untied]; exact ha.fields

end Rule

/-! ## Requests that fit -/

/-- A space whose kept parts fit has one index per axis throughout, if the rules of its dimensions
are checked. -/
theorem Space.PartsFit.wellShaped {s : Space} {schema : Schema} (h : s.PartsFit)
    (hdims : s.Grounded schema) : s.WellShaped where
  kept := fun p hp entry hentry => length_of_fits (h p hp entry hentry)
  named := fun d hd r hr part hpart => h.shaped ((hdims d hd r hr).part?_isSome part hpart)

/-- A part of a partition that is cut along nothing is located. -/
theorem Space.located_of_uncut {s : Space} {part : Part} (hpart : s.Shaped part)
    (hcut : ∀ p, s.partitions[part.partition]? = some p → ∀ a ∈ p.axes, False) :
    s.Located part := by
  have hnone : s.axesOf part = [] := by
    refine List.eq_nil_iff_forall_not_mem.mpr fun ⟨a, i⟩ ha => ?_
    obtain ⟨p, hp, ha⟩ := Space.mem_axesOf ha
    exact hcut p hp a ha
  exact .intro hpart (by simp [hnone]) (by simp [hnone])

namespace Request

/-- A request that is checked and fits its schema.  The space is one that registration makes, but
for links, uses and partiles; the candidates and the rules of dimensions are checked, over the
default catalogue, and the fields they name are those of the schema, as are the fields that are
dimensions and the tables that are cut. -/
structure WellPosed (q : Request) (o : Options) : Prop where
  checked : q.check o = .ok ()
  registered : ∃ s : Space, s.Built ∧ s.SameCuts q.space
  rules : ∀ r ∈ q.rules, r.Grounded q.space q.schema
  dimensionRules : q.space.Grounded q.schema
  dimensionFields : ∀ d ∈ q.space.dimensions, ∀ name type, d.origin = .field name type →
    q.schema.fieldType? d.className name = some type
  tables : ∀ p ∈ q.space.partitions,
    q.schema.fieldType? p.parentClass p.table = some (.objectArray p.className)

/-- Former analyses found the parts that the rules of the dimensions in use name. -/
def FindsParts (q : Request) : Prop :=
  ∀ d ∈ (q.space.countUses q.rules).dimensions, 0 < d.uses → ∀ r, d.origin = .rule r →
    q.space.clearLinks.resolves r = true

theorem findsParts_of_all {q : Request} (h : ∀ d ∈ q.space.dimensions, ∀ r, d.origin = .rule r →
    q.space.clearLinks.resolves r = true) : q.FindsParts := by
  intro d hd _ r hr
  obtain ⟨k, hk⟩ := List.mem_iff_getElem?.mp hd
  obtain ⟨d₀, hd₀, -, horigin⟩ := Space.dimension_of_frame
    (Space.frame_of_reset (Space.resetUses_countUses q.space q.rules)).symm hk
  exact h d₀ (List.mem_of_getElem? hd₀) r (horigin.trans hr)

namespace WellPosed

variable {q : Request} {o : Options} {s : Space}

theorem compile (h : q.WellPosed o) : q.schema.compile = .ok () := (of_check h.checked).1

/-! What is said of the space of a request holds of every space with the same cuts. -/

theorem wellFounded (h : q.WellPosed o) (hs : q.space.SameCuts s) : s.WellFounded := by
  obtain ⟨s₀, hbuilt, hcuts⟩ := h.registered
  exact hbuilt.wellFounded.of_frame (hcuts.trans hs).frame

theorem wellShaped (h : q.WellPosed o) (hs : q.space.SameCuts s) : s.WellShaped := by
  obtain ⟨s₀, hbuilt, hcuts⟩ := h.registered
  exact (hbuilt.partsFit.of_sameCuts (hcuts.trans hs)).wellShaped (h.dimensionRules.of_sameCuts hs)

/-- The classes of dimensions are classes of the schema. -/
theorem class_of_dimension (h : q.WellPosed o) (hs : q.space.SameCuts s) {d : Dimension}
    (hd : d ∈ s.dimensions) : d.className ∈ q.schema.entities.map (·.name) := by
  obtain ⟨k, hk⟩ := List.mem_iff_getElem?.mp hd
  obtain ⟨d₀, hd₀, hclass, horigin⟩ := Space.dimension_of_frame hs.frame.symm hk
  have hmem := List.mem_of_getElem? hd₀
  rw [← hclass]
  cases ho : d₀.origin with
  | field name type =>
    obtain ⟨e, -, he, -⟩ := Schema.fieldType?_eq_some.mp (h.dimensionFields d₀ hmem name type ho)
    exact Schema.class_of_entity? he
  | rule r =>
    obtain ⟨s₀, hbuilt, hcuts⟩ := h.registered
    rw [hbuilt.classesOfRules.of_frame hcuts.frame d₀ hmem r ho]
    exact (h.dimensionRules d₀ hmem r ho).className_mem

/-- A partition cuts a table of a class of the schema, which leads to another. -/
theorem class_of_partition (h : q.WellPosed o) (hs : q.space.SameCuts s) {p : Partition}
    (hp : p ∈ s.partitions) : p.parentClass ∈ q.schema.entities.map (·.name) ∧
      p.className ∈ q.schema.entities.map (·.name) := by
  obtain ⟨k, hk⟩ := List.mem_iff_getElem?.mp hp
  rcases hs.partition? k with ⟨-, hnone⟩ | ⟨p₀, q, hp₀, hq, hcut, -⟩
  · cases hnone.symm.trans hk
  · obtain rfl : p = q := Option.some.inj (hk.symm.trans hq)
    rw [show p.parentClass = p₀.parentClass from congrArg (·.2.1) hcut,
      show p.className = p₀.className from congrArg (·.1) hcut]
    obtain ⟨e, f, he, hf, htype⟩ :=
      Schema.fieldType?_eq_some.mp (h.tables p₀ (List.mem_of_getElem? hp₀))
    obtain ⟨e', he'⟩ := Option.isSome_iff_exists.mp (Schema.entity?_of_relation h.compile
      (Schema.mem_of_entity? he) (List.mem_of_find?_eq_some hf) (c := p₀.className)
      (by rw [htype]; rfl))
    exact ⟨Schema.class_of_entity? he, Schema.class_of_entity? he'⟩

/-- Candidates in order are checked as they are in the request. -/
theorem grounded (h : q.WellPosed o) (hs : q.space.SameCuts s) {ties : TieBreaks} {r : Rule}
    (hr : r ∈ q.ordered ties) : r.Grounded s q.schema := by
  obtain ⟨r₀, hr₀, huntied⟩ := (sameRules_ordered q ties).exists_mem hr
  exact (Rule.Grounded.of_untied huntied (h.rules r₀ hr₀)).of_sameCuts hs

theorem shaped (h : q.WellPosed o) (hs : q.space.SameCuts s) {ties : TieBreaks} {r : Rule}
    (hr : r ∈ q.ordered ties) : r.PartsIn s.Shaped := fun part hpart =>
  (h.wellShaped hs).of_part? ((h.grounded hs hr).part?_isSome part hpart)

end WellPosed

end Request

/-! ## Samplers that answer -/

/-- Samples hold a column of the kind wanted for each of some requests. -/
def Samples.Answer (samples : Samples) (requests : List SampleRequest) : Prop :=
  ∀ r ∈ requests, ∃ column, samples.column? ⟨r.className, r.field⟩ = some column ∧
    column.kind = r.kind

/-- The numbers sampled for each of some requests can be cut; symbols always can. -/
def Samples.Cuttable (samples : Samples) (requests : List SampleRequest) : Prop :=
  ∀ r ∈ requests, ∀ values, samples.column? ⟨r.className, r.field⟩ = some (.continuous values) →
    Levels.cuttable values samples.objects = true

/-- A sampler answers each of some requests with a column of the kind wanted. -/
def Sampler.Answers (sampler : Sampler) (schema : Schema) (requests : List SampleRequest) : Prop :=
  ∃ samples, (sampler schema requests).result = .ok samples ∧ samples.Answer requests

/-- Whatever a sampler answers some requests with can be cut. -/
def Sampler.CanBeCut (sampler : Sampler) (schema : Schema) (requests : List SampleRequest) : Prop :=
  ∀ samples, (sampler schema requests).result = .ok samples → samples.Cuttable requests

/-- What the analysis of a request asks a sampler: the dimensions in use are bound to fields, and
these are wanted of the reduced schema. -/
def Request.Asks (q : Request) (catalogue : Catalogue) (o : Options) (interrupt : Interrupt)
    (schema : Schema) (requests : List SampleRequest) : Prop :=
  ∃ b, bindSchema catalogue o q.schema (q.space.countUses q.rules) interrupt.look.2 = (.ok (), b) ∧
    schema = b.reduced ∧
    (((q.space.countUses q.rules).usedDimensions).filterMap
      fun rank => b.space.dimensions[rank]?).mapM Analysis.requestFor = .ok requests

namespace Analysis

variable {α β : Type} {cause : Prop} {a a' : AnalysisRun} {catalogue : Catalogue} {o : Options}
variable {schema : Schema} {sampler : Sampler} {rules : List Rule}

/-! ## Steps that are stopped or succeed -/

/-- From a state a step of an analysis is stopped, for a cause, or succeeds with a result and a
state as given. -/
abbrev Ensures (cause : Prop) (m : Analysis α) (a : AnalysisRun) (Q : α → AnalysisRun → Prop) :
    Prop :=
  m.Ends a False (fun e _ => cause ∧ e = .interrupted) Q

/-- An analysis and the making of its reduced schema look at one request to stop, and if there is
or will be one, there is a cause. -/
structure Attended (cause : Prop) (a : AnalysisRun) : Prop where
  shared : a.buildInterrupt = none
  asked : a.interrupt ≠ .never → cause

theorem Attended.of_eq (h : Attended cause a) (hshared : a'.buildInterrupt = a.buildInterrupt)
    (hasked : a'.interrupt = a.interrupt) : Attended cause a' :=
  ⟨hshared.trans h.shared, hasked ▸ h.asked⟩

/-- A look at the request to stop. -/
theorem Attended.checkInterrupt_bind {f : Unit → Analysis β} {R : β → AnalysisRun → Prop}
    (h : Attended cause a)
    (hf : Attended cause { a with interrupt := a.interrupt.look.2 } →
      (f ()).Ensures cause { a with interrupt := a.interrupt.look.2 } R) :
    (checkInterrupt >>= f).Ensures cause a R := by
  refine .checkInterrupt_bind (fun hlook => ⟨h.asked fun hnever => ?_, rfl⟩) fun _ =>
    hf ⟨h.shared, h.asked ∘ fun hlook hnever => hlook (by rw [hnever]; rfl)⟩
  rw [hnever] at hlook
  cases hlook

/-! ## Steps of an analysis -/

/-- The reduced schema is made where the dimensions in use can be bound. -/
theorem ensures_reducedSchema {s : Space} (h : Attended cause a)
    (hbind : (Build.bindDimensions o).Ensures (.start catalogue o schema a.space a.interrupt)
      fun _ => BuildState.Binding schema s) :
    (reducedSchema catalogue o schema).Ensures cause a fun reduced a' =>
      Attended cause a' ∧ ∃ b, bindSchema catalogue o schema a.space a.interrupt = (.ok (), b) ∧
        reduced = b.reduced ∧ a'.space = b.space ∧ BuildState.Binding schema s b := by
  have hgiven : a.buildInterrupt.getD a.interrupt = a.interrupt := by rw [h.shared]; rfl
  refine .get_bind ?_
  dsimp only
  rw [hgiven]
  rcases hbind with ⟨hasked, hstop⟩ | ⟨u, b, hrun, hcalm, hbound⟩
  · cases hbound : bindSchema catalogue o schema a.space a.interrupt with
    | mk result b =>
      obtain rfl : result = .error .interrupted := (congrArg Prod.fst hbound).symm.trans hstop
      exact ⟨h.asked hasked, rfl⟩
  · have hok : bindSchema catalogue o schema a.space a.interrupt = (.ok (), b) := hrun
    rw [hok, h.shared]
    exact ⟨⟨rfl, fun hnever => h.asked (hnever ∘ hcalm)⟩, b, rfl, rfl, rfl, hbound⟩

/-- Samples are taken from a sampler that answers. -/
theorem ensures_takeSamples {requests : List SampleRequest} (h : Attended cause a)
    (hanswers : sampler.Answers schema requests) (hcut : sampler.CanBeCut schema requests)
    (hstop : (sampler schema requests).stopRequested = true → cause) :
    (takeSamples sampler schema requests).Ensures cause a fun samples a' =>
      Attended cause a' ∧ a'.space = a.space ∧ samples.Answer requests ∧
        samples.Cuttable requests := by
  obtain ⟨samples, hresult, hanswer⟩ := hanswers
  have hnote : (sampler schema requests).stopRequested = true →
      Attended cause (noteStop a) ∧ (noteStop a).space = a.space := by
    intro hasked
    have heq : noteStop a = { a with interrupt := .requested } := by simp [noteStop, h.shared]
    rw [heq]
    exact ⟨⟨h.shared, fun _ => hstop hasked⟩, rfl⟩
  unfold takeSamples
  dsimp only
  rw [hresult]
  split
  · rename_i hasked
    obtain ⟨h₁, hspace⟩ := hnote hasked
    exact .change_bind (.change_bind (.ret ⟨h₁.of_eq rfl rfl, hspace, hanswer, hcut _ hresult⟩))
  · exact .change_bind (.ret ⟨h.of_eq rfl rfl, rfl, hanswer, hcut _ hresult⟩)

/-- A column of the kind wanted that can be cut is cut into partiles. -/
theorem exists_levelsFor {samples : Samples} {requests : List SampleRequest} {r : SampleRequest}
    (hanswer : samples.Answer requests) (hcut : samples.Cuttable requests) (hr : r ∈ requests) :
    ∃ levels, levelsFor? samples r = some (.ok levels) := by
  obtain ⟨column, hcolumn, hkind⟩ := hanswer r hr
  unfold levelsFor?
  rw [hcolumn, ← hkind]
  cases column with
  | continuous values =>
    obtain ⟨levels, hlevels⟩ := Option.isSome_iff_exists.mp (hcut r hr values hcolumn)
    exact ⟨levels, congrArg (Option.map Except.ok) hlevels⟩
  | symbol values => exact ⟨_, rfl⟩

theorem ensures_analyseDimension {samples : Samples} {r : SampleRequest} {s : Space} (rank : Nat)
    (h : Attended cause a ∧ s.SameCuts a.space)
    (hr : ∃ levels, levelsFor? samples r = some (.ok levels)) :
    (analyseDimension samples rank r).Ensures cause a fun _ a' =>
      Attended cause a' ∧ s.SameCuts a'.space := by
  obtain ⟨levels, hlevels⟩ := hr
  refine h.1.checkInterrupt_bind fun h₁ => ?_
  rw [hlevels]
  have hcuts : a.space.SameCuts
      (a.space.modifyDimension rank fun d => { d with levels := some levels }) :=
    ⟨Space.frame_modifyDimension a.space rank fun _ => ⟨rfl, rfl⟩, rfl⟩
  exact .change_bind (.ret ⟨h₁.of_eq rfl rfl, h.2.trans hcuts⟩)

/-- The dimensions in use are asked for once they are bound. -/
theorem exists_requests {s : Space} {interrupt : Interrupt} {b : BuildState}
    (h : bindSchema catalogue o schema s interrupt = (.ok (), b)) :
    ∃ requests, (s.usedDimensions.filterMap fun rank => b.space.dimensions[rank]?).mapM requestFor =
      .ok requests := by
  refine exists_mapM fun d hd => ?_
  obtain ⟨k, hk, hd⟩ := List.mem_filterMap.mp hd
  have hused : s.clearLinks.Used k := by
    obtain ⟨d₀, hd₀, huses⟩ := Space.mem_usedDimensions.mp hk
    exact ⟨{ d₀ with selectionField := none }, by simp [Space.clearLinks, hd₀], huses⟩
  obtain ⟨name, hname, -⟩ := (Build.linked_bindDimensions h).2 k hused d hd
  exact ⟨⟨d.className, name, d.kind⟩, by rw [requestFor, hname]⟩

/-- The dimensions in use are analysed where they can be bound and the sampler answers.  What the
space is cut along stays, and no dimension is linked any more. -/
theorem ensures_analyseDimensions (h : Attended cause a)
    (hclasses : ∀ d ∈ a.space.dimensions, d.className ∈ a.analyser.classes)
    (hbind : (Build.bindDimensions o).Ensures
      (.start catalogue o schema a.space a.interrupt.look.2)
      fun _ => BuildState.Binding schema a.space.clearLinks)
    (hsampler : ∀ b requests,
      bindSchema catalogue o schema a.space a.interrupt.look.2 = (.ok (), b) →
      (a.space.usedDimensions.filterMap fun rank => b.space.dimensions[rank]?).mapM requestFor =
        .ok requests →
      sampler.Answers b.reduced requests ∧ sampler.CanBeCut b.reduced requests ∧
        ((sampler b.reduced requests).stopRequested = true → cause)) :
    (analyseDimensions catalogue o schema sampler a.space.usedDimensions).Ensures cause a
      fun _ a' => Attended cause a' ∧ a.space.SameCuts a'.space ∧
        ∀ d ∈ a'.space.dimensions, d.selectionField = none := by
  have hchecked : (a.space.usedDimensions.filterMap fun rank => a.space.dimensions[rank]?).forM
      (checkClass a.analyser.classes) = .ok () := by
    refine forM_eq_ok.mpr fun d hd => ?_
    obtain ⟨rank, -, hd⟩ := List.mem_filterMap.mp hd
    exact if_pos (List.contains_iff_mem.mpr (hclasses d (List.mem_of_getElem? hd)))
  refine .get_bind (.given_bind hchecked (h.checkInterrupt_bind fun h₁ => ?_))
  refine .bind_of (ensures_reducedSchema h₁ hbind)
    fun reduced a₂ ⟨h₂, b, hb, hreduced, hspace₂, hbound⟩ => ?_
  subst hreduced
  refine .change_bind (.get_bind ?_)
  dsimp only
  rw [hspace₂]
  obtain ⟨requests, hrequests⟩ := exists_requests hb
  obtain ⟨hanswers, hcut, hstop⟩ := hsampler b requests hb hrequests
  refine .given_bind hrequests (Attended.checkInterrupt_bind (h₂.of_eq rfl rfl) fun h₃ => ?_)
  refine .bind_of (ensures_takeSamples h₃ hanswers hcut hstop)
    fun samples a₄ ⟨h₄, hspace₄, hanswer, hcuttable⟩ => ?_
  have hcuts : a.space.SameCuts a₄.space := by
    rw [show a₄.space = b.space from hspace₄]
    exact (Space.sameCuts_clearLinks a.space).trans hbound.levels.toSameCuts
  refine .change_bind (.bind_of (.forM
    (I := fun a' => Attended cause a' ∧ a.space.SameCuts a'.space) ?_
    ⟨h₄.of_eq rfl rfl, hcuts⟩) fun _ a₅ ⟨h₅, hcuts₅⟩ => ?_)
  · rintro ⟨rank, r⟩ hmem a' h'
    exact ensures_analyseDimension rank h'
      (exists_levelsFor hanswer hcuttable (List.of_mem_zip hmem).2)
  · refine .change_bind (.ret
      ⟨h₅.of_eq rfl rfl, hcuts₅.trans (Space.sameCuts_clearLinks _), fun d hd => ?_⟩)
    obtain ⟨d₀, -, rfl⟩ := List.mem_map.mp hd
    rfl

/-- An analysis that is ensured is completed so. -/
theorem complete?_of_ensures {Q : Unit → AnalysisRun → Prop}
    (h : (analyseRules catalogue o schema sampler rules).Ensures cause a Q) :
    (cause ∧ ∃ a', complete? catalogue o schema sampler rules a =
        some (.error .interrupted, a')) ∨
      ∃ a', complete? catalogue o schema sampler rules a =
        some (.ok (), { a' with analyser := { a'.analyser with state := .partitionsComputed } }) ∧
          Q () a' := by
  unfold Ensures Ends at h
  unfold complete?
  cases hrun : (analyseRules catalogue o schema sampler rules).run a with
  | none =>
    rw [hrun] at h
    cases h
  | some ending =>
    obtain ⟨result, a'⟩ := ending
    rw [hrun] at h
    cases result with
    | ok u => exact .inr ⟨a', rfl, h⟩
    | error e =>
      obtain ⟨hcause, rfl⟩ := h
      exact .inl ⟨hcause, _, rfl⟩

end Analysis

namespace Request

variable {q : Request} {catalogue : Catalogue} {o : Options} {sampler : Sampler}
variable {interrupt : Interrupt} {ties : TieBreaks}

/-! ## Requests -/

/-- A cause for a request to be stopped: a request to stop, made from without or while samples were
taken. -/
def StopAsked (q : Request) (sampler : Sampler) (o : Options) (interrupt : Interrupt) : Prop :=
  interrupt ≠ .never ∨ ∃ schema requests, q.Asks .default o interrupt schema requests ∧
    (sampler schema requests).stopRequested = true

/-- The rules of dimensions in use name located parts, if former analyses found these. -/
theorem WellPosed.located (h : q.WellPosed o) (hfinds : q.FindsParts) {s : Space}
    (hs : s = q.space.countUses q.rules) {k : Nat} (hk : s.clearLinks.Used k) {d : Dimension}
    (hd : s.clearLinks.dimensions[k]? = some d) {r : Rule} (hr : d.origin = .rule r) :
    r.PartsIn s.clearLinks.Located := by
  have hlevels : q.space.clearLinks.SameLevels s.clearLinks :=
    (Space.SameLevels.clearLinks q.space).symm.trans ((hs ▸ .of_reset
      (Space.resetUses_countUses q.space q.rules) : q.space.SameLevels s).trans (.clearLinks s))
  have hcuts := Space.sameCuts_clearLinks q.space
  obtain ⟨d₁, hd₁, huses⟩ := hk
  obtain rfl : d = d₁ := Option.some.inj (hd.symm.trans hd₁)
  have hresolves : q.space.clearLinks.resolves r = true := by
    obtain ⟨d₀, hd₀, rfl⟩ := List.mem_map.mp (List.mem_of_getElem? hd)
    exact hfinds d₀ (hs ▸ hd₀) huses r hr
  obtain ⟨d₀, hd₀, -, horigin, -⟩ := hlevels.symm.dimension hd
  have hshaped := (h.wellShaped hcuts).named d₀ (List.mem_of_getElem? hd₀) r (horigin.trans hr)
  have hfree : ∀ d ∈ q.space.clearLinks.dimensions, d.selectionField = none := by
    intro d hd
    obtain ⟨_, -, rfl⟩ := List.mem_map.mp hd
    rfl
  exact fun part hpart => (Space.located_of_resolves (h.wellFounded hcuts) (h.wellShaped hcuts)
    hfree hshaped hresolves part hpart).of_sameLevels hlevels

/-- The dimensions that the candidates of a request use can be bound. -/
theorem WellPosed.ensures_bindDimensions (h : q.WellPosed o) (hfinds : q.FindsParts) {s : Space}
    (hs : s = q.space.countUses q.rules) (interrupt : Interrupt) :
    (Build.bindDimensions o).Ensures (.start .default o q.schema s interrupt)
      fun _ => BuildState.Binding q.schema s.clearLinks := by
  have hcuts : q.space.SameCuts s :=
    hs ▸ (Space.SameLevels.of_reset (Space.resetUses_countUses q.space q.rules)).toSameCuts
  exact Build.ensures_bindDimensions (BuildState.steady_start .default o interrupt h.compile
    (h.dimensionRules.of_sameCuts hcuts) fun p hp => h.class_of_partition hcuts hp)
    (Space.unlinked_clearLinks s) fun k hk d r hd hr => h.located hfinds hs hk hd hr

/-- The analysis of a request that fits its schema succeeds or is stopped. -/
theorem WellPosed.ensures_analyse (h : q.WellPosed o) (hfinds : q.FindsParts)
    (hsampler : ∀ schema requests, q.Asks .default o interrupt schema requests →
      sampler.Answers schema requests ∧ sampler.CanBeCut schema requests) (ties : TieBreaks) :
    (Analysis.analyseRules .default o q.schema sampler (q.ordered ties)).Ensures
      (q.StopAsked sampler o interrupt) (q.analysisStart (q.registry .default) interrupt)
      fun _ a => Analysis.Attended (q.StopAsked sampler o interrupt) a ∧ q.space.SameCuts a.space ∧
        ∀ r ∈ q.ordered ties, a.space.resolves r = true → r.PartsIn a.space.Located := by
  have hcount := (sameRules_ordered q ties).countUses q.space
  have hcuts : q.space.SameCuts (q.space.countUses (q.ordered ties)) :=
    (Space.SameLevels.of_reset (Space.resetUses_countUses q.space (q.ordered ties))).toSameCuts
  have hattended : Analysis.Attended (q.StopAsked sampler o interrupt)
      { q.analysisStart (q.registry .default) interrupt with
        space := q.space.countUses (q.ordered ties) } := ⟨rfl, .inl⟩
  unfold Analysis.analyseRules
  refine .change_bind (.get_bind ?_)
  split
  · rename_i hunused
    have hempty : (q.space.countUses (q.ordered ties)).usedDimensions = [] := hunused
    refine .ret ⟨hattended, hcuts, fun r hr _ part hpart =>
      Space.located_of_uncut (h.shaped hcuts hr part hpart) fun p hp a ha => ?_⟩
    have hused := (Space.usesClosed_countUses (h.wellFounded (.refl _)) (q.ordered ties)).named r hr
      part hpart p hp a ha
    rw [← Space.mem_usedDimensions, hempty] at hused
    cases hused
  · refine (Analysis.ensures_analyseDimensions hattended (fun d hd => ?_)
      (h.ensures_bindDimensions hfinds hcount _) fun b requests hb hrequests => ?_).imp
        fun _ a' ⟨hattended', hcuts', hfree⟩ => ?_
    · have hregistry : (q.registry .default).classes.map (·.className) =
          q.schema.entities.map (·.name) :=
        (BuildState.accounted_start .default o q.space interrupt h.compile).classes
      show d.className ∈ (q.registry .default).classes.map (·.className)
      exact hregistry ▸ h.class_of_dimension hcuts hd
    · have hasks : q.Asks .default o interrupt b.reduced requests :=
        ⟨b, by rw [← hcount]; exact hb, rfl, by rw [← hcount]; exact hrequests⟩
      obtain ⟨hanswers, hcut⟩ := hsampler _ _ hasks
      exact ⟨hanswers, hcut, fun hstop => .inr ⟨_, _, hasks, hstop⟩⟩
    · have hcuts₁ := hcuts.trans hcuts'
      exact ⟨hattended', hcuts₁, fun r hr hresolves => Space.located_of_resolves
        (h.wellFounded hcuts₁) (h.wellShaped hcuts₁) hfree (h.shaped hcuts₁ hr) hresolves⟩

/-- The candidates that an analysis finds the parts of are built, or the build is stopped. -/
theorem WellPosed.ends_construct {cause : Prop} {a : AnalysisRun} (h : q.WellPosed o)
    (hplain : Mode.ofOptions o = .sparse → q.schema.Apart) (hattended : Analysis.Attended cause a)
    (hcuts : q.space.SameCuts a.space)
    (hlocated : ∀ r ∈ q.ordered ties, a.space.resolves r = true → r.PartsIn a.space.Located) :
    (∃ out, q.construct .default o (q.ordered ties) a = .ok out) ∨
      q.construct .default o (q.ordered ties) a = .error .interrupted ∧ cause := by
  have hfeasible : ∀ r ∈ (q.ordered ties).filter a.space.resolves, r.Feasible a.space q.schema := by
    intro r hr
    obtain ⟨hmem, hresolves⟩ := List.mem_filter.mp hr
    exact ⟨h.grounded hcuts hmem, hlocated r hmem hresolves⟩
  have hbuild : (Build.complete o ((q.ordered ties).filter a.space.resolves)).Ensures
      (.start .default o q.schema a.space a.interrupt) fun _ b => b.schema.compile = .ok () :=
    ensures_runBuild h.compile (h.wellFounded hcuts) (h.dimensionRules.of_sameCuts hcuts)
      (fun p hp => h.class_of_partition hcuts hp) hplain hfeasible
  unfold construct
  dsimp only
  rcases hbuild with ⟨hasked, hstop⟩ | ⟨u, b, hrun, -⟩
  · refine .inr ⟨?_, hattended.asked hasked⟩
    cases hb : runBuild .default o q.schema a.space ((q.ordered ties).filter a.space.resolves)
        a.interrupt with
    | mk x b =>
      obtain rfl : x = .error .interrupted := (congrArg Prod.fst hb).symm.trans hstop
      rfl
  · have hb : runBuild .default o q.schema a.space ((q.ordered ties).filter a.space.resolves)
        a.interrupt = (.ok (), b) := hrun
    exact .inl ⟨_, by rw [hb]⟩

/-- A request that makes sense is analysed, and then its candidates are built in order. -/
theorem run?_of_check (h : q.check o = .ok ()) :
    q.run? catalogue ties sampler o interrupt =
      (q.analyse? catalogue sampler o (q.ordered ties)
        (q.analysisStart (q.registry catalogue) interrupt)).map fun analysed =>
          analysed.bind (q.construct catalogue o (q.ordered ties)) := by
  have haccept : q.accept ties o = .ok (q.ordered ties) := by
    rw [accept, h]
    rfl
  rw [run?, haccept]

/-- A request that fits its schema succeeds, or is stopped because that was asked for, however ties
are broken: if the partiles of former analyses are there for the parts that the rules of dimensions
in use select, no field has both a formula and a block where statistics go into blocks, and the
sampler answers what it is asked with columns that can be cut. -/
theorem run_succeeds_or_stops (h : q.WellPosed o) (hfinds : q.FindsParts)
    (hplain : Mode.ofOptions o = .sparse → q.schema.Apart)
    (hsampler : ∀ schema requests, q.Asks .default o interrupt schema requests →
      sampler.Answers schema requests)
    (hcut : ∀ schema requests, q.Asks .default o interrupt schema requests →
      sampler.CanBeCut schema requests) (ties : TieBreaks) :
    (∃ out, q.run? .default ties sampler o interrupt = some (.ok out)) ∨
      q.run? .default ties sampler o interrupt = some (.error .interrupted) ∧
        q.StopAsked sampler o interrupt := by
  rw [run?_of_check h.checked, analyse?]
  rcases Analysis.complete?_of_ensures (h.ensures_analyse hfinds
    (fun schema requests hasks => ⟨hsampler schema requests hasks, hcut schema requests hasks⟩)
      ties) with
    ⟨hcause, a, hstop⟩ | ⟨a, hcomplete, hattended, hcuts, hlocated⟩
  · rw [hstop]
    exact .inr ⟨rfl, hcause⟩
  · rw [hcomplete]
    rcases h.ends_construct hplain (hattended.of_eq rfl rfl) hcuts hlocated with
      ⟨out, hout⟩ | ⟨hstop, hcause⟩
    · exact .inl ⟨out, congrArg some hout⟩
    · exact .inr ⟨congrArg some hstop, hcause⟩

end Request

/-! ## Customers by their orders of cheap items -/

theorem eq_error_of_isError {ε α : Type} [DecidableEq ε] {x : Except ε α} {e : ε}
    (h : (match x with | .ok _ => false | .error e' => e' == e) = true) : x = .error e := by
  cases x with
  | ok => cases h
  | error e' => rw [beq_iff_eq.mp h]

theorem eq_some_error_of_isError {ε α : Type} [DecidableEq ε] {x : Option (Except ε α)} {e : ε}
    (h : (match x with | some (.error e') => e' == e | _ => false) = true) :
    x = some (.error e) := by
  split at h
  · rw [beq_iff_eq.mp h]
  · cases h

namespace Baskets

def items : FieldType := .objectArray "Items"

def orders : FieldType := .objectArray "Orders"

def schema : Schema :=
  ⟨[ ⟨"Customer", [.native "Orders" orders], []⟩,
     ⟨"Orders", [.native "Items" items], []⟩,
     ⟨"Items", [.native "price" .continuous], []⟩ ]⟩

/-- The number of records of a table in the first part of a partition. -/
def count (className table : String) (type : FieldType) (partition : Nat) : Rule :=
  ⟨.tableCount, className,
    [.rule ⟨.tableSelection, className, [.field table type, .part ⟨partition, [0]⟩], 0, 0⟩], 0, 0⟩

def price (levels : Option Levels) : Dimension :=
  ⟨"Items", .field "price" .continuous, 0, levels, none⟩

def cheapItems : Dimension := ⟨"Orders", .rule (count "Orders" "Items" items 0), 0, none, none⟩

/-- The items, cut by price. -/
def byPrice (parts : List (List Nat × PartEntry)) : Partition :=
  ⟨"Items", "Orders", "Items", [⟨0, 2⟩], parts, 0, none, none, [.none]⟩

/-- The orders, cut by the number of their cheap items. -/
def byCheapItems (parts : List (List Nat × PartEntry)) : Partition :=
  ⟨"Orders", "Customer", "Orders", [⟨1, 2⟩], parts, 0, none, none, [.none]⟩

/-- The space that former analyses left some levels of prices in. -/
def space (levels : Option Levels) : Space :=
  ⟨[price levels, cheapItems], [byPrice [([0], ⟨0, 0⟩)], byCheapItems [([0], ⟨0, 0⟩)]]⟩

/-- Two partiles of prices. -/
def halves : Levels := [⟨2, [.interval Scalar.missing 1.5 0, .interval 1.5 Scalar.maxValue 1]⟩]

/-- The number of orders of a customer with few cheap items. -/
def request (levels : Option Levels) : Request :=
  ⟨schema, space levels, [count "Customer" "Orders" orders 1]⟩

/-- Answers whatever is asked with one column. -/
def sampler (column : Column) : Sampler := fun _ requests =>
  ⟨.ok ⟨2, requests.map fun r => (⟨r.className, r.field⟩, column)⟩, false⟩

def numbers : Column := .continuous [1, 1, 1, 1, 2, 2, 2, 2]

theorem cuttable_numbers (n : Nat) : Levels.cuttable [1, 1, 1, 1, 2, 2, 2, 2] n = true := by
  have hcase : ∀ x ∈ ([1, 1, 1, 1, 2, 2, 2, 2] : List Float), x = 1 ∨ x = 2 := by simp
  exact Levels.cuttable_of_farApart fun x hx y hy =>
    Partile.farApart_of_one_or_two (hcase x hx) (hcase y hy)

/-- Each request that is answered gets the one column. -/
theorem column_of_answer {column : Column} {requests : List SampleRequest} {r : SampleRequest}
    (hr : r ∈ requests) :
    Samples.column? ⟨2, requests.map fun r => (⟨r.className, r.field⟩, column)⟩
      ⟨r.className, r.field⟩ = some column := by
  unfold Samples.column?
  induction requests with
  | nil => cases hr
  | cons x rest ih =>
    rw [List.map_cons, List.lookup_cons]
    cases hx : (⟨r.className, r.field⟩ : FieldPath) == ⟨x.className, x.field⟩ with
    | true => rfl
    | false =>
      rcases List.mem_cons.mp hr with rfl | hr
      · simp at hx
      · exact ih hr

theorem sampler_answers {column : Column} {requests : List SampleRequest} (s : Schema)
    (h : ∀ r ∈ requests, r.kind = column.kind) : (sampler column).Answers s requests :=
  ⟨_, rfl, fun r hr => ⟨column, column_of_answer hr, (h r hr).symm⟩⟩

theorem sampler_canBeCut {column : Column} {requests : List SampleRequest} (s : Schema)
    (h : ∀ values, column = .continuous values → Levels.cuttable values 2 = true) :
    (sampler column).CanBeCut s requests := by
  intro samples hsamples r hr values hvalues
  cases hsamples
  exact h values (Option.some.inj ((column_of_answer hr).symm.trans hvalues))

theorem built_space : (space none).Built := by
  have h₀ : Space.empty.addFieldDimension "Items" "price" .continuous =
      .ok (0, ⟨[price none], []⟩) := rfl
  have h₁ : Space.addPartition ⟨[price none], []⟩ "Orders" "Items" items [⟨0, 2⟩] =
      .ok (0, ⟨[price none], [byPrice []]⟩) := rfl
  have h₂ : Space.addPart ⟨[price none], [byPrice []]⟩ 0 [0] 0 =
      .ok (⟨0, [0]⟩, ⟨[price none], [byPrice [([0], ⟨0, 0⟩)]]⟩) := rfl
  have h₃ : Space.addRuleDimension ⟨[price none], [byPrice [([0], ⟨0, 0⟩)]]⟩
      (count "Orders" "Items" items 0) =
        .ok (1, ⟨[price none, cheapItems], [byPrice [([0], ⟨0, 0⟩)]]⟩) := rfl
  have h₄ : Space.addPartition ⟨[price none, cheapItems], [byPrice [([0], ⟨0, 0⟩)]]⟩ "Customer"
      "Orders" orders [⟨1, 2⟩] =
        .ok (1, ⟨[price none, cheapItems], [byPrice [([0], ⟨0, 0⟩)], byCheapItems []]⟩) := rfl
  have h₅ : Space.addPart ⟨[price none, cheapItems],
      [byPrice [([0], ⟨0, 0⟩)], byCheapItems []]⟩ 1 [0] 0 = .ok (⟨1, [0]⟩, space none) := rfl
  refine .part (.partition (.ruleDimension (.part (.partition (.fieldDimension .empty h₀) h₁) h₂)
    ?_ h₃) h₄) h₅
  intro part hpart
  obtain rfl : part = ⟨0, [0]⟩ := List.mem_singleton.mp hpart
  exact ⟨_, rfl⟩

theorem grounded_count {C table : String} {type : FieldType} {partition : Nat} {s : Space}
    {schema : Schema} (hcheck : (count C table type partition).check s = .ok ())
    (hfield : schema.fieldType? C table = some type) :
    (count C table type partition).Grounded s schema where
  named := ⟨by decide +kernel, ⟨by decide +kernel, trivial⟩, trivial⟩
  checked := hcheck
  fields := ⟨⟨⟨C, rfl, hfield⟩, trivial⟩, trivial⟩

/-- The request fits its schema, whatever former analyses left. -/
theorem wellPosed_request (levels : Option Levels) : (request levels).WellPosed .default := by
  have hitems : (count "Orders" "Items" items 0).Grounded (space levels) schema :=
    grounded_count rfl rfl
  have horders : (count "Customer" "Orders" orders 1).Grounded (space levels) schema :=
    grounded_count rfl rfl
  refine ⟨rfl, ⟨space none, built_space, rfl, rfl⟩, ?_, ?_, ?_, ?_⟩
  · intro r hr
    obtain rfl := List.mem_singleton.mp hr
    exact horders
  · intro d hd r hr
    simp only [request, space, List.mem_cons, List.not_mem_nil, or_false] at hd
    rcases hd with rfl | rfl <;> cases hr
    exact hitems
  · intro d hd name type ho
    simp only [request, space, List.mem_cons, List.not_mem_nil, or_false] at hd
    rcases hd with rfl | rfl <;> cases ho
    rfl
  · intro p hp
    simp only [request, space, List.mem_cons, List.not_mem_nil, or_false] at hp
    rcases hp with rfl | rfl <;> rfl

/-- What kinds a request asks for is known from the state in which its dimensions are bound. -/
theorem kind_of_asked (q : Request) (o : Options) (kind : Kind)
    (hkinds : (((q.space.countUses q.rules).usedDimensions.filterMap fun rank =>
      (bindSchema .default o q.schema (q.space.countUses q.rules)
        .never).2.space.dimensions[rank]?).mapM Analysis.requestFor).toOption.all
          (·.all (·.kind == kind)) = true) {s : Schema} {requests : List SampleRequest}
    (h : q.Asks .default o .never s requests) : ∀ r ∈ requests, r.kind = kind := by
  obtain ⟨b, hb, -, hrequests⟩ := h
  rw [show bindSchema .default o q.schema (q.space.countUses q.rules) .never = (.ok (), b) from hb,
    hrequests] at hkinds
  exact fun r hr => beq_iff_eq.mp (List.all_eq_true.mp hkinds r hr)

end Baskets

open Baskets in
/-- With two partiles of prices at hand the request succeeds, however ties are broken. -/
theorem baskets_succeed : (request (some halves)).WellPosed .default ∧
    (request (some halves)).FindsParts ∧ ∀ ties, ∃ out,
      (request (some halves)).run? .default ties (sampler numbers) .default .never =
        some (.ok out) := by
  have hfinds : (request (some halves)).FindsParts := by
    refine Request.findsParts_of_all fun d hd r hr => ?_
    simp only [request, space, List.mem_cons, List.not_mem_nil, or_false] at hd
    rcases hd with rfl | rfl <;> cases hr
    decide +kernel
  refine ⟨wellPosed_request _, hfinds, fun ties => ?_⟩
  have hanswers : ∀ s requests, (request (some halves)).Asks .default .default .never s requests →
      (sampler numbers).Answers s requests := fun s _ h =>
    sampler_answers s (kind_of_asked _ _ .continuous (by decide +kernel) h)
  have hcut : ∀ s requests, (request (some halves)).Asks .default .default .never s requests →
      (sampler numbers).CanBeCut s requests := fun s _ _ =>
    sampler_canBeCut s fun values hvalues => Column.continuous.inj hvalues ▸ cuttable_numbers 2
  rcases Request.run_succeeds_or_stops (wellPosed_request (some halves)) hfinds
    (fun hsparse => by cases hsparse) hanswers hcut ties with
    hout | ⟨-, hasked | ⟨s, requests, -, hstop⟩⟩
  · exact hout
  · exact absurd rfl hasked
  · cases hstop

namespace Kinds

def partition : FieldType := .structured "Partition"

/-- Orders with the cut of their items by kind, a field that has a formula and is in a block. -/
def schema : Schema :=
  ⟨[ ⟨"Orders",
       [.native "Items" Baskets.items,
         { Field.member "cut" partition "cuts" 1 with
           formula := some ⟨"Partition", [.ofFormula ⟨"ValueGroups",
             [.ofFormula ⟨"ValueGroup", [.symbol "a"]⟩,
              .ofFormula ⟨"ValueGroup", [.symbol "b", .symbol "*"]⟩]⟩]⟩ },
         .member "other cut" partition "cuts" 2],
       [⟨"cuts", ⟨"Cuts", [.field "Items"]⟩⟩]⟩,
     ⟨"Items", [.native "kind" .symbol], []⟩ ]⟩

def kind (uses : Nat) (levels : Option Levels) : Dimension :=
  ⟨"Items", .field "kind" .symbol, uses, levels, none⟩

def byKind (uses : Nat) (parts : List (List Nat × PartEntry)) : Partition :=
  ⟨"Items", "Orders", "Items", [⟨0, 2⟩], parts, uses, none, none, [.none]⟩

/-- The items cut by kind, and how often the first part is used. -/
def space (uses : Nat) (levels : Option Levels) : Space :=
  ⟨[kind uses levels], [byKind uses [([0], ⟨uses, 0⟩)]]⟩

/-- The number of items of the first kind. -/
def count : Rule := Baskets.count "Orders" "Items" Baskets.items 0

def request : Request := ⟨schema, space 0 none, [count]⟩

def sparse : Options := { Options.default with sparse := true }

def values : List String := ["a", "a", "a", "a", "b", "b", "b", "b"]

/-- Two kinds. -/
def groups : Levels := [⟨2, [.value "a" 0 [], .value "b" 1 ["a"]]⟩]

theorem levels_of_values : Levels.ofSymbol values 2 = groups := by
  have hsorted : values.mergeSort Partile.Frequencies.valueLE = values :=
    List.mergeSort_of_pairwise (by decide +kernel)
  have hruns : Partile.Frequencies.runs values = [("a", 4), ("b", 4)] := by decide +kernel
  have hentries : [("a", 4), ("b", 4)].mergeSort Partile.Frequencies.entryLE =
      [("a", 4), ("b", 4)] := List.mergeSort_of_pairwise (by decide +kernel)
  have hfrequencies : Partile.Frequencies.ofSamples values = ⟨["a", "b"], [4, 4]⟩ := by
    rw [Partile.Frequencies.ofSamples, hsorted, hruns, hentries]
    rfl
  rw [Levels.ofSymbol, hfrequencies]
  decide +kernel

theorem wellPosed_request : request.WellPosed sparse := by
  have hbuilt : (space 0 none).Built := by
    have h₀ : Space.empty.addFieldDimension "Items" "kind" .symbol =
        .ok (0, ⟨[kind 0 none], []⟩) := rfl
    have h₁ : Space.addPartition ⟨[kind 0 none], []⟩ "Orders" "Items" Baskets.items [⟨0, 2⟩] =
        .ok (0, ⟨[kind 0 none], [byKind 0 []]⟩) := rfl
    have h₂ : Space.addPart ⟨[kind 0 none], [byKind 0 []]⟩ 0 [0] 0 =
        .ok (⟨0, [0]⟩, space 0 none) := rfl
    exact .part (.partition (.fieldDimension .empty h₀) h₁) h₂
  refine ⟨rfl, ⟨_, hbuilt, .refl _⟩, ?_, ?_, ?_, ?_⟩
  · intro r hr
    obtain rfl := List.mem_singleton.mp hr
    exact Baskets.grounded_count rfl rfl
  · intro d hd r hr
    obtain rfl := List.mem_singleton.mp hd
    cases hr
  · intro d hd name type ho
    obtain rfl := List.mem_singleton.mp hd
    cases ho
    rfl
  · intro p hp
    obtain rfl := List.mem_singleton.mp hp
    rfl

/-- The analysis of the request finds the kinds. -/
theorem complete?_request : ∃ analyser, Analysis.complete? .default sparse schema
    (Baskets.sampler (.symbol values)) [count]
      (request.analysisStart (request.registry .default) .never) =
        some (.ok (), ⟨analyser, space 1 (some groups), .never, none⟩) := by
  rw [← levels_of_values]
  exact ⟨_, rfl⟩

/-- The cut is moved out of its block. -/
theorem run?_request : request.run? .default .listed (Baskets.sampler (.symbol values)) sparse
    .never = some (.error (.invalidSchema (.entity "Orders" (.scatteredBlock "cuts")))) := by
  obtain ⟨analyser, hcomplete⟩ := complete?_request
  have hordered : request.ordered .listed = [count] := List.mergeSort_singleton _
  have hkept : [count].filter (space 1 (some groups)).resolves = [count] :=
    List.filter_eq_self.mpr fun r hr => by
      obtain rfl := List.mem_singleton.mp hr
      decide +kernel
  have hbuild : (runBuild .default sparse schema (space 1 (some groups)) [count] .never).1 =
      .error (.invalidSchema (.entity "Orders" (.scatteredBlock "cuts"))) :=
    eq_error_of_isError (by decide +kernel)
  have hconstruct : ∀ analyser, request.construct .default sparse [count]
      ⟨analyser, space 1 (some groups), .never, none⟩ =
        .error (.invalidSchema (.entity "Orders" (.scatteredBlock "cuts"))) := by
    intro analyser
    unfold Request.construct
    dsimp only
    rw [hkept, show request.schema = schema from rfl]
    cases hrun : runBuild .default sparse schema (space 1 (some groups)) [count] .never with
    | mk x b =>
      rw [hrun] at hbuild
      obtain rfl : x = _ := hbuild
      rfl
  rw [Request.run?_of_check (eq_ok_of_isOk (by decide +kernel)), hordered, Request.analyse?,
    show request.schema = schema from rfl, hcomplete]
  simp only [Option.map_some, Except.bind, hconstruct]

end Kinds

namespace Baskets

/-- The number of items in the first part, cut by price. -/
def priceRequest : Request :=
  ⟨schema, ⟨[price none], [byPrice [([0], ⟨0, 0⟩)]]⟩, [count "Orders" "Items" items 0]⟩

def adjacent : Column := .continuous Partile.closeSamples

theorem wellPosed_priceRequest : priceRequest.WellPosed .default := by
  have hbuilt : priceRequest.space.Built := by
    have h₀ : Space.empty.addFieldDimension "Items" "price" .continuous =
        .ok (0, ⟨[price none], []⟩) := rfl
    have h₁ : Space.addPartition ⟨[price none], []⟩ "Orders" "Items" items [⟨0, 2⟩] =
        .ok (0, ⟨[price none], [byPrice []]⟩) := rfl
    have h₂ : Space.addPart ⟨[price none], [byPrice []]⟩ 0 [0] 0 =
        .ok (⟨0, [0]⟩, priceRequest.space) := rfl
    exact .part (.partition (.fieldDimension .empty h₀) h₁) h₂
  refine ⟨eq_ok_of_isOk (by decide +kernel), ⟨_, hbuilt, .refl _⟩, ?_, ?_, ?_, ?_⟩
  · intro r hr
    obtain rfl := List.mem_singleton.mp hr
    exact grounded_count rfl rfl
  · intro d hd r hr
    obtain rfl := List.mem_singleton.mp hd
    cases hr
  · intro d hd name type ho
    obtain rfl := List.mem_singleton.mp hd
    cases ho
    rfl
  · intro p hp
    obtain rfl := List.mem_singleton.mp hp
    rfl

theorem adjacent_answers (s : Schema) (requests : List SampleRequest)
    (h : priceRequest.Asks .default .default .never s requests) :
    (sampler adjacent).Answers s requests :=
  sampler_answers s (kind_of_asked _ _ .continuous (by decide +kernel) h)

/-- Where prices are adjacent doubles that no bound fits between, their analysis comes to no end. -/
theorem complete?_adjacent (h : Levels.ofContinuous? Partile.closeSamples 2 = none) :
    Analysis.complete? .default .default schema (sampler adjacent) priceRequest.rules
      (priceRequest.analysisStart (priceRequest.registry .default) .never) = none := by
  have hbind : bindSchema .default .default schema
      (priceRequest.space.countUses priceRequest.rules) .never = (.ok (), _) :=
    run_eq_of_isOk (by decide +kernel)
  have huncut : Analysis.levelsFor? ⟨2, [(⟨"Items", "price"⟩, adjacent)]⟩
      ⟨"Items", "price", .continuous⟩ = none := by
    show (Levels.ofContinuous? Partile.closeSamples 2).map Except.ok = none
    rw [h]
    rfl
  exact Analysis.complete?_of_uncut (r := ⟨"Items", "price", .continuous⟩) (l := []) rfl
    (by decide +kernel) hbind (by decide +kernel) (by decide +kernel) rfl huncut

end Baskets

/-- None of the conditions can be left out.  Without partiles of prices the first request breaches a
contract: orders are bound to the number of their cheap items before it is known which items are
cheap.  The second one ends in an invalid schema, for the cut of items, which is a field on its own
as well as a member, goes to the tail alone.  The third one, whose prices are adjacent doubles,
comes to no end, if the logarithm of their middle is not far off. -/
theorem requests_fail :
    ((Baskets.request none).WellPosed .default ∧
      (∀ s requests, (Baskets.request none).Asks .default .default .never s requests →
        (Baskets.sampler Baskets.numbers).Answers s requests) ∧
      (Baskets.request none).run? .default .listed (Baskets.sampler Baskets.numbers) .default
        .never = some (.error (.contract (.unanalysedPartile 0 2)))) ∧
    (Kinds.request.WellPosed Kinds.sparse ∧ Kinds.request.FindsParts ∧
      (∀ s requests, Kinds.request.Asks .default Kinds.sparse .never s requests →
        (Baskets.sampler (.symbol Kinds.values)).Answers s requests) ∧
      Kinds.request.run? .default .listed (Baskets.sampler (.symbol Kinds.values)) Kinds.sparse
        .never = some (.error (.invalidSchema (.entity "Orders" (.scatteredBlock "cuts"))))) ∧
    Baskets.priceRequest.WellPosed .default ∧ Baskets.priceRequest.FindsParts ∧
      (∀ s requests, Baskets.priceRequest.Asks .default .default .never s requests →
        (Baskets.sampler Baskets.adjacent).Answers s requests) ∧
      ∀ magnitude : ℤ, -100 ≤ magnitude → magnitude < 100 →
        magnitude = Scalar.floorInt32 (Float.log10 ((Partile.lowMean Partile.closeLower
          Partile.closeUpper + Partile.highMean Partile.closeLower Partile.closeUpper) / 2).abs) +
            1 →
        Baskets.priceRequest.run? .default .listed (Baskets.sampler Baskets.adjacent) .default
          .never = none := by
  refine ⟨⟨Baskets.wellPosed_request none, fun s _ h => ?_, ?_⟩,
    ⟨Kinds.wellPosed_request, ?_, fun s _ h => ?_, Kinds.run?_request⟩,
    Baskets.wellPosed_priceRequest, ?_, Baskets.adjacent_answers, ?_⟩
  · exact Baskets.sampler_answers s
      (Baskets.kind_of_asked _ _ .continuous (by decide +kernel) h)
  · exact eq_some_error_of_isError (by decide +kernel)
  · refine Request.findsParts_of_all fun d hd r hr => ?_
    obtain rfl := List.mem_singleton.mp hd
    cases hr
  · exact Baskets.sampler_answers s
      (Baskets.kind_of_asked _ _ .symbol (by decide +kernel) h)
  · refine Request.findsParts_of_all fun d hd r hr => ?_
    obtain rfl := List.mem_singleton.mp hd
    cases hr
  · intro magnitude hleast hmost hmagnitude
    have hordered : Baskets.priceRequest.ordered .listed = Baskets.priceRequest.rules :=
      List.mergeSort_singleton _
    rw [Request.run?_of_check Baskets.wellPosed_priceRequest.checked, hordered, Request.analyse?,
      show Baskets.priceRequest.schema = Baskets.schema from rfl,
      Baskets.complete?_adjacent (Partile.ofContinuous_closeSamples
        (Partile.readableMean_close hleast hmost hmagnitude))]
    rfl

end FeatureSynth
