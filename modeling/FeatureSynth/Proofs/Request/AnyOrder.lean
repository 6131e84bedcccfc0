/-
# Candidates in any order

A request lists its candidates in some order.  They are put in order of cost, and tie-breaks
only decide between candidates of equal cost.  So requests that list the same candidates
differ in tie-breaks, and in the order of candidates that tie.

An analysis does not see a difference, for it counts uses.  A build takes the candidates in
turn.  Where none of them tie, it takes them in one order, whatever the tie-breaks, and comes
to one outcome.  Where some do, their turns may come in another order; but they are
called after themselves, as long as no name is taken when they have theirs.
-/
import FeatureSynth.Proofs.Build.Agree
import FeatureSynth.Proofs.Build.FieldOrder
import FeatureSynth.Proofs.Build.SameNames
import FeatureSynth.Proofs.Request.Analysed
import FeatureSynth.Proofs.Space.Located
import FeatureSynth.Sample.Memory

namespace FeatureSynth

/-! ## Rules but for their tie-breaks -/

namespace Rule

variable {a b : Rule}

theorem Over.of_untied {ts : Catalogue} (h : a.untied = b.untied) (ha : a.Over ts) : b.Over ts := by
  obtain ⟨t, C, xs, cost, tie⟩ := a
  obtain ⟨u, D, ys, cost', tie'⟩ := b
  cases h
  exact ha

theorem signature_eq_of_untied (h : a.untied = b.untied) : a.signature = b.signature := by
  rw [← signature_untied, h, signature_untied]

theorem compareCost_untied (s : Space) (a b : Rule) :
    s.compareCost a.untied b.untied = s.compareCost a b := by
  cases a
  cases b
  rfl

end Rule

/-- The same rules, in any order and with any tie-breaks. -/
def SameRules (l l' : List Rule) : Prop := (l.map Rule.untied).Perm (l'.map Rule.untied)

namespace SameRules

variable {l l' : List Rule} {r : Rule}

protected theorem symm (h : SameRules l l') : SameRules l' l := List.Perm.symm h

theorem exists_mem (h : SameRules l l') (hr : r ∈ l) : ∃ r' ∈ l', r'.untied = r.untied :=
  List.mem_map.mp (h.mem_iff.mp (List.mem_map_of_mem hr))

theorem forall_over {ts : Catalogue} (h : SameRules l l') (hl : ∀ r ∈ l, r.Over ts) :
    ∀ r ∈ l', r.Over ts := by
  intro r hr
  obtain ⟨r', hr', heq⟩ := h.symm.exists_mem hr
  exact .of_untied heq (hl r' hr')

theorem forall_partsIn {P : Part → Prop} (h : SameRules l l') (hl : ∀ r ∈ l, r.PartsIn P) :
    ∀ r ∈ l', r.PartsIn P := by
  intro r hr part hpart
  obtain ⟨r', hr', heq⟩ := h.symm.exists_mem hr
  exact hl r' hr' part (by rwa [← Rule.parts_untied, heq, Rule.parts_untied])

/-- What resolves does so whatever its tie-break. -/
theorem map_untied_filter (s : Space) (l : List Rule) :
    (l.filter s.resolves).map Rule.untied = (l.map Rule.untied).filter s.resolves := by
  have hsame : ∀ r : Rule, s.resolves r.untied = s.resolves r := by
    intro r
    rw [Space.resolves, Rule.parts_untied, Space.resolves]
  rw [List.filter_map]
  exact congrArg _ (List.filter_congr fun r _ => (hsame r).symm)

/-- The same rules resolve. -/
theorem filter (h : SameRules l l') (s : Space) :
    SameRules (l.filter s.resolves) (l'.filter s.resolves) := by
  rw [SameRules, map_untied_filter, map_untied_filter]
  exact List.Perm.filter _ h

/-- The same rules make the same uses. -/
theorem countUses (h : SameRules l l') (s : Space) : s.countUses l = s.countUses l' := by
  rw [← Space.countUses_untied, Space.countUses_perm h, Space.countUses_untied]

end SameRules

namespace Request

variable {q q' : Request} {catalogue : Catalogue} {ties ties' : TieBreaks} {sampler : Sampler}
variable {o : Options} {interrupt : Interrupt} {out out' : Outcome}

/-- Numbers change nothing but tie-breaks. -/
theorem map_untied_numbered (q : Request) (ties : TieBreaks) :
    (q.numbered ties).map Rule.untied = q.rules.map Rule.untied := by
  have hlength : q.rules.length ≤ (ties.indexes q.rules.length).length := by
    rw [(ties.perm _).length_eq, List.length_range]
  rw [numbered, List.map_zipWith]
  conv_rhs => rw [← List.map_fst_zip hlength, List.map_map]
  rw [← List.map_uncurry_zip_eq_zipWith]
  rfl

/-- Candidates in order are those of the request. -/
theorem sameRules_ordered (q : Request) (ties : TieBreaks) : SameRules (q.ordered ties) q.rules :=
  (List.Perm.map _ (List.mergeSort_perm _ _)).trans (.of_eq (q.map_untied_numbered ties))

/-- Requests that list the same candidates build from the same candidates. -/
theorem sameRules_of_perm (h : q.rules.Perm q'.rules) (ties ties' : TieBreaks) :
    SameRules (q.ordered ties) (q'.ordered ties') :=
  (sameRules_ordered q ties).trans ((h.map _).trans (sameRules_ordered q' ties').symm)

/-- A request that succeeds is analysed and built. -/
theorem run?_eq_ok (h : q.run? catalogue ties sampler o interrupt = some (.ok out)) :
    ∃ a b, q.check o = .ok () ∧
      q.analyse? catalogue sampler o (q.ordered ties)
        (q.analysisStart (q.registry catalogue) interrupt) = some (.ok a) ∧
      runBuild catalogue o q.schema a.space ((q.ordered ties).filter a.space.resolves)
        a.interrupt = (.ok (), b) ∧
      out = q.outcome a ((q.ordered ties).filter a.space.resolves) b := by
  unfold run? accept at h
  cases hcheck : q.check o with
  | error e =>
    rw [hcheck] at h
    cases h
  | ok u =>
    rw [hcheck] at h
    obtain ⟨analysed, hanalyse, hconstruct⟩ := Option.map_eq_some_iff.mp h
    cases analysed with
    | error e => cases hconstruct
    | ok a =>
      simp only [Except.bind, construct] at hconstruct
      split at hconstruct
      · rename_i b hbuild
        cases hconstruct
        exact ⟨a, b, rfl, hanalyse, hbuild, rfl⟩
      · cases hconstruct

/-- Where there is nothing to analyse, the candidates in order are built. -/
theorem run?_of_empty {rules : List Rule} {b : BuildState} (hspace : q.space = .empty)
    (hcheck : q.check o = .ok ()) (hordered : q.ordered ties = rules)
    (hparts : ∀ r ∈ rules, r.parts = [])
    (hbuild : runBuild catalogue o q.schema .empty rules interrupt = (.ok (), b)) :
    ∃ out, q.run? catalogue ties sampler o interrupt = some (.ok out) ∧ out.schema = b.schema ∧
      out.space = b.space ∧ out.counts.construction = b.counts := by
  have hkept : rules.filter Space.empty.resolves = rules :=
    List.filter_eq_self.mpr fun r hr => by rw [Space.resolves, hparts r hr, List.all_nil]
  have hanalyse : Analysis.complete? catalogue o q.schema sampler rules
      (q.analysisStart (q.registry catalogue) interrupt) = _ :=
    Analysis.complete?_of_unused (by rw [analysisStart, hspace, Space.countUses_empty]; rfl)
  simp only [analysisStart, hspace, Space.countUses_empty] at hanalyse
  have hrun : q.run? catalogue ties sampler o interrupt = some (.ok (q.outcome
      ⟨{ Analyser.new ((q.registry catalogue).classes.map (·.className)) with
        state := .partitionsComputed }, .empty, interrupt, none⟩ rules b)) := by
    simp only [run?, accept, hcheck, hordered, bind, Except.bind, pure, Except.pure, analyse?,
      analysisStart, hspace, hanalyse, construct, hkept, hbuild, Option.map_some]
  exact ⟨_, hrun, rfl, rfl, rfl⟩

/-- The same candidates are analysed alike. -/
theorem analyse?_of_perm {rules : List Rule} (h : q.rules.Perm rules) (ties ties' : TieBreaks) :
    ({ q with rules } : Request).analyse? catalogue sampler o
        (({ q with rules } : Request).ordered ties')
        (({ q with rules } : Request).analysisStart (q.registry catalogue) interrupt) =
      q.analyse? catalogue sampler o (q.ordered ties)
        (q.analysisStart (q.registry catalogue) interrupt) := by
  have hsame : SameRules (q.ordered ties) (({ q with rules } : Request).ordered ties') :=
    sameRules_of_perm h ties ties'
  unfold analyse?
  rw [Analysis.complete?_of_countUses hsame.symm.countUses]
  rfl

end Request

/-! ## Where no candidates tie -/

theorem forM_eq_ok {ε α : Type} {f : α → Except ε Unit} {xs : List α} :
    xs.forM f = .ok () ↔ ∀ x ∈ xs, f x = .ok () := by
  induction xs with
  | nil => exact iff_of_true rfl fun x hx => absurd hx List.not_mem_nil
  | cons x xs ih =>
    rw [List.forall_mem_cons, ← ih, List.forM]
    cases f x with
    | error e => exact iff_of_false (by simp [bind, Except.bind]) (by simp)
    | ok u => exact (and_iff_right rfl).symm

namespace Request

variable {q : Request} {catalogue : Catalogue} {ties ties' : TieBreaks} {sampler : Sampler}
variable {o : Options} {interrupt : Interrupt} {out out' : Outcome} {rules : List Rule}
variable {a : AnalysisRun}

/-- No two candidates of a request tie in the order of cost. -/
def Untied (q : Request) : Prop := q.rules.Pairwise fun a b => q.space.compareCost a b ≠ .eq

/-- A request that makes sense has a schema that makes sense and candidates that do. -/
theorem of_check (h : q.check o = .ok ()) :
    q.schema.compile = .ok () ∧ q.rules.forM q.checkRule = .ok () := by
  unfold check at h
  obtain ⟨⟨⟩, -, h⟩ := bind_eq_ok.mp h
  obtain ⟨⟨⟩, hcompile, h⟩ := bind_eq_ok.mp h
  refine ⟨hcompile, ?_⟩
  cases hmain : q.schema.main? with
  | none =>
    rw [hmain] at h
    cases h
  | some main =>
    rw [hmain] at h
    obtain ⟨⟨⟩, -, hrules⟩ := bind_eq_ok.mp h
    exact hrules

/-- Every candidate of a request that makes sense fits the space. -/
theorem rule_of_check (h : q.check o = .ok ()) {r : Rule} (hr : r ∈ q.rules) :
    r.check q.space = .ok () := by
  obtain ⟨e, -, hrule⟩ := bind_eq_ok.mp (forM_eq_ok.mp (of_check h).2 r hr)
  exact hrule

section Order

variable (hspace : q.space.WellFounded) (hw : q.space.WellShaped)
variable (hrules : ∀ r ∈ q.rules, r.PartsIn q.space.Shaped)

include hspace hw hrules

/-- Candidates that do not tie do not tie the other way round. -/
theorem Untied.symm (h : q.Untied) : q.rules.Pairwise fun a b =>
    q.space.compareCost a b ≠ .eq ∧ q.space.compareCost b a ≠ .eq := by
  have hlawful := Space.lawfulOn_compareCostBy roundedCost hspace hw.comparable
  refine h.imp_of_mem fun {x y} hx hy hxy => ⟨hxy, fun heq => hxy ?_⟩
  rw [Space.compareCost, hlawful.swap y x (hrules y hy) (hrules x hx), ← Space.compareCost, heq]
  rfl

theorem Untied.of_perm (h : q.Untied) (hperm : q.rules.Perm rules) :
    ({ q with rules } : Request).Untied :=
  ((hperm.pairwise_iff fun hxy => ⟨hxy.2, hxy.1⟩).mp (h.symm hspace hw hrules)).imp And.left

/-- Candidates that do not tie come in strictly increasing order of cost. -/
theorem Untied.ordered (h : q.Untied) (ties : TieBreaks) :
    ((q.ordered ties).map Rule.untied).Pairwise fun a b => q.space.compareCost a b = .lt := by
  have hsorted := (Space.lawfulOn_compareCostTieBy roundedCost hspace
    hw.comparable).pairwise_mergeSort (l := q.numbered ties)
      (SameRules.forall_partsIn (.of_eq (q.map_untied_numbered ties).symm) hrules)
  have hne : ((q.ordered ties).map Rule.untied).Pairwise fun a b =>
      q.space.compareCost a b ≠ .eq ∧ q.space.compareCost b a ≠ .eq := by
    refine ((sameRules_ordered q ties).pairwise_iff fun hxy => ⟨hxy.2, hxy.1⟩).mpr
      (List.pairwise_map.mpr ((h.symm hspace hw hrules).imp fun hxy => ?_))
    rwa [Rule.compareCost_untied, Rule.compareCost_untied]
  refine List.pairwise_map.mpr (((List.pairwise_map.mp hne).and hsorted).imp ?_)
  rintro x y ⟨⟨hxy, -⟩, hle⟩
  rw [Rule.compareCost_untied] at hxy ⊢
  rw [Space.compareCostTieBy, ← Space.compareCost] at hle
  cases hcompare : q.space.compareCost x y with
  | lt => rfl
  | eq => exact absurd hcompare hxy
  | gt =>
    rw [hcompare] at hle
    exact absurd rfl hle

/-- Candidates that do not tie come in one order, whatever the tie-breaks. -/
theorem Untied.map_ordered (h : q.Untied) (hperm : q.rules.Perm rules) (ties ties' : TieBreaks) :
    (q.ordered ties).map Rule.untied =
      (({ q with rules } : Request).ordered ties').map Rule.untied := by
  have hsame : SameRules (q.ordered ties) (({ q with rules } : Request).ordered ties') :=
    sameRules_of_perm hperm ties ties'
  have hlawful := Space.lawfulOn_compareCostBy roundedCost hspace hw.comparable
  have hparts := (sameRules_ordered q ties).symm.forall_partsIn hrules
  have hparts' := hsame.forall_partsIn hparts
  have hlt' := Untied.ordered (q := { q with rules }) hspace hw
    (fun r hr => hrules r (hperm.mem_iff.mpr hr)) (h.of_perm hspace hw hrules hperm) ties'
  refine hsame.eq_of_pairwise (fun x y hx hy hxy hyx => ?_)
    (h.ordered hspace hw hrules ties) hlt'
  obtain ⟨r, hr, rfl⟩ := List.mem_map.mp hx
  obtain ⟨r', hr', rfl⟩ := List.mem_map.mp hy
  rw [Rule.compareCost_untied] at hxy hyx
  rw [Space.compareCost, hlawful.swap r r' (hparts r hr) (hparts' r' hr'), ← Space.compareCost,
    hxy] at hyx
  cases hyx

end Order

theorem outcome_untied (q : Request) (a : AnalysisRun) {kept kept' : List Rule} {b b' : BuildState}
    (hkept : kept.map Rule.untied = kept'.map Rule.untied) (hb : b.untied = b'.untied) :
    q.outcome a kept b = q.outcome a kept' b' := by
  have hlength : kept.length = kept'.length := by
    rw [← List.length_map Rule.untied, hkept, List.length_map]
  have hsame : ∀ (kept : List Rule) (b : BuildState),
      q.outcome a kept b = q.outcome a kept b.untied := by
    intro kept b
    simp only [outcome, BuildState.counts, BuildState.untied, Ledger.untied, Ledger.size,
      List.length_map]
  rw [hsame, hb, ← hsame, outcome, outcome, hlength]

/-- Where no candidates tie, a request comes to one outcome in whatever order it lists them, and
however ties are broken. -/
theorem Untied.outcome_eq (h : q.Untied) (hspace : q.space.WellFounded) (hw : q.space.WellShaped)
    (hperm : q.rules.Perm rules) (hout : q.run? catalogue ties sampler o interrupt = some (.ok out))
    (hout' : ({ q with rules } : Request).run? catalogue ties' sampler o interrupt =
      some (.ok out')) :
    out = out' := by
  obtain ⟨a, b, hcheck, hanalyse, hbuild, rfl⟩ := run?_eq_ok hout
  obtain ⟨a', b', -, hanalyse', hbuild', rfl⟩ := run?_eq_ok hout'
  have hrules : ∀ r ∈ q.rules, r.PartsIn q.space.Shaped := fun r hr part hpart =>
    hw.of_part? (Rule.part?_of_check r (rule_of_check hcheck hr) part hpart)
  obtain rfl : a = a' := Except.ok.inj (Option.some.inj
    (hanalyse.symm.trans ((analyse?_of_perm hperm ties ties').symm.trans hanalyse')))
  have hkept : ((q.ordered ties).filter a.space.resolves).map Rule.untied =
      ((({ q with rules } : Request).ordered ties').filter a.space.resolves).map Rule.untied := by
    rw [SameRules.map_untied_filter, SameRules.map_untied_filter,
      h.map_ordered hspace hw hrules hperm ties ties']
  have hsame := (Build.runBuild_of_untied hkept catalogue o q.schema a.space a.interrupt).2
  rw [hbuild, hbuild'] at hsame
  rw [outcome_untied q a hkept hsame]
  simp only [outcome, hperm.length_eq]

end Request

/-! ## What is used -/

/-- A request shares fields under readable names and has no bound on them, and no field was found
and no number given to the name of a candidate when it came to its outcome. -/
structure Request.RunsPlainly (q : Request) (o : Options) (out : Outcome) : Prop where
  shares : Mode.ofOptions o ≠ .standard
  readable : o.readableNames = true
  unbounded : o.maxFields = none
  unfound : out.counts.construction.fieldsReused = 0
  unnumbered : out.schema.Unnumbered out.space q.rules

theorem Space.Over.of_frame {s s' : Space} {ts : Catalogue} (h : s.Over ts)
    (hframe : s'.frame = s.frame) : s'.Over ts := by
  intro d' hd' r hr
  obtain ⟨k, hk⟩ := List.mem_iff_getElem?.mp hd'
  obtain ⟨d, hd, -, horigin⟩ := dimension_of_frame hframe.symm hk
  exact h d (List.mem_of_getElem? hd) r (horigin.trans hr)

namespace Request

variable {q : Request} {catalogue : Catalogue} {ties ties' : TieBreaks} {sampler : Sampler}
variable {o : Options} {interrupt : Interrupt} {out out' : Outcome} {rules : List Rule}
variable {a : AnalysisRun}

/-- An analysis keeps what the space of a request is cut along. -/
theorem frame_analyse? {rules : List Rule} (h : q.analyse? catalogue sampler o rules
    (q.analysisStart (q.registry catalogue) interrupt) = some (.ok a)) :
    a.space.frame = q.space.frame := by
  obtain ⟨⟨result, a'⟩, hcomplete, hresult⟩ := Option.map_eq_some_iff.mp h
  cases result with
  | error e => cases hresult
  | ok u =>
    cases hresult
    exact (Analysis.sameCuts_complete? hcomplete).frame

/-- The candidates that an analysis finds the parts of are built under their readable names. -/
theorem RunsPlainly.build (h : q.RunsPlainly o out) (hrules : ∀ r ∈ q.rules, r.Over catalogue)
    (hout : q.run? catalogue ties sampler o interrupt = some (.ok out)) :
    ∃ a b, q.analyse? catalogue sampler o (q.ordered ties)
        (q.analysisStart (q.registry catalogue) interrupt) = some (.ok a) ∧
      NamesPlainly catalogue o q.schema a.space ((q.ordered ties).filter a.space.resolves)
        a.interrupt b ∧ out.schema = b.schema := by
  obtain ⟨a, b, -, hanalyse, hbuild, rfl⟩ := run?_eq_ok hout
  refine ⟨a, b, hanalyse, ⟨h.shares, h.readable, h.unbounded, hbuild, h.unfound, ?_⟩, rfl⟩
  intro r hr m hname e he i
  obtain ⟨r', hr', huntied⟩ := (sameRules_ordered q ties).exists_mem (List.mem_of_mem_filter hr)
  have hover : r'.Over catalogue := hrules r' hr'
  have hlevels : a.space.SameLevels b.space := by
    obtain ⟨b₃, hlay, rfl, -⟩ := runBuild_eq_ok hbuild
    exact (Space.SameLevels.clearLinks a.space).trans (Build.sameLevels_layOut _ hlay)
  have hname' : b.space.ruleName r' false = .ok m := by
    rw [Space.ruleName_of_sameLevels hlevels, ← hname]
    exact Space.ruleName_eq_of_signature (Rule.signature_eq_of_untied huntied) hover
      (.of_untied huntied hover) false
  exact h.unnumbered r' hr' m hname' e
    (by rwa [← Rule.className_untied r', huntied, Rule.className_untied]) i

/-- What a name is used for where candidates are built under their readable names does not depend on
the order of the candidates. -/
theorem usesBuilt_of_plain (hperm : q.rules.Perm rules) (hspace : q.space.WellFounded)
    (hover : q.space.Over catalogue) (hrules : ∀ r ∈ q.rules, r.Over catalogue)
    (hout : q.run? catalogue ties sampler o interrupt = some (.ok out))
    (hout' : ({ q with rules } : Request).run? catalogue ties' sampler o interrupt =
      some (.ok out'))
    (h : q.RunsPlainly o out) (h' : ({ q with rules } : Request).RunsPlainly o out')
    (C n : String) : out.schema.UsesBuilt C n ↔ out'.schema.UsesBuilt C n := by
  have hrules' : ∀ r ∈ rules, r.Over catalogue := fun r hr => hrules r (hperm.mem_iff.mpr hr)
  obtain ⟨a, b, hanalyse, hplain, hb⟩ := h.build hrules hout
  obtain ⟨a', b', hanalyse', hplain', hb'⟩ := h'.build hrules' hout'
  have hsame : SameRules (q.ordered ties) (({ q with rules } : Request).ordered ties') :=
    sameRules_of_perm hperm ties ties'
  obtain rfl : a = a' := Except.ok.inj (Option.some.inj
    (hanalyse.symm.trans ((analyse?_of_perm hperm ties ties').symm.trans hanalyse')))
  have hschema : q.schema.compile = .ok () := by
    obtain ⟨-, -, hcheck, -⟩ := run?_eq_ok hout
    exact (of_check hcheck).1
  have hframe := frame_analyse? hanalyse
  have hkept : SameRules ((q.ordered ties).filter a.space.resolves)
      ((({ q with rules } : Request).ordered ties').filter a.space.resolves) := hsame.filter a.space
  have hkeptOver : ∀ r ∈ (q.ordered ties).filter a.space.resolves, r.Over catalogue := fun r hr =>
    (sameRules_ordered q ties).symm.forall_over hrules r (List.mem_of_mem_filter hr)
  rw [hb, hb', hplain.usesBuilt_iff hschema (hspace.of_frame hframe) (hover.of_frame hframe)
    hkeptOver, hplain'.usesBuilt_iff hschema (hspace.of_frame hframe) (hover.of_frame hframe)
      (hkept.forall_over hkeptOver)]
  have hfield : ∀ {l l' : List Rule}, SameRules l l' → (∀ r ∈ l, r.Over catalogue) →
      (∃ r ∈ l, r.className = C ∧ a.space.ruleName r false = .ok n) →
        ∃ r ∈ l', r.className = C ∧ a.space.ruleName r false = .ok n := by
    rintro l l' hl hlover ⟨r, hr, hC, hname⟩
    obtain ⟨r', hr', huntied⟩ := hl.exists_mem hr
    refine ⟨r', hr', by rw [← Rule.className_untied, huntied, Rule.className_untied, hC], ?_⟩
    rw [← hname]
    exact Space.ruleName_eq_of_signature (Rule.signature_eq_of_untied huntied)
      (hl.forall_over hlover r' hr') (hlover r hr) false
  exact or_congr_right ⟨hfield hkept hkeptOver, hfield hkept.symm (hkept.forall_over hkeptOver)⟩

/-- Two requests that list the same candidates, each with any tie-breaks, and that both succeed.
Where no candidates tie they come to one outcome.  Where some do they use the same, as far as they
find no fields and give no numbers to candidates. -/
theorem same_candidates_of_perm (hperm : q.rules.Perm rules) (hspace : q.space.WellFounded)
    (hout : q.run? catalogue ties sampler o interrupt = some (.ok out))
    (hout' : ({ q with rules } : Request).run? catalogue ties' sampler o interrupt =
      some (.ok out')) :
    (q.space.WellShaped → q.Untied → out = out') ∧
      (q.space.Over catalogue → (∀ r ∈ q.rules, r.Over catalogue) → q.RunsPlainly o out →
        ({ q with rules } : Request).RunsPlainly o out' →
          ∀ C n, out.schema.UsesBuilt C n ↔ out'.schema.UsesBuilt C n) :=
  ⟨fun hw h => h.outcome_eq hspace hw hperm hout hout', fun hover hrules h h' =>
    usesBuilt_of_plain hperm hspace hover hrules hout hout' h h'⟩

end Request

/-! ## Names with dots -/

namespace DottedNames

/-- Customers with orders and with items, where the name of the items goes on behind that of the
orders. -/
def schema : Schema :=
  ⟨[ ⟨"Customer", [.native "Orders" (.objectArray "Orders"),
        .native "Orders.a" (.objectArray "Items")], []⟩,
     ⟨"Orders", [.native "a.b" .continuous], []⟩, ⟨"Items", [.native "b" .continuous], []⟩ ]⟩

/-- A statistic of the orders. -/
def ofOrders (word : String) (cost : Float) (tieBreak : Nat) : Rule :=
  ⟨.statistic word .continuous .continuous, "Customer",
    [.field "Orders" (.objectArray "Orders"), .field "a.b" .continuous], cost, tieBreak⟩

/-- A statistic of the items. -/
def ofItems (word : String) (cost : Float) (tieBreak : Nat) : Rule :=
  ⟨.statistic word .continuous .continuous, "Customer",
    [.field "Orders.a" (.objectArray "Items"), .field "b" .continuous], cost, tieBreak⟩

def request (rules : List Rule) : Request := ⟨schema, .empty, rules⟩

/-- Nothing is sampled. -/
def sampler : Sampler := Samples.sampler ⟨0, []⟩

/-- Candidates that tie stay as listed. -/
def outcome (rules : List Rule) : Option (Except BuildError Outcome) :=
  (request rules).run? .default .listed sampler .default .never

/-- The new fields of candidates, as they come. -/
def gathered (rules : List Rule) : NewFields :=
  Build.gatheredFields .default .default schema .empty rules

/-- What the build of candidates ends with, whose new fields are put in a given order. -/
def built (rules : List Rule) (laid : NewFields) : Except BuildError Unit × BuildState :=
  Build.finished .default .default schema .empty rules laid

/-- Two candidates that come in order of cost, with their tie-breaks. -/
structure InOrder (rules : List Rule) (numbered : List Rule) : Prop where
  checked : (request rules).check .default = .ok ()
  ordered : (request rules).ordered .listed = numbered
  parts : ∀ r ∈ numbered, r.parts = []

theorem inOrder {x y : Rule} (hchecked : ((request [x, y]).check .default).isOk = true)
    (htied : (Space.empty.compareCostTie { x with tieBreak := 0 } { y with tieBreak := 1 } != .gt) =
      true)
    (hparts : ∀ r ∈ [{ x with tieBreak := 0 }, { y with tieBreak := 1 }], r.parts = []) :
    InOrder [x, y] [{ x with tieBreak := 0 }, { y with tieBreak := 1 }] where
  checked := eq_ok_of_isOk hchecked
  ordered := by
    rw [Request.ordered]
    exact List.mergeSort_of_pairwise (by
      simpa [request, Request.numbered, TieBreaks.listed, List.range_succ] using htied)
  parts := hparts

theorem inOrder_swapped {x y : Rule} (hchecked : ((request [x, y]).check .default).isOk = true)
    (hswapped : (Space.empty.compareCostTie { x with tieBreak := 0 } { y with tieBreak := 1 } ==
      .gt) = true)
    (hparts : ∀ r ∈ [{ y with tieBreak := 1 }, { x with tieBreak := 0 }], r.parts = []) :
    InOrder [x, y] [{ y with tieBreak := 1 }, { x with tieBreak := 0 }] where
  checked := eq_ok_of_isOk hchecked
  ordered := by
    rw [beq_iff_eq] at hswapped
    simp [Request.ordered, request, Request.numbered, TieBreaks.listed, List.range_succ,
      List.mergeSort, List.MergeSort.Internal.splitInTwo, hswapped]
  parts := hparts

theorem InOrder.outcome {rules numbered : List Rule} (h : InOrder rules numbered)
    {laid : NewFields} (hgathered : (Build.gathered .default .default schema .empty numbered).1.isOk =
      true)
    (hsorted : (gathered numbered).sorted
      (Build.gathered .default .default schema .empty numbered).2.space = laid)
    (hbuilt : (built numbered laid).1.isOk = true) :
    ∃ out, DottedNames.outcome rules = some (.ok out) ∧
      out.schema = (built numbered laid).2.schema ∧ out.space = (built numbered laid).2.space ∧
        out.counts.construction = (built numbered laid).2.counts :=
  Request.run?_of_empty rfl h.checked h.ordered h.parts
    (Build.runBuild_of_finished hgathered hsorted hbuilt)

theorem wellShaped_empty : Space.empty.WellShaped :=
  ⟨fun _ hp => absurd hp List.not_mem_nil, fun _ hd => absurd hd List.not_mem_nil⟩

end DottedNames

open DottedNames in
/-- The mean of the orders and the maximum of the items are used in either order.  Means of
different costs come to one outcome in either order, though they are called the same. -/
theorem dotted_same_candidates :
    (∃ out out', outcome [ofOrders "Mean" 1 0, ofItems "Max" 1 0] = some (.ok out) ∧
      outcome [ofItems "Max" 1 0, ofOrders "Mean" 1 0] = some (.ok out') ∧
        ∀ C n, out.schema.UsesBuilt C n ↔ out'.schema.UsesBuilt C n) ∧
      ∃ out, outcome [ofOrders "Mean" 1 0, ofItems "Mean" 2 0] = some (.ok out) ∧
        outcome [ofItems "Mean" 2 0, ofOrders "Mean" 1 0] = some (.ok out) := by
  constructor
  · have horders : InOrder [ofOrders "Mean" 1 0, ofItems "Max" 1 0]
        [ofOrders "Mean" 1 0, ofItems "Max" 1 1] :=
      inOrder (by decide +kernel) (by decide +kernel) (by decide +kernel)
    have hitems : InOrder [ofItems "Max" 1 0, ofOrders "Mean" 1 0]
        [ofItems "Max" 1 0, ofOrders "Mean" 1 1] :=
      inOrder (by decide +kernel) (by decide +kernel) (by decide +kernel)
    obtain ⟨out, hout, hschema, hspace, hcounts⟩ := horders.outcome (by decide +kernel)
      (Build.sorted_swapped (by decide +kernel)) (by decide +kernel)
    obtain ⟨out', hout', hschema', hspace', hcounts'⟩ := hitems.outcome (by decide +kernel)
      (List.mergeSort_of_pairwise (by decide +kernel)) (by decide +kernel)
    have hplain : (request [ofOrders "Mean" 1 0, ofItems "Max" 1 0]).RunsPlainly .default out := by
      refine ⟨by decide, rfl, rfl, ?_, ?_⟩
      · rw [hcounts]
        decide +kernel
      · rw [hschema, hspace]
        exact Schema.unnumbered_of_all (by decide +kernel)
    have hplain' :
        (request [ofItems "Max" 1 0, ofOrders "Mean" 1 0]).RunsPlainly .default out' := by
      refine ⟨by decide, rfl, rfl, ?_, ?_⟩
      · rw [hcounts']
        decide +kernel
      · rw [hschema', hspace']
        exact Schema.unnumbered_of_all (by decide +kernel)
    have hover : ∀ r ∈ [ofOrders "Mean" 1 0, ofItems "Max" 1 0], r.Over .default := by
      have horders : (ofOrders "Mean" 1 0).Over .default := ⟨by decide +kernel, trivial⟩
      have hitems : (ofItems "Max" 1 0).Over .default := ⟨by decide +kernel, trivial⟩
      simp [horders, hitems]
    exact ⟨out, out', hout, hout', (Request.same_candidates_of_perm (.swap _ _ _)
      Space.wellFounded_empty hout hout').2 (fun d hd => absurd hd List.not_mem_nil) hover hplain
        hplain'⟩
  · have horders : InOrder [ofOrders "Mean" 1 0, ofItems "Mean" 2 0]
        [ofOrders "Mean" 1 0, ofItems "Mean" 2 1] :=
      inOrder (by decide +kernel) (by decide +kernel) (by decide +kernel)
    have hitems : InOrder [ofItems "Mean" 2 0, ofOrders "Mean" 1 0]
        [ofOrders "Mean" 1 1, ofItems "Mean" 2 0] :=
      inOrder_swapped (by decide +kernel) (by decide +kernel) (by decide +kernel)
    obtain ⟨out, hout, -⟩ := horders.outcome (by decide +kernel)
      (List.mergeSort_of_pairwise (by decide +kernel)) (by decide +kernel)
    obtain ⟨out', hout', -⟩ := hitems.outcome (by decide +kernel)
      (List.mergeSort_of_pairwise (by decide +kernel)) (by decide +kernel)
    have huntied : (request [ofOrders "Mean" 1 0, ofItems "Mean" 2 0]).Untied :=
      List.pairwise_pair.mpr (by decide +kernel)
    obtain rfl : out = out' := (Request.same_candidates_of_perm (.swap _ _ _)
      Space.wellFounded_empty hout hout').1 wellShaped_empty huntied
    exact ⟨out, hout, hout'⟩

open DottedNames in
/-- The means are called the same, and the one that has its turn first keeps the name. -/
theorem means_renamed : ∃ out out',
    outcome [ofOrders "Mean" 1 0, ofItems "Mean" 1 0] = some (.ok out) ∧
      outcome [ofItems "Mean" 1 0, ofOrders "Mean" 1 0] = some (.ok out') ∧
        out.schema ≠ out'.schema := by
  have horders : InOrder [ofOrders "Mean" 1 0, ofItems "Mean" 1 0]
      [ofOrders "Mean" 1 0, ofItems "Mean" 1 1] :=
    inOrder (by decide +kernel) (by decide +kernel) (by decide +kernel)
  have hitems : InOrder [ofItems "Mean" 1 0, ofOrders "Mean" 1 0]
      [ofItems "Mean" 1 0, ofOrders "Mean" 1 1] :=
    inOrder (by decide +kernel) (by decide +kernel) (by decide +kernel)
  obtain ⟨out, hout, hschema, -⟩ := horders.outcome (by decide +kernel)
    (List.mergeSort_of_pairwise (by decide +kernel)) (by decide +kernel)
  obtain ⟨out', hout', hschema', -⟩ := hitems.outcome (by decide +kernel)
    (Build.sorted_swapped (by decide +kernel)) (by decide +kernel)
  refine ⟨out, out', hout, hout', fun heq => ?_⟩
  have hfirst : out.schema.formulaOf? "Customer" "Mean(Orders.a.b)" =
      some ⟨"TableMean", [.field "Orders", .field "a.b"]⟩ := by
    rw [hschema]
    decide +kernel
  rw [heq, hschema'] at hfirst
  exact absurd hfirst (by decide +kernel)

end FeatureSynth
