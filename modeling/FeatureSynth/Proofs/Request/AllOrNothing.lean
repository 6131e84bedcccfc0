/-
# Analyses are all or nothing

Partiles are given to one dimension after the other, once fields were bound to dimensions of the
same space, and each of these steps may fail or be stopped.  Whatever happens on the way, an
analysis that comes to an end leaves one of two things.  Where it succeeds, every dimension in use
has the partiles of the column that was sampled for it, and the others have what they had.  Where
it fails, no partiles and no links are left in the whole space, not even former ones.

An analysis comes to no end where it meets a column that cannot be cut.  Two different values of
such a column are too close for a bound between them.  All this is about spaces in which rules of
dimensions name parts that fit their partitions: they are read while fields are bound, and on a part
that does not fit the program may end there.
-/
import FeatureSynth.Proofs.Partile.Cuttable
import FeatureSynth.Proofs.Request.Unfailing
import FeatureSynth.Proofs.Space.UseCounts

namespace FeatureSynth

/-- What goes with the things found for a list goes with the list, if something is found for all. -/
theorem forall₂_of_filterMap {α β γ : Type} {g : α → Option β} {R : β → γ → Prop} :
    ∀ {xs : List α} {ys : List γ}, (∀ x ∈ xs, ∃ d, g x = some d) →
      List.Forall₂ R (xs.filterMap g) ys →
        List.Forall₂ (fun x y => ∃ d, g x = some d ∧ R d y) xs ys
  | [], _, _, h => by
      cases h
      exact .nil
  | x :: xs, ys, hfound, h => by
      obtain ⟨d, hd⟩ := hfound x List.mem_cons_self
      rw [List.filterMap_cons_some hd] at h
      cases h with
      | cons hy hys =>
        exact .cons ⟨d, hd, hy⟩
          (forall₂_of_filterMap (fun z hz => hfound z (List.mem_cons_of_mem _ hz)) hys)

namespace Space

/-- The partiles that the dimension of a rank has. -/
def levels? (s : Space) (rank : Nat) : Option Levels := s.dimensions[rank]?.bind (·.levels)

theorem SameLevels.levels?_eq {s s' : Space} (h : SameLevels s s') (rank : Nat) :
    s'.levels? rank = s.levels? rank := by
  have hmap : ∀ t : Space, t.levels? rank = ((t.dimensions.map (·.levels))[rank]?).join := by
    intro t
    rw [levels?, List.getElem?_map]
    cases t.dimensions[rank]? <;> rfl
  rw [hmap, hmap, h.levels]

/-- Spaces in which the parts fit that rules of dimensions name.  They are parts of partitions along
dimensions registered before, so the way down ends, and have one index per axis. -/
structure NamesFit (s : Space) : Prop where
  wellFounded : s.WellFounded
  named : ∀ d ∈ s.dimensions, ∀ r, d.origin = .rule r → r.PartsIn s.Shaped

/-- Spaces that differ in links only have the same levels. -/
theorem SameLevels.of_clearLinks {s s' : Space} (h : s'.clearLinks = s.clearLinks) :
    SameLevels s s' :=
  (h ▸ SameLevels.clearLinks s).trans (SameLevels.clearLinks s').symm

end Space

namespace Analysis

variable {a a' : AnalysisRun} {catalogue : Catalogue} {o : Options}
variable {schema : Schema} {sampler : Sampler} {rules : List Rule} {samples : Samples}

/-! ## Dimensions one by one -/

/-- Some ranks of dimensions have the partiles of what was sampled for a request each, and the other
dimensions are what they were. -/
structure Cut (samples : Samples) (pairs : List (Nat × SampleRequest)) (s s' : Space) : Prop where
  cut : ∀ p ∈ pairs, ∃ levels, levelsFor? samples p.2 = some (.ok levels) ∧
    s'.dimensions[p.1]? = s.dimensions[p.1]?.map fun d => { d with levels := some levels }
  rest : ∀ rank ∉ pairs.map (·.1), s'.dimensions[rank]? = s.dimensions[rank]?

/-- One dimension more has its partiles, before others. -/
theorem Cut.cons {s s' : Space} {rank : Nat} {r : SampleRequest} {levels : Levels}
    {pairs : List (Nat × SampleRequest)} (hlevels : levelsFor? samples r = some (.ok levels))
    (hfresh : rank ∉ pairs.map (·.1))
    (h : Cut samples pairs
      (s.modifyDimension rank fun d => { d with levels := some levels }) s') :
    Cut samples ((rank, r) :: pairs) s s' := by
  have others : ∀ k ≠ rank,
      (s.modifyDimension rank fun d => { d with levels := some levels }).dimensions[k]? =
        s.dimensions[k]? := fun k hk => List.getElem?_modify_ne _ _ hk.symm
  refine ⟨List.forall_mem_cons.mpr ⟨⟨levels, hlevels, ?_⟩, fun p hp => ?_⟩, fun k hk => ?_⟩
  · rw [h.rest rank hfresh]
    exact List.getElem?_modify_eq _ _ _
  · obtain ⟨levels', hlevels', hp'⟩ := h.cut p hp
    have hne : p.1 ≠ rank := fun heq => hfresh (heq ▸ List.mem_map_of_mem hp)
    exact ⟨levels', hlevels', hp'.trans (by rw [others p.1 hne])⟩
  · rw [List.map_cons, List.mem_cons, not_or] at hk
    exact (h.rest k hk.2).trans (others k hk.1)

theorem ends_analyseDimension {rank : Nat} {r : SampleRequest} :
    (analyseDimension samples rank r).Ends a (levelsFor? samples r = none) (fun _ _ => True)
      fun _ a' => ∃ levels, levelsFor? samples r = some (.ok levels) ∧
        a'.space = a.space.modifyDimension rank fun d => { d with levels := some levels } := by
  refine .checkInterrupt_bind (fun _ => trivial) fun _ => .orEnd_bind id fun x hx =>
    .lift_bind (fun _ _ => trivial) fun levels hlevels => ?_
  subst hlevels
  exact ⟨levels, hx, rfl⟩

/-- One dimension after the other gets its partiles, no dimension twice. -/
theorem ends_analyseEach {pairs : List (Nat × SampleRequest)} (hdistinct : (pairs.map (·.1)).Nodup)
    {requests : List SampleRequest} (hrequests : ∀ p ∈ pairs, p.2 ∈ requests) :
    (forM pairs fun (rank, r) => analyseDimension samples rank r).Ends a
      (∃ r ∈ requests, levelsFor? samples r = none) (fun _ _ => True)
      fun _ a' => Cut samples pairs a.space a'.space := by
  induction pairs generalizing a with
  | nil => exact .ret ⟨nofun, fun _ _ => rfl⟩
  | cons p pairs ih =>
    obtain ⟨rank, r⟩ := p
    rw [List.map_cons, List.nodup_cons] at hdistinct
    rw [List.forM_cons]
    refine .bind_of (ends_analyseDimension.mono (fun hr => ⟨r, hrequests _ List.mem_cons_self, hr⟩)
      (fun _ _ => id) fun _ _ => id) fun _ a₁ ⟨levels, hlevels, hspace⟩ => ?_
    refine (ih hdistinct.2 fun p hp =>
      hrequests p (List.mem_cons_of_mem _ hp)).imp fun _ a' hcut => ?_
    rw [hspace] at hcut
    exact hcut.cons hlevels hdistinct.1

/-! ## Dimensions together -/

/-- Fields are bound to the dimensions in use. -/
theorem ends_reducedSchema {N : Prop} : (reducedSchema catalogue o schema).Ends a N
    (fun _ _ => True) fun reduced a' => ∃ b,
      bindSchema catalogue o schema a.space (a.buildInterrupt.getD a.interrupt) = (.ok (), b) ∧
        reduced = b.reduced ∧ a'.space = b.space := by
  refine .get_bind ?_
  cases hbind : bindSchema catalogue o schema a.space (a.buildInterrupt.getD a.interrupt) with
  | mk result b =>
    cases result with
    | ok => exact ⟨b, rfl, rfl, rfl⟩
    | error e => exact trivial

theorem ends_takeSamples {N : Prop} {requests : List SampleRequest} :
    (takeSamples sampler schema requests).Ends a N (fun _ _ => True) fun samples a' =>
      a'.space = a.space ∧ (sampler schema requests).result = .ok samples := by
  have hnote : (noteStop a).space = a.space := by
    unfold noteStop
    split <;> rfl
  unfold takeSamples
  dsimp only
  split
  · refine .change_bind ?_
    split
    · rename_i hresult
      exact .change_bind (.ret ⟨hnote, hresult⟩)
    · exact .fail trivial
    · exact .fail trivial
  · split
    · rename_i hresult
      exact .change_bind (.ret ⟨rfl, hresult⟩)
    · exact .fail trivial
    · exact .fail trivial

/-- The request to stop that is looked at while fields are bound: that of the analysis, looked at
once before, unless there is another. -/
def bindInterrupt (a : AnalysisRun) : Interrupt := a.buildInterrupt.getD a.interrupt.look.2

/-- What the analysis of the dimensions in use asked a sampler for, and what it got: the dimensions
are bound to fields, these are wanted of the reduced schema, and there are samples. -/
structure Sampled (catalogue : Catalogue) (o : Options) (schema : Schema) (sampler : Sampler)
    (s : Space) (interrupt : Interrupt) (b : BuildState) (requests : List SampleRequest)
    (samples : Samples) : Prop where
  bound : bindSchema catalogue o schema s interrupt = (.ok (), b)
  asked : (s.usedDimensions.filterMap fun rank => b.space.dimensions[rank]?).mapM requestFor =
    .ok requests
  answered : (sampler b.reduced requests).result = .ok samples

/-- The dimension of a rank has the partiles of the column sampled for its own request, which wants
the field it is bound to. -/
def CarriesOwn (b : BuildState) (requests : List SampleRequest) (samples : Samples) (s : Space)
    (rank : Nat) : Prop :=
  ∃ d r levels, b.space.dimensions[rank]? = some d ∧ requestFor d = .ok r ∧ r ∈ requests ∧
    levelsFor? samples r = some (.ok levels) ∧ s.levels? rank = some levels

namespace Sampled

variable {s s' : Space} {interrupt : Interrupt} {b : BuildState} {requests : List SampleRequest}

/-- There is one request for each dimension in use, in the same order. -/
theorem inOrder (h : Sampled catalogue o schema sampler s interrupt b requests samples) :
    List.Forall₂ (fun rank r => ∃ d, b.space.dimensions[rank]? = some d ∧ requestFor d = .ok r)
      s.usedDimensions requests := by
  refine forall₂_of_filterMap (fun rank hrank => ?_) (Space.forall₂_of_mapM h.asked)
  obtain ⟨d, hd, -⟩ := Space.mem_usedDimensions.mp hrank
  have hframe := (Space.SameLevels.of_clearLinks (linked_bindSchema h.bound).1).frame
  obtain ⟨d', hd', -⟩ := Space.dimension_of_frame hframe hd
  exact ⟨d', hd'⟩

theorem ranks (h : Sampled catalogue o schema sampler s interrupt b requests samples) :
    (s.usedDimensions.zip requests).map (·.1) = s.usedDimensions :=
  List.map_fst_zip h.inOrder.length_eq.le

theorem carriesOwn (h : Sampled catalogue o schema sampler s interrupt b requests samples)
    (hcut : Cut samples (s.usedDimensions.zip requests) b.space s') {rank : Nat}
    (hused : s.Used rank) : CarriesOwn b requests samples s' rank := by
  rw [← Space.mem_usedDimensions, ← h.ranks] at hused
  obtain ⟨⟨k, r⟩, hmem, rfl⟩ := List.mem_map.mp hused
  obtain ⟨d, hd, hr⟩ := (List.forall₂_iff_zip.mp h.inOrder).2 hmem
  obtain ⟨levels, hlevels, hcarries⟩ := hcut.cut _ hmem
  refine ⟨d, r, levels, hd, hr, (List.of_mem_zip hmem).2, hlevels, ?_⟩
  rw [Space.levels?, hcarries, hd]
  rfl

theorem unused (h : Sampled catalogue o schema sampler s interrupt b requests samples)
    (hcut : Cut samples (s.usedDimensions.zip requests) b.space s') {rank : Nat}
    (hunused : ¬ s.Used rank) : s'.levels? rank = s.levels? rank := by
  rw [← Space.mem_usedDimensions, ← h.ranks] at hunused
  have hsame := Space.SameLevels.of_clearLinks (linked_bindSchema h.bound).1
  rw [Space.levels?, hcut.rest rank hunused]
  exact hsame.levels?_eq rank

end Sampled

/-- One of the columns that were sampled cannot be cut. -/
def MeetsUncut (catalogue : Catalogue) (o : Options) (schema : Schema) (sampler : Sampler)
    (s : Space) (interrupt : Interrupt) : Prop :=
  ∃ b requests samples, Sampled catalogue o schema sampler s interrupt b requests samples ∧
    ∃ r ∈ requests, levelsFor? samples r = none

/-- The dimensions in use are analysed together, or their analysis fails, or it meets a column that
cannot be cut. -/
theorem ends_analyseDimensions (catalogue : Catalogue) (o : Options) (schema : Schema)
    (sampler : Sampler) (a : AnalysisRun) :
    (analyseDimensions catalogue o schema sampler a.space.usedDimensions).Ends a
      (MeetsUncut catalogue o schema sampler a.space (bindInterrupt a)) (fun _ _ => True)
      fun _ a' =>
      (∀ rank, ¬ a.space.Used rank → a'.space.levels? rank = a.space.levels? rank) ∧
      ∃ b requests samples,
        Sampled catalogue o schema sampler a.space (bindInterrupt a) b requests samples ∧
        ∀ rank, a.space.Used rank → CarriesOwn b requests samples a'.space rank := by
  refine .get_bind (.lift_bind (fun _ _ => trivial) fun _ _ =>
    .checkInterrupt_bind (fun _ => trivial) fun _ => ?_)
  refine .bind_of ends_reducedSchema fun reduced a₂ ⟨b, hbind, hreduced, hspace₂⟩ => ?_
  subst hreduced
  refine .change_bind (.get_bind ?_)
  dsimp only
  rw [hspace₂]
  refine .lift_bind (fun _ _ => trivial) fun requests hrequests =>
    .checkInterrupt_bind (fun _ => trivial) fun _ => ?_
  refine .bind_of ends_takeSamples fun samples a₃ ⟨hspace₃, hresult⟩ => ?_
  have hsampled : Sampled catalogue o schema sampler a.space (bindInterrupt a) b requests samples :=
    ⟨hbind, hrequests, hresult⟩
  have hdistinct : ((a.space.usedDimensions.zip requests).map (·.1)).Nodup := by
    rw [hsampled.ranks]
    exact (Space.pairwise_usedDimensions a.space).imp Nat.ne_of_lt
  refine .change_bind (.bind_of ((ends_analyseEach hdistinct
    fun _ hp => (List.of_mem_zip hp).2).mono
    (fun huncut => ⟨b, requests, samples, hsampled, huncut⟩) (fun _ _ => id) fun _ _ => id)
    fun _ a₄ hcut => ?_)
  have hcut₄ : Cut samples (a.space.usedDimensions.zip requests) a₃.space a₄.space := hcut
  rw [show a₃.space = b.space from hspace₃] at hcut₄
  have hclear := (Space.SameLevels.clearLinks a₄.space).levels?_eq
  refine .change_bind (.ret ⟨fun rank hunused => ?_, b, requests, samples, hsampled,
    fun rank hused => ?_⟩)
  · exact (hclear rank).trans (hsampled.unused hcut₄ hunused)
  · obtain ⟨d, r, levels, hd, hr, hmem, hlevels, hcarries⟩ := hsampled.carriesOwn hcut₄ hused
    exact ⟨d, r, levels, hd, hr, hmem, hlevels, (hclear rank).trans hcarries⟩

/-! ## Whole analyses -/

/-- What an analysis leaves that succeeds.  Where rules need dimensions these were sampled, and each
carries the partiles of its own column; what is not needed has what it had. -/
structure Succeeded (catalogue : Catalogue) (o : Options) (schema : Schema) (sampler : Sampler)
    (rules : List Rule) (a a' : AnalysisRun) : Prop where
  state : a'.analyser.state = .partitionsComputed
  cuts : a.space.SameCuts a'.space
  needed : (∃ rank, a.space.Needs rules rank) → ∃ b requests samples,
    Sampled catalogue o schema sampler (a.space.countUses rules) (bindInterrupt a) b requests
      samples ∧
    ∀ rank, a.space.Needs rules rank → CarriesOwn b requests samples a'.space rank
  others : ∀ rank, ¬ a.space.Needs rules rank → a'.space.levels? rank = a.space.levels? rank

/-- What an analysis leaves that fails: no partiles and no links. -/
structure Abandoned (e : BuildError) (a a' : AnalysisRun) : Prop where
  state : a'.analyser.state = if e = .interrupted then .interrupted else .failed
  cuts : a.space.SameCuts a'.space
  dimensions : ∀ d ∈ a'.space.dimensions, d.levels = none ∧ d.selectionField = none
  partitions : ∀ p ∈ a'.space.partitions, p.descriptorField = none ∧ p.tableBlock = none

/-- A column was sampled that cannot be cut, for two of its values are different and close. -/
def Uncut (catalogue : Catalogue) (o : Options) (schema : Schema) (sampler : Sampler)
    (rules : List Rule) (a : AnalysisRun) : Prop :=
  ∃ b requests samples,
    Sampled catalogue o schema sampler (a.space.countUses rules) (bindInterrupt a) b requests
      samples ∧
    ∃ r ∈ requests, ∃ values, r.kind = .continuous ∧
      samples.column? ⟨r.className, r.field⟩ = some (.continuous values) ∧
      Levels.ofContinuous? values samples.objects = none ∧
      ∃ x ∈ values, ∃ y ∈ values, (x == y) = false ∧ ¬ Partile.FarApart x y

/-- What is sampled for a request ends the program if it is a column of numbers that cannot be
cut. -/
theorem levelsFor?_eq_none {r : SampleRequest} : levelsFor? samples r = none ↔ ∃ values,
    r.kind = .continuous ∧ samples.column? ⟨r.className, r.field⟩ = some (.continuous values) ∧
      Levels.ofContinuous? values samples.objects = none := by
  unfold levelsFor?
  split <;> simp_all

theorem MeetsUncut.uncut (h : MeetsUncut catalogue o schema sampler (a.space.countUses rules)
    (bindInterrupt a)) : Uncut catalogue o schema sampler rules a := by
  obtain ⟨b, requests, samples, hsampled, r, hr, hlevels⟩ := h
  obtain ⟨values, hkind, hcolumn, hnone⟩ := levelsFor?_eq_none.mp hlevels
  exact ⟨b, requests, samples, hsampled, r, hr, values, hkind, hcolumn, hnone,
    Levels.exists_close hnone⟩

/-- The dimensions that rules use are analysed together. -/
theorem ends_analyseRules (catalogue : Catalogue) (o : Options) (schema : Schema)
    (sampler : Sampler) (rules : List Rule) (a : AnalysisRun) :
    (analyseRules catalogue o schema sampler rules).Ends a
      (MeetsUncut catalogue o schema sampler (a.space.countUses rules) (bindInterrupt a))
      (fun _ _ => True) fun _ a' =>
      (∀ rank, ¬ (a.space.countUses rules).Used rank →
        a'.space.levels? rank = (a.space.countUses rules).levels? rank) ∧
      ((∃ rank, (a.space.countUses rules).Used rank) → ∃ b requests samples,
        Sampled catalogue o schema sampler (a.space.countUses rules) (bindInterrupt a) b requests
          samples ∧
        ∀ rank, (a.space.countUses rules).Used rank →
          CarriesOwn b requests samples a'.space rank) := by
  refine .change_bind (.get_bind ?_)
  split
  · rename_i hunused
    refine .ret ⟨fun _ _ => rfl, fun ⟨rank, hused⟩ => ?_⟩
    rw [← Space.mem_usedDimensions] at hused
    exact absurd hused (hunused ▸ List.not_mem_nil)
  · exact (ends_analyseDimensions catalogue o schema sampler
      { a with space := a.space.countUses rules }).imp fun _ _ ⟨hunused, hused⟩ =>
        ⟨hunused, fun _ => hused⟩

/-- Nothing is left of an analysis that is abandoned. -/
theorem abandoned_abandon {e : BuildError} {a₁ : AnalysisRun}
    (hcuts : a.space.SameCuts (abandon e a₁).space) : Abandoned e a (abandon e a₁) where
  state := rfl
  cuts := hcuts
  dimensions := by
    intro d hd
    simp only [abandon, Space.clearLinks, Space.clearLevels, List.map_map, List.mem_map] at hd
    obtain ⟨d₀, -, rfl⟩ := hd
    exact ⟨rfl, rfl⟩
  partitions := by
    intro p hp
    simp only [abandon, Space.clearLinks, Space.clearLevels, List.mem_map] at hp
    obtain ⟨p₀, -, rfl⟩ := hp
    exact ⟨rfl, rfl⟩

/-- An analysis is all or nothing, whatever the schema, the rules, the sampler and the requests to
stop.  It succeeds, and the dimensions that rules need carry the partiles of their own columns; or
it fails, and nothing is left of it and of former ones; or else it meets a column that cannot be
cut.  The dimensions, the partitions with their axes, and the parts with their costs stay.

The rules of dimensions name parts that fit: on others the program may end while it binds them. -/
theorem all_or_nothing (catalogue : Catalogue) (o : Options) (schema : Schema) (sampler : Sampler)
    (rules : List Rule) (a : AnalysisRun) (hspace : a.space.NamesFit) :
    match complete? catalogue o schema sampler rules a with
    | some (.ok (), a') => Succeeded catalogue o schema sampler rules a a'
    | some (.error e, a') => Abandoned e a a'
    | none => Uncut catalogue o schema sampler rules a := by
  have hends := ends_analyseRules catalogue o schema sampler rules a
  unfold Ends at hends
  cases hcomplete : complete? catalogue o schema sampler rules a with
  | none =>
    have hrun : (analyseRules catalogue o schema sampler rules).run a = none :=
      Option.map_eq_none_iff.mp hcomplete
    rw [hrun] at hends
    exact MeetsUncut.uncut hends
  | some ending =>
    obtain ⟨result, a'⟩ := ending
    have hcuts := sameCuts_complete? hcomplete
    obtain ⟨a₁, hrun, rfl⟩ := complete?_eq_some.mp hcomplete
    rw [hrun] at hends
    cases result with
    | error e => exact abandoned_abandon hcuts
    | ok u =>
      obtain ⟨hunused, hused⟩ := hends
      have hneeds : ∀ rank, (a.space.countUses rules).Used rank ↔ a.space.Needs rules rank :=
        fun _ => ⟨Space.needs_of_used, Space.used_of_needs hspace.wellFounded⟩
      have hsame := Space.SameLevels.of_reset (Space.resetUses_countUses a.space rules)
      simp only [hneeds] at hunused hused
      exact ⟨rfl, hcuts, hused, fun rank h => (hunused rank h).trans (hsame.levels?_eq rank)⟩

end Analysis

namespace Kinds

/-- The start of an analysis of kinds. -/
def start : AnalysisRun := request.analysisStart (request.registry .default) .never

theorem namesFit_start : start.space.NamesFit where
  wellFounded := wellPosed_request.wellFounded (.refl _)
  named := (wellPosed_request.wellShaped (.refl _)).named

/-- An analysis of kinds with samples, and one whose sampler was stopped. -/
theorem analyses_end : start.space.NamesFit ∧
    (∃ a, Analysis.complete? .default sparse schema (Baskets.sampler (.symbol values)) [count]
        start = some (.ok (), a) ∧
      Analysis.Succeeded .default sparse schema (Baskets.sampler (.symbol values)) [count]
        start a) ∧
    ∃ a, Analysis.complete? .default sparse schema (.always (.error .interrupted)) [count] start =
        some (.error .interrupted, a) ∧
      Analysis.Abandoned .interrupted start a := by
  refine ⟨namesFit_start, ?_, ?_⟩
  · obtain ⟨analyser, hcomplete⟩ := complete?_request
    have hend : Analysis.complete? .default sparse schema (Baskets.sampler (.symbol values))
        [count] start = some (.ok (), ⟨analyser, space 1 (some groups), .never, none⟩) := hcomplete
    have h := Analysis.all_or_nothing .default sparse schema (Baskets.sampler (.symbol values))
      [count] start namesFit_start
    rw [hend] at h
    exact ⟨_, hend, h⟩
  · obtain ⟨a, hend⟩ : ∃ a, Analysis.complete? .default sparse schema
        (.always (.error .interrupted)) [count] start = some (.error .interrupted, a) := ⟨_, rfl⟩
    have h := Analysis.all_or_nothing .default sparse schema (.always (.error .interrupted))
      [count] start namesFit_start
    rw [hend] at h
    exact ⟨a, hend, h⟩

end Kinds

namespace Baskets

/-- An analysis of prices that are adjacent doubles does not come to an end, if the logarithm of
their middle is not far off: the request is well posed and each column it asks for is served, but
neither an error nor partiles are left. -/
theorem close_prices_break : priceRequest.WellPosed .default ∧
    (∀ s requests, priceRequest.Asks .default .default .never s requests →
      (sampler adjacent).Answers s requests) ∧
    ∀ magnitude : ℤ, -100 ≤ magnitude → magnitude < 100 →
      magnitude = Scalar.floorInt32 (Float.log10 ((Partile.lowMean Partile.closeLower
        Partile.closeUpper + Partile.highMean Partile.closeLower Partile.closeUpper) / 2).abs) + 1 →
      Analysis.complete? .default .default schema (sampler adjacent) priceRequest.rules
        (priceRequest.analysisStart (priceRequest.registry .default) .never) = none :=
  ⟨wellPosed_priceRequest, adjacent_answers, fun _ hleast hmost hmagnitude =>
    complete?_adjacent (Partile.ofContinuous_closeSamples
      (Partile.readableMean_close hleast hmost hmagnitude))⟩

end Baskets

end FeatureSynth
