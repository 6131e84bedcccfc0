/-
# The order of fields where no blocks are built

After a build without blocks every class shows three layers: the fields it had, in their
order; the fields counted as new in the turns of candidates, in the order of cost and name
of these; and where fields are shared, all other created fields, in the order in which the
ledger first names them.

The last move decides.  It goes through the new fields and then through the ledger, and
what it meets a second time it passes by.  Since every created field is new or in the
ledger, it leaves none of them where it was.
-/
import FeatureSynth.Proofs.Build.Credited

namespace FeatureSynth

/-- What is sorted by an order that is lawful on it is in order. -/
theorem LawfulOn.pairwise_mergeSort {α : Type} {P : α → Prop} {order : α → α → Ordering}
    (h : LawfulOn P order) {l : List α} (hl : ∀ x ∈ l, P x) :
    (l.mergeSort fun x y => order x y != .gt).Pairwise fun x y => order x y ≠ .gt := by
  let below : {x // P x} → {x // P x} → Bool := fun x y => order x y != .gt
  have hmap : (l.attachWith P hl).map Subtype.val = l := List.attachWith_map_subtype_val hl
  have hsorted : ((l.attachWith P hl).mergeSort below).Pairwise fun x y => below x y = true := by
    refine List.pairwise_mergeSort (fun x y z hxy hyz => ?_) (fun x y => ?_) _
    · simp only [below, bne_iff_ne] at hxy hyz ⊢
      rw [h.chains x y z x.2 y.2 z.2 hxy hyz]
      cases hord : order x y <;> simp_all
    · simp only [below, h.swap x y x.2 y.2]
      cases order x y <;> rfl
  have hval := (hsorted.imp (S := fun x y : {x // P x} => order x y ≠ .gt) (by simp [below])).map
    (S := fun x y => order x y ≠ .gt) Subtype.val fun _ _ => id
  rwa [List.map_mergeSort (s := fun x y => order x y != .gt) fun _ _ _ _ => rfl, hmap] at hval

/-! ## New fields -/

/-- The fields counted as new in the turns of the candidates of a build, each with the candidate in
whose turn it was. -/
def Counted (catalogue : Catalogue) (o : Options) (schema : Schema) (space : Space)
    (rules : List Rule) (interrupt : Interrupt) (found : NewFields) : Prop :=
  ∃ b₀ turns b₁, (Build.ready o rules).Gives (.start catalogue o schema space interrupt) () b₀ ∧
    Build.Turns o b₀ turns found b₁ ∧ turns.map (·.1) <+: rules ∧
      (turns.map (·.1) = rules ∨ Build.isFull o found = true)

theorem NewFields.sorted_congr {s s' : Space} (h : s.SameCuts s') (new : NewFields) :
    new.sorted s' = new.sorted s := by
  rw [sorted, sorted, h.compareCostName]

theorem NewFields.mem_paths_sorted {s : Space} {new : NewFields} {p : FieldPath} :
    p ∈ (new.sorted s).paths ↔ p ∈ new.paths :=
  ((List.mergeSort_perm _ _).map _).mem_iff

/-! ## The ledger -/

namespace BuildState

/-- The place of the first entry of the ledger that names a field of a class. -/
def firstEntry (b : BuildState) (C n : String) : Nat :=
  b.fieldOf.entries.findIdx fun (r, name) => r.className == C && name == some n

/-- The name that an entry of the ledger has for a created field of a class, unless it is one of
those given. -/
def entryName (b : BuildState) (C : String) (names : List String) (entry : Rule × Option String) :
    Option String :=
  entry.2.filter fun n => entry.1.className == C && b.isCreated C n && !names.contains n

variable {b : BuildState} {C n : String} {names : List String} {entry : Rule × Option String}

theorem entryName_eq_some : b.entryName C names entry = some n ↔
    (entry.2 = some n ∧ entry.1.className = C) ∧ ⟨C, n⟩ ∈ b.createdFields ∧ n ∉ names := by
  simp only [entryName, Option.filter_eq_some_iff, Bool.and_eq_true, beq_iff_eq, isCreated,
    List.contains_iff_mem, Bool.not_eq_true', and_assoc]
  simp

/-- The created fields of a class that the ledger names, but for some. -/
theorem removeAll_namesIn_ledgerFields : (namesIn C (Build.ledgerFields b)).removeAll names =
    b.fieldOf.entries.filterMap (b.entryName C names) := by
  rw [namesIn, Build.ledgerFields, List.removeAll, List.filter_filterMap, List.map_filterMap,
    List.filter_filterMap]
  congr 1
  funext ⟨r, name⟩
  cases name with
  | none => rfl
  | some n =>
    by_cases hC : r.className = C
    · subst hC
      by_cases hcreated : b.isCreated r.className n = true <;>
        simp [entryName, Option.filter, hcreated]
    · by_cases hcreated : b.isCreated r.className n = true <;>
        simp [entryName, Option.filter, hcreated, hC]

/-- In the order of their first entries. -/
theorem pairwise_firstEntry :
    (b.fieldOf.entries.filterMap (b.entryName C names)).eraseDups.Pairwise fun n m =>
      b.firstEntry C n < b.firstEntry C m := by
  have hfirst : ∀ n ∈ (b.fieldOf.entries.filterMap (b.entryName C names)).eraseDups,
      b.fieldOf.entries.findIdx (b.entryName C names · == some n) = b.firstEntry C n := by
    intro n hn
    obtain ⟨entry, -, hentry⟩ := List.mem_filterMap.mp (List.mem_eraseDups.mp hn)
    have hnew := (entryName_eq_some.mp hentry).2
    unfold firstEntry
    congr 1
    funext ⟨r, name⟩
    rw [Bool.eq_iff_iff, beq_iff_eq, entryName_eq_some, and_iff_left hnew]
    simp [and_comm]
  refine (List.Pairwise.and_mem.mp pairwise_eraseDups).imp fun {n m} ⟨hn, hm, hlt⟩ => ?_
  rwa [hfirst n hn, hfirst m hm] at hlt

end BuildState

/-! ## Layers -/

/-- The layers of a class after a build: in front the fields it had, as they were; then its new
fields in the order given; then the others that were created, in the order of the ledger. -/
structure BuildState.Layers (b : BuildState) (new : List FieldPath) (e e' : Entity)
    (others : List String) : Prop where
  order : ∃ tail, e.ProlongedBy e' tail ∧ tail.map (·.name) = namesIn e.name new ++ others
  created : ∀ n, n ∈ namesIn e.name new ++ others ↔ ⟨e.name, n⟩ ∈ b.createdFields
  named : ∀ n ∈ others, ∃ r, (r, some n) ∈ b.fieldOf.entries ∧ r.className = e.name
  byLedger : others.Pairwise fun n m => b.firstEntry e.name n < b.firstEntry e.name m

namespace Build

open BuildState

variable {o : Options} {s : Space} {b₀ b₁ b b' : BuildState} {u : Unit} {C : String} {e : Entity}
variable {turns : List (Rule × String)} {new : NewFields} {rules : List Rule}
variable {paths : List FieldPath}

/-- Turns leave the cuts of the space as they are. -/
theorem Turns.sameCuts (h : Turns o b₁ turns new b) (hcuts : s.SameCuts b₁.space) :
    s.SameCuts b.space := by
  have hparts := memberParts_notesFor (s := s) (Q := fun _ => True) fun _ _ _ _ => trivial
  exact (h.respects (chained_notesFor s fun _ _ => True) notesFor_checkInterrupt
    (fun r => hparts.candidateField (fun _ => notesFor_directField r) trivial)
    (fun _ _ _ => notesFor_sameLedgers (tidying_sameLedgers.mark _ _ _)) hcuts).1

/-- The layers of a class once created fields are moved, if all of them are to be moved. -/
theorem layers_arrangeFields (h : Prolongs b₀ b) (hnodup : paths.Nodup)
    (hpaths : ∀ p ∈ paths, p ∈ b.createdFields)
    (hall : ∀ p ∈ b.createdFields, p ∈ paths ∨ p ∈ ledgerFields b)
    (hrun : (arrangeFields paths).Gives b u b') (he : b₀.schema.entity? C = some e) :
    ∃ e' others, b'.schema.entity? C = some e' ∧ b'.Layers paths e e' others ∧
      ((∀ p ∈ b.createdFields, p ∈ paths) → others = []) := by
  obtain rfl : e.name = C := Schema.name_of_entity? he
  simp only [arrangeFields, gives_get_bind] at hrun
  have hmoved : ∀ p ∈ paths ++ ledgerFields b, p ∈ b.createdFields := fun p hp =>
    (List.mem_append.mp hp).elim (hpaths p) mem_ledgerFields
  obtain ⟨-, e', tail, before, he', hprolonged, hbefore, htail, -⟩ :=
    moveFields_tail h hmoved hrun he
  obtain ⟨_, rfl, -⟩ := moveFields_spec hrun
  -- nothing that was created is passed by
  have hnone : before.filter (· ∉ (namesIn e.name (paths ++ ledgerFields b)).eraseDups) = [] := by
    refine List.filter_eq_nil_iff.mpr fun n hn => ?_
    have hmem : (⟨e.name, n⟩ : FieldPath) ∈ paths ++ ledgerFields b :=
      List.mem_append.mpr (hall _ ((hbefore n).mp hn))
    simpa using mem_namesIn.mpr hmem
  have hfirst := eraseDups_of_nodup (nodup_namesIn (C := e.name) hnodup)
  rw [hnone, List.nil_append, namesIn_append, List.eraseDups_append, hfirst,
    removeAll_namesIn_ledgerFields] at htail
  refine ⟨e', _, he', ⟨⟨tail, hprolonged, htail⟩, fun n => ?_, fun n hn => ?_, pairwise_firstEntry⟩,
    fun hcounted => ?_⟩
  · rw [List.mem_append, mem_namesIn, List.mem_eraseDups, ← removeAll_namesIn_ledgerFields,
      List.removeAll, List.mem_filter, mem_namesIn]
    constructor
    · exact fun hn => hn.elim (hpaths _) fun hledger => mem_ledgerFields hledger.1
    · intro hcreated
      by_cases hnew : (⟨e.name, n⟩ : FieldPath) ∈ paths
      · exact .inl hnew
      · exact .inr ⟨(hall _ hcreated).resolve_left hnew, by simpa [mem_namesIn] using hnew⟩
  · obtain ⟨⟨r, name⟩, hmem, hentry⟩ := List.mem_filterMap.mp (List.mem_eraseDups.mp hn)
    obtain ⟨⟨rfl, hC⟩, -⟩ := entryName_eq_some.mp hentry
    exact ⟨r, hmem, hC⟩
  · refine List.eq_nil_iff_forall_not_mem.mpr fun n hn => ?_
    obtain ⟨⟨r, name⟩, -, hentry⟩ := List.mem_filterMap.mp (List.mem_eraseDups.mp hn)
    obtain ⟨-, hcreated, hnew⟩ := entryName_eq_some.mp hentry
    exact hnew (mem_namesIn.mpr (hcounted _ hcreated))

theorem createdFields_markNew {laid : NewFields} (h : (markNew new).Gives b laid b') :
    b'.createdFields = b.createdFields := by
  have hchained : Chained fun b b' : BuildState => b'.createdFields = b.createdFields :=
    ⟨fun _ => rfl, fun h h' => h'.trans h⟩
  exact closed_markNew hchained.respects (fun _ _ _ _ _ _ hmark => (taken_of_mark hmark).2) new h

/-- The fields made for sharing are in the ledger when new fields are moved. -/
theorem mem_ledgerFields_of_turns {catalogue : Catalogue} {schema : Schema} {space : Space}
    {interrupt : Interrupt} (hmode : Mode.ofOptions o = .optimized) (hspace : space.WellFounded)
    (hready : (ready o rules).Gives (.start catalogue o schema space interrupt) u b₁)
    (hturns : Turns o b₁ turns new b) (hbegun : turns.map (·.1) <+: rules) {p : FieldPath}
    (hp : p ∈ b.createdFields) : p ∈ ledgerFields b := by
  have h₀ := untouched_start catalogue o schema space interrupt
  have hw : space.clearLinks.WellFounded := hspace.of_frame (Space.frame_clearLinks space)
  have hfree := fun k d => space.selectionField_of_clearLinks (k := k) (d := d)
  have ho := shareRules_of_mode (o := o) (by rw [hmode]; decide)
  simp only [ready, hmode] at hready
  obtain ⟨hshares, hbound⟩ := shares_prepare h₀ hw hfree rfl ho hready
  have hall := credited_prepare h₀ hw hfree rfl ho hready
  obtain ⟨hshares', -, hall'⟩ := hturns.credited h₀ hmode hshares hall fun turn hturn =>
    hbound turn.1 (hbegun.subset (List.mem_map_of_mem hturn))
  exact mem_ledgerFields_of_credited hshares' hp (hall' p hp)

/-- The layers of the classes right before the final costs. -/
theorem layers_layOut {catalogue : Catalogue} {schema : Schema} {space : Space}
    {interrupt : Interrupt} (hmode : Mode.ofOptions o ≠ .sparse) (hschema : schema.compile = .ok ())
    (hspace : space.WellFounded)
    (hlay : (layOut o rules).Gives (.start catalogue o schema space interrupt) u b) :
    ∃ found, Counted catalogue o schema space rules interrupt found ∧ (∀ x ∈ found, x.1 ∈ rules) ∧
      ∀ C e, schema.entity? C = some e → ∃ e' others, b.schema.entity? C = some e' ∧
        b.Layers (found.sorted space).paths e e' others ∧
        (Mode.ofOptions o = .standard → others = []) := by
  obtain ⟨b₀, turns, found, b₁, i, laid, b₂, hready, hturns, hbegun, hend, hmark, harrange⟩ :=
    layOut_turns hlay
  refine ⟨found, ⟨b₀, turns, b₁, hready, hturns, hbegun, hend⟩, fun x hx =>
    hbegun.subset (List.mem_map_of_mem (hturns.new_sublist.subset hx)), fun C e he => ?_⟩
  have hcuts : space.SameCuts b₁.space := hturns.sameCuts ((Space.sameCuts_clearLinks space).trans
    (attributed_ready rfl rfl hready).cuts)
  have hprolonged : Prolongs (.start catalogue o schema space interrupt) b₁ :=
    hturns.prolongs hmode (prolongs_ready (.start hschema rfl) hready)
  have hlooked : Prolongs (.start catalogue o schema space interrupt)
      { b₁ with interrupt := i } := hprolonged.of_eq rfl rfl
  have hmarked := prolongs_markNew hlooked hmark
  have hfields : b₂.createdFields = b₁.createdFields := (createdFields_markNew hmark).trans rfl
  have hledger : ledgerFields b₂ = ledgerFields b₁ := by
    unfold ledgerFields isCreated
    rw [(sameLedgers_markNew found hmark).fieldOf, hfields]
  obtain rfl : laid = found.sorted space := by
    simp only [markNew, gives_get_bind] at hmark
    obtain ⟨_, _, -, hpure⟩ := gives_bind.mp hmark
    obtain ⟨rfl, -⟩ := gives_pure.mp hpure
    exact found.sorted_congr hcuts
  obtain ⟨_, b₃, harrange, hpure⟩ := gives_bind.mp harrange
  rw [if_neg (by simpa using hmode)] at hpure
  obtain ⟨-, rfl⟩ := gives_pure.mp hpure
  have hcounted : ∀ p ∈ (found.sorted space).paths, p ∈ b₂.createdFields := fun p hp =>
    hfields ▸ hturns.new_created p (NewFields.mem_paths_sorted.mp hp)
  have hnodup : (found.sorted space).paths.Nodup :=
    (((List.mergeSort_perm _ _).map _).nodup_iff).mpr hturns.paths_nodup
  -- in the standard mode there was nothing before the turns
  have hstandard : Mode.ofOptions o = .standard →
      ∀ p ∈ b₂.createdFields, p ∈ (found.sorted space).paths := by
    intro hmode p hp
    rw [hfields] at hp
    refine NewFields.mem_paths_sorted.mpr ((hturns.created_new hmode hp).resolve_left fun hold => ?_)
    simp only [ready, hmode] at hready
    rw [(gives_pure.mp hready).2] at hold
    cases hold
  have hall : ∀ p ∈ b₂.createdFields,
      p ∈ (found.sorted space).paths ∨ p ∈ ledgerFields b₂ := by
    intro p hp
    cases hsort : Mode.ofOptions o with
    | standard => exact .inl (hstandard hsort p hp)
    | optimized =>
      rw [hledger]
      exact .inr (mem_ledgerFields_of_turns hsort hspace hready hturns hbegun (hfields ▸ hp))
    | sparse => exact absurd hsort hmode
  obtain ⟨e', others, he', hlayers, hothers⟩ :=
    layers_arrangeFields hmarked hnodup hcounted hall harrange he
  exact ⟨e', others, he', hlayers, fun hmode => hothers (hstandard hmode)⟩

end Build

section Whole

open BuildState

variable {catalogue : Catalogue} {o : Options} {schema : Schema} {space : Space}
variable {rules : List Rule} {interrupt : Interrupt} {b : BuildState}

/-- Where no blocks are built, the fields of every class end up in layers: the fields it had, the
new fields by cost and name of their candidates, and, only where fields are shared, the other
created fields by the ledger. -/
theorem runBuild_layers (hmode : Mode.ofOptions o ≠ .sparse) (hschema : schema.compile = .ok ())
    (hspace : space.WellFounded)
    (hbuild : runBuild catalogue o schema space rules interrupt = (.ok (), b)) :
    ∃ found, Counted catalogue o schema space rules interrupt found ∧
      (∀ P, space.Comparable P → (∀ r ∈ rules, r.PartsIn P) →
        (found.sorted space).Pairwise fun x y => space.compareCostName x.1 y.1 ≠ .gt) ∧
      ∀ e ∈ schema.entities, ∃ e' others, b.schema.entity? e.name = some e' ∧
        b.Layers (found.sorted space).paths e e' others ∧
        (Mode.ofOptions o = .standard → others = []) := by
  obtain ⟨b₁, hlay, rfl, -⟩ := runBuild_eq_ok hbuild
  obtain ⟨found, hcounted, hfound, hlayers⟩ := Build.layers_layOut hmode hschema hspace hlay
  refine ⟨found, hcounted, fun P hP hrules => ?_, fun e he => ?_⟩
  · exact ((Space.lawfulOn_compareCostNameBy _ hspace hP).comp (Q := fun x : Rule × String =>
      x.1.PartsIn P) Prod.fst fun _ => id).pairwise_mergeSort fun x hx => hrules _ (hfound x hx)
  · obtain ⟨e', others, he', hlayers, hothers⟩ :=
      hlayers e.name e (find?_of_nodup Entity.name (Schema.nodup_of_compile hschema).1 he)
    obtain ⟨⟨tail, hprolonged, htail⟩, hcreated, hnamed, hledger⟩ := hlayers
    refine ⟨_, others, (o.entity?_annotate _ _).trans (congrArg _ he'),
      ⟨⟨tail, ?_, htail⟩, hcreated, hnamed, hledger⟩, hothers⟩
    refine hprolonged.of_cores ?_
    rw [Entity.cores, List.map_map]
    exact List.map_congr_left fun f _ => core_annotateField o _ f

end Whole

open EarlyOrders in
/-- The mean of the early orders is new; the field that selects them comes behind it. -/
theorem earlyMean_layers :
    Mode.ofOptions .default ≠ .sparse ∧ schema.compile = .ok () ∧ space.WellFounded ∧
      build.1 = .ok () ∧
      (build.2.schema.entity? "Customer").map (fun e => e.fields.map (·.name)) =
        some ["Orders", meanField, earlyField] ∧
      ∃ found, Counted .default .default schema space [yearDay, mean] .never found ∧
        (∀ P, space.Comparable P → (∀ r ∈ [yearDay, mean], r.PartsIn P) →
          (found.sorted space).Pairwise fun x y => space.compareCostName x.1 y.1 ≠ .gt) ∧
        ∀ e ∈ schema.entities, ∃ e' others, build.2.schema.entity? e.name = some e' ∧
          build.2.Layers (found.sorted space).paths e e' others ∧
          (Mode.ofOptions .default = .standard → others = []) := by
  have hcompile : schema.compile = .ok () := eq_ok_of_isOk (by decide +kernel)
  have hbuild : build.1.isOk = true := by decide +kernel
  have hnames : (build.2.schema.entity? "Customer").map (fun e => e.fields.map (·.name)) =
      some ["Orders", meanField, earlyField] := by decide +kernel
  have hrun : runBuild .default .default schema space [yearDay, mean] .never = (.ok (), build.2) :=
    run_eq_of_isOk hbuild
  exact ⟨by decide, hcompile, wellFounded_space, eq_ok_of_isOk hbuild, hnames,
    runBuild_layers (by decide) hcompile wellFounded_space hrun⟩

end FeatureSynth
