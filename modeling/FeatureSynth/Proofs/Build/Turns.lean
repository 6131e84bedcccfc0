/-
# Candidates in turn

Whatever the mode, a build is one loop: the candidates have their turns, in order, each
at a field, until as many new fields exist as the options allow.  A turn ends in one of
three ways.  Its field is counted, as a new one; it is a new one already, which only
occurs without sharing; or it is marked on the spot.

All that is said of which fields are used, and of how many, is said of a list of turns,
by induction on it: what one turn does is known from the three cases.
-/
import FeatureSynth.Proofs.Build.Marks
import FeatureSynth.Proofs.Build.Path
import FeatureSynth.Proofs.Build.Standard

namespace FeatureSynth

namespace Build

open BuildState

/-- The field of a candidate, in the mode that options ask for. -/
def candidateField (o : Options) (r : Rule) : Build String := do
  match Mode.ofOptions o with
  | .standard => directField r
  | .optimized => sharedField r
  | .sparse => if goesIntoBlock o (← get) r then sparseField r else sharedField r

/-- One candidate, in that mode. -/
def candidate (o : Options) : NewFields → Rule → Build NewFields :=
  match Mode.ofOptions o with
  | .standard => directCandidate
  | mode => sharedCandidate o mode

/-- What comes before the candidates, in that mode. -/
def ready (o : Options) (rules : List Rule) : Build Unit :=
  match Mode.ofOptions o with
  | .standard => return
  | mode => prepare o mode rules

/-- The order in which what was created is laid out, in that mode. -/
def arrange (o : Options) (new : NewFields) : Build Unit := do
  arrangeFields new.paths
  if Mode.ofOptions o == .sparse then arrangeBlocks

/-- A candidate has its turn, with the field of a name. -/
inductive Turn (o : Options) (r : Rule) (n : String) (new : NewFields) :
    NewFields → BuildState → BuildState → Prop
  | counted {b b'} (field : (candidateField o r).Gives b n b')
      (created : b'.isCreated r.className n = true) (first : new.has r.className n = false)
      (unnamed : Mode.ofOptions o ≠ .standard → b.fieldOf? r = none) :
      Turn o r n new (new ++ [(r, n)]) b b'
  | repeated {b b'} (field : (candidateField o r).Gives b n b')
      (standard : Mode.ofOptions o = .standard) (again : new.has r.className n = true) :
      Turn o r n new new b b'
  | marked {b b₁ b'} (field : (candidateField o r).Gives b n b₁)
      (mark : (markCandidate r.className n r.cost).Gives b₁ () b')
      (cause : b₁.isCreated r.className n = true → new.has r.className n = true ∨
        Mode.ofOptions o ≠ .standard ∧ (b.fieldOf? r).isSome = true) :
      Turn o r n new new b b'

/-- From a state on candidates had their turns, and these are the new fields. -/
inductive Turns (o : Options) (b₀ : BuildState) :
    List (Rule × String) → NewFields → BuildState → Prop
  | start : Turns o b₀ [] [] b₀
  | turn {turns new new' b b₁ b' r n} (before : Turns o b₀ turns new b)
      (check : checkInterrupt.Gives b () b₁) (room : isFull o new = false)
      (one : Turn o r n new new' b₁ b') : Turns o b₀ (turns ++ [(r, n)]) new' b'

variable {o : Options} {b₀ b b' : BuildState} {new new' : NewFields} {r : Rule} {u : Unit}
variable {rules : List Rule} {turns : List (Rule × String)}

/-! ## One turn -/

theorem turn_of_directCandidate (hmode : Mode.ofOptions o = .standard)
    (h : (directCandidate new r).Gives b new' b') : ∃ n, Turn o r n new new' b b' := by
  obtain ⟨n, b₁, hfield, h⟩ := gives_bind.mp h
  have hfield : (candidateField o r).Gives b n b₁ := by rwa [candidateField, hmode]
  rw [gives_get_bind] at h
  refine ⟨n, ?_⟩
  split at h
  · rename_i hcreated
    obtain ⟨rfl, rfl⟩ := gives_pure.mp h
    split
    · rename_i hagain
      exact .repeated hfield hmode hagain
    · rename_i hfirst
      exact .counted hfield hcreated (by simpa using hfirst) fun hne => absurd hmode hne
  · rename_i hcreated
    obtain ⟨_, b₂, hmark, hpure⟩ := gives_bind.mp h
    obtain ⟨rfl, rfl⟩ := gives_pure.mp hpure
    exact .marked hfield hmark fun hyes => absurd hyes hcreated

theorem turn_of_sharedCandidate (hmode : Mode.ofOptions o ≠ .standard)
    (h : (sharedCandidate o (Mode.ofOptions o) new r).Gives b new' b') :
    ∃ n, Turn o r n new new' b b' := by
  simp only [sharedCandidate, gives_get_bind] at h
  obtain ⟨n, b₁, hfield, h⟩ : ∃ n b₁, (candidateField o r).Gives b n b₁ ∧ (do
      let isNew := (b.fieldOf? r).isNone && (← get).isCreated r.className n
      if isNew && !new.has r.className n then return new ++ [(r, n)]
      else
        markCandidate r.className n r.cost
        return new : Build NewFields).Gives b₁ new' b' := by
    cases hm : Mode.ofOptions o with
    | standard => exact absurd hm hmode
    | optimized =>
      simp only [hm] at h
      obtain ⟨n, b₁, hfield, h⟩ := gives_bind.mp h
      exact ⟨n, b₁, by rwa [candidateField, hm], h⟩
    | sparse =>
      simp only [hm] at h
      split at h
      · rename_i hblock
        obtain ⟨n, b₁, hfield, h⟩ := gives_bind.mp h
        refine ⟨n, b₁, ?_, h⟩
        simp only [candidateField, hm, gives_get_bind]
        rwa [if_pos (by simpa using hblock)]
      · rename_i hblock
        obtain ⟨n, b₁, hfield, h⟩ := gives_bind.mp h
        refine ⟨n, b₁, ?_, h⟩
        simp only [candidateField, hm, gives_get_bind]
        rwa [if_neg (by simpa using hblock)]
  rw [gives_get_bind] at h
  refine ⟨n, ?_⟩
  dsimp only at h
  split at h
  · rename_i hnew
    simp only [Bool.and_eq_true, Bool.not_eq_true', Option.isNone_iff_eq_none] at hnew
    obtain ⟨rfl, rfl⟩ := gives_pure.mp h
    exact .counted hfield hnew.1.2 hnew.2 fun _ => hnew.1.1
  · rename_i hold
    obtain ⟨_, b₂, hmark, hpure⟩ := gives_bind.mp h
    obtain ⟨rfl, rfl⟩ := gives_pure.mp hpure
    refine .marked hfield hmark fun hcreated => ?_
    cases hhas : new'.has r.className n with
    | true => exact .inl rfl
    | false =>
      refine .inr ⟨hmode, ?_⟩
      rw [hcreated, hhas] at hold
      exact Option.isSome_iff_ne_none.mpr (by simpa using hold)

theorem turn_of_candidate (h : (candidate o new r).Gives b new' b') :
    ∃ n, Turn o r n new new' b b' := by
  cases hmode : Mode.ofOptions o with
  | standard =>
    simp only [candidate, hmode] at h
    exact turn_of_directCandidate hmode h
  | optimized | sparse =>
    simp only [candidate, hmode] at h
    exact turn_of_sharedCandidate (by simp [hmode]) (by rwa [hmode])

/-! ## What holds along turns -/

section Along

variable {A : Rule → Prop} {P : {α : Type} → Build α → Prop}

theorem MemberParts.candidateField (hP : MemberParts A P)
    (hdirect : Mode.ofOptions o = .standard → P (directField r)) (hr : A r) :
    P (candidateField o r) := by
  unfold Build.candidateField
  split
  · exact hdirect ‹_›
  · exact hP.toFieldParts.sharedField r hr
  · refine hP.closed.bind hP.closed.get fun b => ?_
    split
    · exact hP.sparseField r hr
    · exact hP.toFieldParts.sharedField r hr

end Along

/-- What fields and marks respect, a turn respects. -/
theorem Turn.respects {R : BuildState → BuildState → Prop} (hR : Chained R)
    (hfield : ∀ r, Respects R (candidateField o r))
    (hmark : ∀ C n cost, Respects R (markCandidate C n cost)) {n : String}
    (h : Turn o r n new new' b b') : R b b' := by
  cases h with
  | counted field => exact hfield _ field
  | repeated field => exact hfield _ field
  | marked field mark => exact hR.trans (hfield _ field) (hmark _ _ _ mark)

/-- What looks at the interrupt respect as well, turns respect. -/
theorem Turns.respects {R : BuildState → BuildState → Prop} (hR : Chained R)
    (hcheck : Respects R checkInterrupt) (hfield : ∀ r, Respects R (candidateField o r))
    (hmark : ∀ C n cost, Respects R (markCandidate C n cost)) (h : Turns o b₀ turns new b) :
    R b₀ b := by
  induction h with
  | start => exact hR.refl b₀
  | turn before check room one ih =>
    exact hR.trans (hR.trans ih (hcheck check)) (one.respects hR hfield hmark)

theorem grew_candidateField (r : Rule) : Respects Grew (candidateField o r) :=
  blockParts_grew.members.candidateField (fun _ => grew_directField r) trivial

theorem Turns.grew (h : Turns o b₀ turns new b) : Grew b₀ b :=
  h.respects chained_grew (closed_checkInterrupt parts_grew) grew_candidateField
    firstParts_grew.mark

/-! ## New fields -/

theorem has_iff_mem_paths {C n : String} : new.has C n = true ↔ ⟨C, n⟩ ∈ new.paths := by
  rw [has_iff]
  constructor
  · rintro ⟨x, hx, hC⟩
    exact List.mem_map.mpr ⟨(x, n), hx, congrArg (FieldPath.mk · n) hC⟩
  · intro h
    obtain ⟨⟨x, m⟩, hx, hpath⟩ := List.mem_map.mp h
    obtain ⟨hC, hn⟩ := FieldPath.mk.inj hpath
    exact ⟨x, hn ▸ hx, hC⟩

/-- New fields stay new fields. -/
theorem Turn.paths_subset {n : String} (h : Turn o r n new new' b b') : new.paths ⊆ new'.paths := by
  cases h with
  | counted => exact List.map_subset _ (List.subset_append_left _ _)
  | repeated => exact List.Subset.refl _
  | marked => exact List.Subset.refl _

/-- New fields are those of turns, in their order. -/
theorem Turns.new_sublist (h : Turns o b₀ turns new b) : new.Sublist turns := by
  induction h with
  | start => exact .refl _
  | turn before check room one ih =>
    cases one with
    | counted => exact ih.append (.refl _)
    | repeated => exact ih.trans (List.sublist_append_left _ _)
    | marked => exact ih.trans (List.sublist_append_left _ _)

/-- There are no more than the options allow. -/
theorem Turns.length_le {m : Nat} (hm : o.maxFields = some m) (h : Turns o b₀ turns new b) :
    new.length ≤ m := by
  induction h with
  | start => exact Nat.zero_le m
  | turn before check room one ih =>
    cases one with
    | counted =>
      simp only [isFull, hm, Option.any_some, decide_eq_false_iff_not, not_le] at room
      rw [List.length_append, List.length_singleton]
      exact room
    | repeated => exact ih
    | marked => exact ih

theorem Turns.paths_nodup (h : Turns o b₀ turns new b) : new.paths.Nodup := by
  induction h with
  | start => exact List.nodup_nil
  | turn before check room one ih =>
    cases one with
    | counted field created first =>
      rw [NewFields.paths, List.map_append, List.nodup_append]
      refine ⟨ih, List.nodup_singleton _, ?_⟩
      rintro _ hp _ hp' rfl
      rw [List.mem_singleton.mp hp'] at hp
      rw [Bool.eq_false_iff] at first
      exact first (has_iff_mem_paths.mpr hp)
    | repeated => exact ih
    | marked => exact ih

theorem Grew.created (h : Grew b b') : ∀ p ∈ b.createdFields, p ∈ b'.createdFields := by
  intro p hp
  obtain ⟨added, blocks, hg⟩ := h
  exact (hg.created p.className p.name).mpr (.inl hp)

/-- New fields were created. -/
theorem Turns.new_created (h : Turns o b₀ turns new b) :
    ∀ p ∈ new.paths, p ∈ b.createdFields := by
  induction h with
  | start => exact fun p hp => absurd hp List.not_mem_nil
  | @turn turns new new' b b₁ b' r n before check room one ih =>
    have hcheck := Grew.created (closed_checkInterrupt parts_grew check)
    have hold : ∀ {b₂}, (candidateField o r).Gives b₁ n b₂ → ∀ p ∈ new.paths,
        p ∈ b₂.createdFields := fun field p hp =>
      Grew.created (grew_candidateField r field) p (hcheck p (ih p hp))
    cases one with
    | counted field created =>
      intro p hp
      rw [NewFields.paths, List.map_append] at hp
      rcases List.mem_append.mp hp with hp | hp
      · exact hold field p hp
      · rw [List.mem_singleton.mp hp]
        simpa [isCreated] using created
    | repeated field => exact hold field
    | marked field mark =>
      exact fun p hp => Grew.created (firstParts_grew.mark _ _ _ mark) p (hold field p hp)

/-! ## The loop -/

/-- The loop gives the candidates their turns: all of them, or as many as there is room for. -/
theorem turns_of_candidates : ∀ {rules : List Rule} {turns : List (Rule × String)}
    {new : NewFields} {b : BuildState}, Turns o b₀ turns new b →
    (candidates o (candidate o) new rules).Gives b new' b' → ∃ more b₁ i,
      Turns o b₀ (turns ++ more) new' b₁ ∧ b' = { b₁ with interrupt := i } ∧
        more.map (·.1) <+: rules ∧ (more.map (·.1) = rules ∨ isFull o new' = true)
  | [], turns, new, b, h, hrun => by
      rw [candidates, gives_pure] at hrun
      obtain ⟨rfl, rfl⟩ := hrun
      exact ⟨[], b', b'.interrupt, by rwa [List.append_nil], rfl, List.nil_prefix, .inl rfl⟩
  | r :: rest, turns, new, b, h, hrun => by
      rw [candidates, gives_bind] at hrun
      obtain ⟨_, b₁, hcheck, hrun⟩ := hrun
      split at hrun
      · rename_i hfull
        obtain ⟨rfl, rfl⟩ := gives_pure.mp hrun
        obtain ⟨-, rfl⟩ := gives_checkInterrupt.mp hcheck
        exact ⟨[], b, _, by rwa [List.append_nil], rfl, List.nil_prefix, .inr hfull⟩
      · rename_i hroom
        obtain ⟨new₁, b₂, hone, hrest⟩ := gives_bind.mp hrun
        obtain ⟨n, hturn⟩ := turn_of_candidate hone
        obtain ⟨more, b₃, i, hturns, hb', hprefix, hend⟩ :=
          turns_of_candidates (.turn h hcheck (by simpa using hroom) hturn) hrest
        refine ⟨(r, n) :: more, b₃, i, ?_, hb', ?_, ?_⟩
        · rwa [List.append_assoc] at hturns
        · exact List.cons_prefix_cons.mpr ⟨rfl, hprefix⟩
        · exact hend.imp (congrArg (r :: ·)) id

/-! ## Builds in two parts -/

/-- A build up to its new fields. -/
def gather (o : Options) (rules : List Rule) : Build NewFields := do
  ready o rules
  candidates o (candidate o) [] rules

/-- What a build gathers is marked, and all is put in order. -/
theorem layOut_gather (h : (layOut o rules).Gives b u b') :
    ∃ new b₁ laid b₂, (gather o rules).Gives b new b₁ ∧ (markNew new).Gives b₁ laid b₂ ∧
      (arrange o laid).Gives b₂ () b' := by
  obtain ⟨laid, b₂, hrealize, harrange⟩ := gives_bind.mp h
  obtain ⟨new, b₁, hgather, hmark⟩ : ∃ new b₁, (gather o rules).Gives b new b₁ ∧
      (markNew new).Gives b₁ laid b₂ := by
    cases hmode : Mode.ofOptions o with
    | standard =>
      simp only [realize, hmode] at hrealize
      obtain ⟨new, b₁, hloop, hmark⟩ := gives_bind.mp hrealize
      refine ⟨new, b₁, gives_bind.mpr ⟨(), b, ?_, ?_⟩, hmark⟩
      · simp only [ready, hmode]
        exact gives_pure.mpr ⟨rfl, rfl⟩
      · simpa only [candidate, hmode] using hloop
    | optimized | sparse =>
      simp only [realize, hmode] at hrealize
      obtain ⟨_, b₀, hprepare, hrealize⟩ := gives_bind.mp hrealize
      obtain ⟨new, b₁, hloop, hmark⟩ := gives_bind.mp hrealize
      refine ⟨new, b₁, gives_bind.mpr ⟨(), b₀, ?_, ?_⟩, hmark⟩
      · simpa only [ready, hmode] using hprepare
      · simpa only [candidate, hmode] using hloop
  exact ⟨new, b₁, laid, b₂, hgather, hmark, harrange⟩

/-- A build is readied, and the candidates have their turns. -/
theorem turns_of_gather (h : (gather o rules).Gives b new b') :
    ∃ b₀ turns b₁ i, (ready o rules).Gives b () b₀ ∧ Turns o b₀ turns new b₁ ∧
      b' = { b₁ with interrupt := i } ∧ turns.map (·.1) <+: rules ∧
      (turns.map (·.1) = rules ∨ isFull o new = true) := by
  obtain ⟨_, b₀, hready, hloop⟩ := gives_bind.mp h
  obtain ⟨turns, b₁, i, hturns, hb', hbegun, hend⟩ := turns_of_candidates .start hloop
  rw [List.nil_append] at hturns
  exact ⟨b₀, turns, b₁, i, hready, hturns, hb', hbegun, hend⟩

/-- A build up to the final costs: it is readied, the candidates have their turns, the new fields
are marked, and all is put in order. -/
theorem layOut_turns (h : (layOut o rules).Gives b u b') :
    ∃ b₀ turns new b₁ i laid b₂, (ready o rules).Gives b () b₀ ∧ Turns o b₀ turns new b₁ ∧
      turns.map (·.1) <+: rules ∧ (turns.map (·.1) = rules ∨ isFull o new = true) ∧
      (markNew new).Gives { b₁ with interrupt := i } laid b₂ ∧ (arrange o laid).Gives b₂ () b' := by
  obtain ⟨new, b₂, laid, b₃, hgather, hmark, harrange⟩ := layOut_gather h
  obtain ⟨b₀, turns, b₁, i, hready, hturns, rfl, hbegun, hend⟩ := turns_of_gather hgather
  exact ⟨b₀, turns, new, b₁, i, laid, b₃, hready, hturns, hbegun, hend, hmark, harrange⟩

/-- The rest of a build, whose new fields are in order. -/
def finish (o : Options) (new : NewFields) : Build Unit := do
  new.forM fun (r, name) => markCandidate r.className name r.cost
  arrange o new
  modify fun b => { b with schema := o.annotate b.schema }
  lift (← get).schema.compile

/-- A build finishes what it gathered and put in order. -/
theorem gives_complete_of_gather (hgather : (gather o rules).Gives b new b₀)
    (hsorted : new.sorted b₀.space = new') (h : (finish o new').Gives b₀ () b') :
    (complete o rules).Gives b () b' := by
  obtain ⟨_, b₁, hmarks, h⟩ := gives_bind.mp h
  obtain ⟨_, b₂, harrange, hend⟩ := gives_bind.mp h
  have hmark : (markNew new).Gives b₀ new' b₁ := by
    simp only [markNew, gives_get_bind, hsorted]
    exact gives_bind.mpr ⟨_, b₁, hmarks, gives_pure.mpr ⟨rfl, rfl⟩⟩
  have hrealize : (realize o rules).Gives b new' b₁ := by
    obtain ⟨_, b₃, hready, hloop⟩ := gives_bind.mp hgather
    cases hmode : Mode.ofOptions o with
    | standard =>
      simp only [ready, candidate, hmode] at hready hloop
      simp only [realize, hmode]
      obtain ⟨-, rfl⟩ := gives_pure.mp hready
      exact gives_bind.mpr ⟨new, b₀, hloop, hmark⟩
    | optimized | sparse =>
      simp only [ready, candidate, hmode] at hready hloop
      simp only [realize, hmode]
      exact gives_bind.mpr ⟨_, b₃, hready, gives_bind.mpr ⟨new, b₀, hloop, hmark⟩⟩
  exact gives_bind.mpr ⟨_, b₂, gives_bind.mpr ⟨new', b₁, hrealize, harrange⟩, hend⟩

/-- Two new fields that come the wrong way round are swapped. -/
theorem sorted_swapped {s : Space}
    (h : (match new with | [x, y] => s.compareCostName x.1 y.1 == .gt | _ => false) = true) :
    new.sorted s = new.reverse := by
  split at h
  · rename_i x y
    rw [beq_iff_eq] at h
    simp [NewFields.sorted, List.mergeSort, List.MergeSort.Internal.splitInTwo, h]
  · cases h

/-- Of three new fields the last is put first, if it belongs before the other two and these come the
right way round. -/
theorem sorted_rotated {s : Space}
    (h : (match new with
      | [x, y, z] => s.compareCostName x.1 y.1 != .gt && s.compareCostName x.1 z.1 == .gt
      | _ => false) = true) :
    new.sorted s = new.rotate 2 := by
  split at h
  · simp only [Bool.and_eq_true, bne_iff_ne, beq_iff_eq] at h
    simp [NewFields.sorted, List.mergeSort, List.MergeSort.Internal.splitInTwo, h]
  · cases h

section Parts

variable (catalogue : Catalogue) (o : Options) (schema : Schema) (space : Space) (rules : List Rule)

/-- What a build gathers that nothing interrupts. -/
def gathered : Except BuildError NewFields × BuildState :=
  (gather o rules).run (.start catalogue o schema space .never)

def gatheredFields : NewFields := (gathered catalogue o schema space rules).1.toOption.getD []

/-- What such a build ends with, if it puts its new fields in a given order. -/
def finished (laid : NewFields) : Except BuildError Unit × BuildState :=
  (finish o laid).run (gathered catalogue o schema space rules).2

variable {catalogue o schema space rules}

theorem runBuild_of_finished {laid : NewFields}
    (hgathered : (gathered catalogue o schema space rules).1.isOk = true)
    (hsorted : (gatheredFields catalogue o schema space rules).sorted
      (gathered catalogue o schema space rules).2.space = laid)
    (hfinished : (finished catalogue o schema space rules laid).1.isOk = true) :
    runBuild catalogue o schema space rules .never =
      (.ok (), (finished catalogue o schema space rules laid).2) := by
  have hfields : (gathered catalogue o schema space rules).1 =
      .ok (gatheredFields catalogue o schema space rules) := by
    unfold gatheredFields
    cases hok : (gathered catalogue o schema space rules).1 with
    | ok new => rfl
    | error e => rw [hok] at hgathered; cases hgathered
  have hgather : (gather o rules).Gives (.start catalogue o schema space .never)
      (gatheredFields catalogue o schema space rules) (gathered catalogue o schema space rules).2 :=
    Prod.ext hfields rfl
  exact gives_complete_of_gather hgather hsorted (run_eq_of_isOk hfinished)

end Parts

end Build

end FeatureSynth
