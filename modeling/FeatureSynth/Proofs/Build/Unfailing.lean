/-
# Builds that cannot fail

A build whose candidates are feasible ends in a schema, unless it is stopped.  At every point
its state is steady, so no step fails, and at the end the schema in work is well formed.

Which dimensions the candidates use is counted before these are bound.  The counts are closed:
the rules of dimensions in use name parts that are located, as the parts of candidates are, and
every part of a candidate is cut along dimensions in use.  Once these are bound, candidates can
go into blocks.  What is marked and moved at the end was created before, and is there.
-/
import FeatureSynth.Proofs.Build.FeasibleBlocks
import FeatureSynth.Proofs.Build.FeasibleDimensions

namespace FeatureSynth

namespace BuildState

/-- A steady state that a build of some candidates has come to, with the new fields there. -/
structure Underway (schema : Schema) (b₀ : BuildState) (new : NewFields) (b : BuildState) :
    Prop where
  proceeds : Proceeds schema b₀ b
  present : ∀ turn ∈ new, b.HasCore turn.1.className (·.name = turn.2)

namespace Underway

variable {schema : Schema} {b₀ b b' : BuildState} {new : NewFields} {r : Rule} {n : String}

theorem step (h : Underway schema b₀ new b) (hp : Proceeds schema b b') :
    Underway schema b₀ new b' :=
  ⟨h.proceeds.trans hp, fun turn hturn => hp.grew.hasCore (h.present turn hturn)⟩

theorem add (h : Underway schema b₀ new b) (hn : b.HasCore r.className (·.name = n)) :
    Underway schema b₀ (new ++ [(r, n)]) b := by
  refine ⟨h.proceeds, fun turn hturn => ?_⟩
  rcases List.mem_append.mp hturn with hold | hlast
  · exact h.present turn hold
  · obtain rfl := List.mem_singleton.mp hlast
    exact hn

/-- The state may be another in all but schema, registry and ledgers. -/
theorem of_eq (h : Underway schema b₀ new b) (hs : b'.schema = b.schema)
    (hg : b'.registry = b.registry)
    (hc : (b'.createdFields, b'.createdBlocks) = (b.createdFields, b.createdBlocks))
    (hsame : Build.SameLedgers b b') : Underway schema b₀ new b' :=
  h.step (Build.proceeds_of_eq h.proceeds.steady hs hg hc hsame)

theorem class_of_new (h : Underway schema b₀ new b) :
    ∀ p ∈ new.paths, p.className ∈ schema.entities.map (·.name) := by
  intro p hp
  obtain ⟨⟨r, n⟩, hturn, rfl⟩ := List.mem_map.mp hp
  obtain ⟨e, -, he, -⟩ := h.present (r, n) hturn
  exact h.proceeds.steady.class_of_entity? he

end Underway

end BuildState

namespace Build

open BuildState

variable {schema : Schema} {b b₀ b' : BuildState} {r : Rule} {o : Options} {n : String}
variable {new : NewFields} {rules : List Rule}

/-! ## Before the candidates -/

/-- The parts of rules are cut along bound dimensions once the dimensions that the rules use are
bound. -/
theorem axesBound_of_bound {s : Space} {u : Unit} (hs : s.WellFounded)
    (hlevels : s.SameLevels b'.space)
    (hrun : (bindDimensions o).Gives { b with space := s.countUses rules } u b') (hr : r ∈ rules) :
    r.PartsIn b'.space.AxesBound := by
  intro part hpart p hp a ha
  have hcounted : s.SameLevels (s.countUses rules) := .of_reset (Space.resetUses_countUses s rules)
  have hbound : (s.countUses rules).SameLevels b'.space := hcounted.symm.trans hlevels
  obtain ⟨p₀, hp₀, -, haxes⟩ := Space.partition_of_frame hbound.frame.symm hp
  have hused := (Space.usesClosed_countUses hs rules).named r hr part hpart p₀ hp₀ a (haxes ▸ ha)
  obtain ⟨d₀, hd₀, -⟩ := id hused
  obtain ⟨d, hd, -⟩ := hbound.dimension hd₀
  obtain ⟨name, hname, -⟩ := (linked_bindDimensions hrun).2 _ hused d hd
  exact ⟨.field name, d, name, hd, hname, rfl⟩

/-- The candidates of a build can be prepared, and then they may go into blocks. -/
theorem ensures_prepare {mode : Mode} (h : b.Steady schema) (hclear : b.space.Unlinked)
    (hs : b.space.WellFounded) (hrules : ∀ r ∈ rules, r.Feasible b.space schema) :
    (prepare o mode rules).Ensures b fun _ b' =>
      b'.Steady schema ∧ ∀ r ∈ rules, r.Blockable b'.space schema := by
  have hreset := Space.resetUses_countUses b.space rules
  have hcounted : b.space.SameLevels (b.space.countUses rules) := .of_reset hreset
  have hused : ∀ k, (b.space.countUses rules).Used k → ∀ d r,
      (b.space.countUses rules).dimensions[k]? = some d → d.origin = .rule r →
        r.PartsIn (b.space.countUses rules).Located := by
    intro k hk d r hd hr part hpart
    obtain ⟨d₀, hd₀, -, horigin, -⟩ := hcounted.symm.dimension hd
    exact (Space.located_of_used (fun x hx => (hrules x hx).located) hk hd₀ (horigin.trans hr) part
      hpart).of_sameLevels hcounted
  refine .change_bind rfl (.bind_of (ensures_bindDimensions (h.of_space hcounted.toSameCuts
    (Space.unlinked_of_reset hreset hclear)) (Space.unlinked_of_reset hreset hclear) hused)
    fun _ b₁ hbind h₁ => ?_)
  have hlevels := hcounted.trans h₁.levels
  have hblockable : ∀ r ∈ rules, r.Blockable b₁.space schema := fun r hr =>
    { toGrounded := (hrules r hr).toGrounded.of_sameCuts hlevels.toSameCuts
      located := fun part hpart => ((hrules r hr).located part hpart).of_sameLevels hlevels
      bound := axesBound_of_bound hs hlevels hbind hr }
  refine (Ensures.forM (I := fun b' => b'.Steady schema ∧ b'.space = b₁.space) (fun r hr b₂ h₂ => ?_)
    ⟨h₁.steady, rfl⟩).mono fun _ b' _ ⟨hsteady, hspace⟩ => ⟨hsteady, hspace ▸ hblockable⟩
  refine .bind_of (ensures_collectFields h₂.1 r) fun _ b₃ _ ⟨hp, hspace⟩ => ?_
  split
  · have hr₃ : r.Grounded b₃.space schema := by
      rw [hspace, h₂.2]
      exact (hblockable r hr).toGrounded
    exact (ensures_collectBlocks hp.steady hr₃).mono fun _ _ _ ⟨hp', hspace'⟩ =>
      ⟨hp'.steady, hspace'.trans (hspace.trans h₂.2)⟩
  · exact .ret ⟨hp.steady, hspace.trans h₂.2⟩

/-! ## Candidates -/

/-- Candidates can be realized in turn if each can. -/
theorem ensures_candidates {candidate : NewFields → Rule → Build NewFields}
    {I : NewFields → BuildState → Prop}
    (hlook : ∀ new b i, I new b → I new { b with interrupt := i })
    (hcandidate : ∀ r ∈ rules, ∀ new b, I new b → (candidate new r).Ensures b I)
    (h : I new b) : (candidates o candidate new rules).Ensures b I := by
  induction rules generalizing new b with
  | nil => exact .ret h
  | cons r rest ih =>
    unfold candidates
    refine .checkInterrupt_bind ?_
    have h₁ := hlook new b b.interrupt.look.2 h
    split
    · exact .ret h₁
    · exact .bind_of (hcandidate r List.mem_cons_self new _ h₁) fun new' b₂ _ h₂ =>
        ih (fun x hx => hcandidate x (List.mem_cons_of_mem _ hx)) h₂

/-- The field that has the whole formula of a candidate is there. -/
theorem hasCore_directField (h : Linked b) (h' : Linked b') (hmemos : b.MemosSound)
    (hrun : (directField r).Gives b n b') : b'.HasCore r.className (·.name = n) := by
  obtain ⟨-, -, -, φ, c, added, -, hc, hanswered, hg⟩ := directField_cases hrun hmemos
  obtain ⟨e, he⟩ := h.entity_of_class _ c hc
  obtain ⟨e', c', he', hc', hclass⟩ := hg.grows _ e c he hc
  rcases hanswered with ⟨hn, rfl⟩ | ⟨-, t, rfl⟩
  · exact h'.hasCore_of_knows ⟨e', c', he', hc', hclass.lookup_mono hn⟩
  · have hadded : (⟨(Field.derived n t φ).core, (φ, none)⟩ : Addition) ∈
        only r.className [⟨(Field.derived n t φ).core, (φ, none)⟩] r.className := by simp [only]
    exact ⟨e', c', he', hc', _, hclass.added_mem hadded, rfl⟩

theorem ensures_directCandidate (h : Underway schema b₀ new b) (hmemos : b.MemosSound)
    (hr : r.Feasible b₀.space schema) : (directCandidate new r).Ensures b fun new' b' =>
      Underway schema b₀ new' b' ∧ b'.MemosSound := by
  have hsteady := h.proceeds.steady
  refine .bind_of (ensures_directField hsteady (hr.settles h.proceeds.settles))
    fun n b₁ hrun hp => .get_bind ?_
  have h₁ := h.step hp
  have hn := hasCore_directField hsteady.linked hp.steady.linked hmemos hrun
  obtain ⟨-, hmemos₁, -⟩ := directField_cases hrun hmemos
  split
  · split
    · exact .ret ⟨h₁, hmemos₁⟩
    · exact .ret ⟨h₁.add hn, hmemos₁⟩
  · refine .bind_of (ensures_markCandidate hp.steady hn r.cost) fun _ b₂ hmark ⟨hp', _⟩ => .ret ?_
    obtain ⟨_, _, -, -, rfl⟩ := gives_edit.mp hmark
    exact ⟨h₁.step hp', (KeepsMemos.of_eq rfl rfl).2 hmemos₁⟩

theorem ensures_sharedCandidate {mode : Mode} (h : Underway schema b₀ new b)
    (hplain : mode = .sparse → schema.Apart) (hr : r.Blockable b₀.space schema) :
    (sharedCandidate o mode new r).Ensures b fun new' b' => Underway schema b₀ new' b' := by
  have hr₁ := hr.settles h.proceeds.settles
  have last : ∀ {n : String} {b₁ : BuildState}, Realizes schema b r n b₁ → (do
      let isNew := (b.fieldOf? r).isNone && (← get).isCreated r.className n
      if isNew && !new.has r.className n then return new ++ [(r, n)]
      else
        markCandidate r.className n r.cost
        return new : Build NewFields).Ensures b₁ (Underway schema b₀) := by
    rintro n b₁ ⟨hp, hn⟩
    have h₁ := h.step hp
    refine .get_bind ?_
    dsimp only
    split
    · exact .ret (h₁.add hn)
    · exact .bind_of (ensures_markCandidate hp.steady hn r.cost) fun _ b₂ _ hmarked =>
        .ret (h₁.step hmarked.1)
  unfold sharedCandidate
  refine .get_bind ?_
  dsimp only
  split
  · rename_i hsparse
    have hmode : mode = .sparse := by
      rw [Bool.and_eq_true, beq_iff_eq] at hsparse
      exact hsparse.1
    exact .bind_of (ensures_sparseField (hplain hmode) r h.proceeds.steady hr₁)
      fun _ _ _ hn => last hn
  · exact .bind_of (ensures_sharedField r h.proceeds.steady hr₁.toFeasible) fun _ _ _ hn => last hn

/-- New fields can be marked. -/
theorem ensures_markNew (h : Underway schema b₀ new b) :
    (markNew new).Ensures b fun laid b' => Underway schema b₀ laid b' := by
  have hsorted : Underway schema b₀ (new.sorted b.space) b :=
    ⟨h.proceeds, fun turn hturn => h.present turn ((List.mergeSort_perm _ _).mem_iff.mp hturn)⟩
  refine .get_bind (.bind_of (Ensures.forM (I := Underway schema b₀ (new.sorted b.space)) ?_ hsorted)
    fun _ b₁ _ h₁ => .ret h₁)
  rintro ⟨r, n⟩ hturn b₁ h₁
  exact (ensures_markCandidate h₁.proceeds.steady (h₁.present (r, n) hturn) r.cost).mono
    fun _ _ _ ⟨hp, _⟩ => h₁.step hp

/-- The candidates of a build can be realized. -/
theorem ensures_realize (h : b.Steady schema) (hclear : b.space.Unlinked) (hs : b.space.WellFounded)
    (hmemos : b.MemosSound) (hplain : Mode.ofOptions o = .sparse → schema.Apart)
    (hrules : ∀ r ∈ rules, r.Feasible b.space schema) :
    (realize o rules).Ensures b fun laid b' =>
      b'.Steady schema ∧ ∀ p ∈ laid.paths, p.className ∈ schema.entities.map (·.name) := by
  have hmarked : ∀ {b₀ new b₁}, Underway schema b₀ new b₁ → (markNew new).Ensures b₁ fun laid b' =>
      b'.Steady schema ∧ ∀ p ∈ laid.paths, p.className ∈ schema.entities.map (·.name) :=
    fun h => (ensures_markNew h).mono fun _ _ _ h' => ⟨h'.proceeds.steady, h'.class_of_new⟩
  unfold realize
  split
  · refine .bind_of (ensures_candidates
      (I := fun new b' => Underway schema b new b' ∧ b'.MemosSound) (fun new b' i h' => ?_)
      (fun r hr new b' h' => ensures_directCandidate h'.1 h'.2 (hrules r hr)) ?_)
      fun new b' _ h' => hmarked h'.1
    · exact ⟨h'.1.of_eq rfl rfl rfl ⟨rfl, rfl, rfl⟩, (KeepsMemos.of_eq rfl rfl).2 h'.2⟩
    · exact ⟨⟨h.refl, fun _ hturn => absurd hturn List.not_mem_nil⟩, hmemos⟩
  · refine .bind_of (ensures_prepare h hclear hs hrules) fun _ b₁ _ ⟨h₁, hblockable⟩ => ?_
    refine .bind_of (ensures_candidates (I := Underway schema b₁) (fun new b' i h' => ?_)
      (fun r hr new b' h' => ensures_sharedCandidate h' hplain (hblockable r hr)) ?_)
      fun new b' _ h' => hmarked h'
    · exact h'.of_eq rfl rfl rfl ⟨rfl, rfl, rfl⟩
    · exact ⟨h₁.refl, fun _ hturn => absurd hturn List.not_mem_nil⟩

/-! ## Layout -/

/-- The descriptor of a partition can be moved, for it is derived and so no member, and the block
of its parts. -/
theorem ensures_movePartition (h : b.Steady schema) (hplain : schema.Apart) {p : Partition}
    (hp : p ∈ b.space.partitions) :
    (movePartition p).Ensures b fun _ b' => Proceeds schema b b' ∧ SameLedgers b b' := by
  have hclass := (h.tables p hp).1
  unfold movePartition
  refine .bind_of (ensures_edit h hclass (moves_moveDescriptor p).tidies fun e he => ?_)
    fun _ b₁ _ ⟨hp₁, hsame⟩ => ?_
  · refine ⟨_, rfl, ?_⟩
    cases hP : p.descriptorField with
    | none => exact h.inOrder he
    | some P =>
      obtain ⟨e', c, he', hc⟩ := h.exists_class hclass
      obtain rfl : e = e' := Option.some.inj (he.symm.trans he')
      refine (h.inOrder he).moveFieldToTail fun f hf => ?_
      have hmem := List.mem_of_find?_eq_some hf
      obtain ⟨φ, hφ⟩ := h.linked.formula_of_descriptor hp hP he hmem
        (by simpa using List.find?_some hf)
      exact (h.tight hplain _ e c he hc).apart f.core (Entity.core_mem_cores hmem)
        (Option.isSome_iff_exists.mpr ⟨φ, hφ⟩)
  · cases p.tableBlock with
    | none => exact .ret ⟨hp₁, hsame⟩
    | some B =>
      exact (ensures_moveBlock hp₁.steady hclass B).mono fun _ _ _ ⟨hp₂, hsame'⟩ =>
        ⟨hp₁.trans hp₂, hsame.trans hsame'⟩

theorem ensures_arrangeBlocks (h : b.Steady schema) (hplain : schema.Apart) :
    arrangeBlocks.Ensures b fun _ => Proceeds schema b := by
  let I : BuildState → Prop := fun b' => Proceeds schema b b' ∧ SameLedgers b b'
  have hfirst : ∀ entry ∈ b.blockOf.entries.filter (·.2.isSome), ∀ b', I b' →
      (moveBlock entry.1.className (entry.2.getD "")).Ensures b' fun _ => I := by
    intro entry hentry b' ⟨hp, hsame⟩
    have hclass := h.blocks entry (List.mem_of_mem_filter hentry)
    exact (ensures_moveBlock hp.steady hclass _).mono fun _ _ _ ⟨hp', hsame'⟩ =>
      ⟨hp.trans hp', hsame.trans hsame'⟩
  have hsecond : ∀ p ∈ b.space.partitions, ∀ b', I b' → (movePartition p).Ensures b' fun _ => I := by
    intro p hp b' ⟨hproceeds, hsame⟩
    exact (ensures_movePartition hproceeds.steady hplain (hsame.space ▸ hp)).mono
      fun _ _ _ ⟨hproceeds', hsame'⟩ => ⟨hproceeds.trans hproceeds', hsame.trans hsame'⟩
  refine .get_bind (.bind_of (Ensures.forM hfirst ⟨h.refl, .refl b⟩) fun _ b₁ _ h₁ => ?_)
  refine (Ensures.forM (I := I) (fun p hp b' h' => hsecond p ?_ b' h') h₁).mono
    fun _ _ _ h' => h'.1
  obtain ⟨rank, -, hp⟩ := List.mem_filterMap.mp hp
  exact List.mem_of_getElem? hp

/-- Feasible candidates can be realized and laid out. -/
theorem ensures_layOut (h : b.Steady schema) (hclear : b.space.Unlinked) (hs : b.space.WellFounded)
    (hmemos : b.MemosSound) (hplain : Mode.ofOptions o = .sparse → schema.Apart)
    (hrules : ∀ r ∈ rules, r.Feasible b.space schema) :
    (layOut o rules).Ensures b fun _ => Steady schema := by
  refine .bind_of (ensures_realize h hclear hs hmemos hplain hrules) fun laid b₁ _ ⟨h₁, hlaid⟩ => ?_
  refine .bind_of (ensures_arrangeFields h₁ hlaid) fun _ b₂ _ ⟨hp, _⟩ => ?_
  split
  · rename_i hsparse
    exact (ensures_arrangeBlocks hp.steady (hplain (beq_iff_eq.mp hsparse))).mono
      fun _ _ _ hp' => hp'.steady
  · exact .ret hp.steady

/-- A whole build of feasible candidates ends in a schema that is well formed. -/
theorem ensures_complete (h : b.Steady schema) (hclear : b.space.Unlinked)
    (hs : b.space.WellFounded) (hmemos : b.MemosSound)
    (hplain : Mode.ofOptions o = .sparse → schema.Apart)
    (hrules : ∀ r ∈ rules, r.Feasible b.space schema) :
    (complete o rules).Ensures b fun _ b' => b'.schema.compile = .ok () := by
  refine .bind_of (ensures_layOut h hclear hs hmemos hplain hrules) fun _ b₁ _ h₁ => ?_
  have hcompile : (o.annotate b₁.schema).compile = .ok () :=
    (Schema.compile_of_core (Schema.core_annotate o b₁.schema)).trans h₁.compile
  exact .change_bind rfl (.get_bind (.of_gives (gives_lift.mpr ⟨hcompile, rfl⟩) rfl hcompile))

end Build

section Whole

variable {catalogue : Catalogue} {o : Options} {schema : Schema} {space : Space}
variable {rules : List Rule} {interrupt : Interrupt}

/-- A build over a space and a schema that fit, of feasible candidates, ends in a schema or is
stopped. -/
theorem ensures_runBuild (hschema : schema.compile = .ok ()) (hs : space.WellFounded)
    (hdims : space.Grounded schema)
    (htables : ∀ p ∈ space.partitions, p.parentClass ∈ schema.entities.map (·.name) ∧
      p.className ∈ schema.entities.map (·.name))
    (hplain : Mode.ofOptions o = .sparse → schema.Apart)
    (hrules : ∀ r ∈ rules, r.Feasible space schema) :
    (Build.complete o rules).Ensures (.start catalogue o schema space interrupt)
      fun _ b' => b'.schema.compile = .ok () := by
  have hmemos : (BuildState.start catalogue o schema space interrupt).MemosSound := by
    intro C c hc
    rw [BuildState.class?_start] at hc
    obtain ⟨e, -, rfl⟩ := Option.map_eq_some_iff.mp hc
    exact ClassRecord.memoSound_collect catalogue schema e
  have hlevels := Space.SameLevels.clearLinks space
  refine Build.ensures_complete (BuildState.steady_start catalogue o interrupt hschema hdims htables)
    (Space.unlinked_clearLinks space) (hs.of_frame (Space.frame_clearLinks space)) hmemos hplain
    fun r hr => ⟨(hrules r hr).toGrounded.of_sameCuts hlevels.toSameCuts, fun part hpart => ?_⟩
  exact ((hrules r hr).located part hpart).of_sameLevels hlevels

end Whole

end FeatureSynth
