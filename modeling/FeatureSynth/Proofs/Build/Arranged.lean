/-
# How blocks are arranged

When all else is done, a build with blocks moves every block of the ledger to the tail, and
then every partition that a block of the ledger uses.  Class by class these are two rows of
moves.  The first moves the members of blocks that the ledger names, and the second moves
descriptors and members of the blocks of parts.  A block that one of them moves is sorted in
the end.
-/
import FeatureSynth.Proofs.Build.Prolonged
import FeatureSynth.Proofs.Schema.Back

namespace FeatureSynth

/-- The class of a partition with its descriptor and the block of its parts at the tail. -/
def Partition.moveBack (p : Partition) (e : Entity) : Entity :=
  let e := match p.descriptorField with
    | some field => e.moveFieldToTail field
    | none => e
  match p.tableBlock with
  | some block => e.blockBack block
  | none => e

/-- Whether a field is the descriptor of a partition, or a member of the block of its parts. -/
def Partition.linksTo (p : Partition) (f : Field) : Bool :=
  p.descriptorField == some f.name || p.tableBlock.any (f.isIn ·)

namespace BuildState

variable {b : BuildState} {C B : String} {f : Field} {p : Partition}

/-- The ledger of blocks names a block of a class. -/
def NamesBlock (b : BuildState) (C B : String) : Prop :=
  ∃ r, (r, some B) ∈ b.blockOf.entries ∧ r.className = C

/-- A block of the ledger uses a partition. -/
def UsesPartition (b : BuildState) (p : Partition) : Prop :=
  ∃ r B rank, (r, some B) ∈ b.blockOf.entries ∧ Build.blockPartition? r = some rank ∧
    b.space.partitions[rank]? = some p

/-- The entries of the ledger that name a block. -/
def builtEntries (b : BuildState) : List (Rule × Option String) :=
  b.blockOf.entries.filter (·.2.isSome)

/-- The partitions that the blocks of the ledger use, each once, in order. -/
def usedPartitions (b : BuildState) : List Partition :=
  let ranks := (b.builtEntries.filterMap fun (r, _) => Build.blockPartition? r).eraseDups
  let ranks := ranks.mergeSort fun i j => b.space.comparePartitions i j != .gt
  ranks.filterMap fun rank => b.space.partitions[rank]?

theorem mem_usedPartitions : p ∈ b.usedPartitions ↔ b.UsesPartition p := by
  simp only [usedPartitions, builtEntries, List.mem_filterMap, List.mem_mergeSort,
    List.mem_eraseDups, List.mem_filter, UsesPartition]
  constructor
  · rintro ⟨rank, ⟨⟨r, name⟩, ⟨hr, hname⟩, hrank⟩, hp⟩
    obtain ⟨B, rfl⟩ := Option.isSome_iff_exists.mp hname
    exact ⟨r, B, rank, hr, hrank, hp⟩
  · rintro ⟨r, B, rank, hr, hrank, hp⟩
    exact ⟨rank, ⟨(r, some B), ⟨hr, rfl⟩, hrank⟩, hp⟩

/-- Whether a field is a member of a block of a class that the ledger names. -/
def inNamedBlock (b : BuildState) (C : String) (f : Field) : Bool :=
  (b.builtEntries.filter (·.1.className == C)).any fun entry => f.isIn (entry.2.getD "")

theorem inNamedBlock_iff : b.inNamedBlock C f = true ↔
    ∃ B, f.block = some B ∧ b.NamesBlock C B := by
  simp only [inNamedBlock, builtEntries, List.any_eq_true, List.mem_filter, beq_iff_eq, Field.isIn,
    NamesBlock]
  constructor
  · rintro ⟨⟨r, name⟩, ⟨⟨hr, hname⟩, hC⟩, hB⟩
    obtain ⟨B, rfl⟩ := Option.isSome_iff_exists.mp hname
    exact ⟨B, hB, r, hr, hC⟩
  · rintro ⟨B, hB, r, hr, hC⟩
    exact ⟨(r, some B), ⟨⟨hr, rfl⟩, hC⟩, hB⟩

/-- Whether a field of a class is moved with a partition that a block of the ledger uses. -/
def inUsedPartition (b : BuildState) (C : String) (f : Field) : Bool :=
  (b.usedPartitions.filter (·.parentClass == C)).any fun p => p.linksTo f

theorem inUsedPartition_iff : b.inUsedPartition C f = true ↔
    ∃ p, b.UsesPartition p ∧ p.parentClass = C ∧ p.linksTo f = true := by
  simp only [inUsedPartition, List.any_eq_true, List.mem_filter, beq_iff_eq, mem_usedPartitions]
  simp only [and_assoc]

end BuildState

namespace Build

open BuildState

variable {b b' : BuildState} {u : Unit} {C B : String} {e : Entity} {change more : Entity → Entity}
variable {m m' : Build Unit}

/-! ## Rows of changes -/

/-- A step that changes one class and nothing else. -/
def Changes (m : Build Unit) (C : String) (change : Entity → Entity) : Prop :=
  ∀ ⦃b u b'⦄, m.Gives b u b' → ∃ s, b' = { b with schema := s } ∧
    (∀ e, b.schema.entity? C = some e → s.entity? C = some (change e)) ∧
    ∀ D, C ≠ D → s.entity? D = b.schema.entity? D

theorem changes_pure (C : String) : Changes (pure ()) C id := by
  intro b u b' h
  obtain ⟨-, rfl⟩ := gives_pure.mp h
  exact ⟨_, rfl, fun _ he => he, fun _ _ => rfl⟩

theorem changes_edit (hname : ∀ e, (change e).name = e.name) :
    Changes (edit C fun e => .ok (change e)) C change := by
  intro b u b' h
  obtain ⟨e, _, he, hok, rfl⟩ := gives_edit.mp h
  cases hok
  refine ⟨_, rfl, fun d hd => ?_, fun D hD => ?_⟩
  · obtain rfl : e = d := Option.some.inj (he.symm.trans hd)
    exact Schema.entity?_setEntity he (hname e)
  · exact Schema.entity?_setEntity_ne ((hname e).trans (Schema.name_of_entity? he)) hD

theorem Changes.bind (h : Changes m C change) (h' : Changes m' C more) :
    Changes (m >>= fun _ => m') C (more ∘ change) := by
  intro b u b' hrun
  obtain ⟨_, b₁, hfirst, hrun⟩ := gives_bind.mp hrun
  obtain ⟨s, rfl, hC, hother⟩ := h hfirst
  obtain ⟨t, rfl, hC', hother'⟩ := h' hrun
  exact ⟨t, rfl, fun e he => hC' _ (hC e he), fun D hD => (hother' D hD).trans (hother D hD)⟩

/-- In a row of changes every class is changed by those that are its own. -/
theorem changes_forM {α : Type} {step : α → Build Unit} {change : Entity → α → Entity}
    (cls : α → String) (h : ∀ x, Changes (step x) (cls x) (change · x)) :
    ∀ {xs : List α} {b : BuildState}, (forM xs step).Gives b u b' →
      ∃ s, b' = { b with schema := s } ∧ ∀ C e, b.schema.entity? C = some e →
        s.entity? C = some ((xs.filter (cls · == C)).foldl change e)
  | [], b, hrun => ⟨b.schema, gives_forM_nil.mp hrun, fun _ _ he => he⟩
  | x :: xs, b, hrun => by
      obtain ⟨b₁, hone, hrest⟩ := gives_forM_cons.mp hrun
      obtain ⟨t, rfl, hC, hother⟩ := h x hone
      obtain ⟨s, rfl, hs⟩ := changes_forM cls h hrest
      refine ⟨s, rfl, fun C e he => ?_⟩
      by_cases hx : cls x = C
      · rw [List.filter_cons_of_pos (by simpa using hx)]
        exact hs C _ (hx ▸ hC e (hx ▸ he))
      · rw [List.filter_cons_of_neg (by simpa using hx)]
        exact hs C e ((hother C hx).trans he)

theorem changes_moveBlock (C B : String) : Changes (moveBlock C B) C (·.blockBack B) :=
  changes_edit fun _ => rfl

theorem changes_movePartition (p : Partition) :
    Changes (movePartition p) p.parentClass p.moveBack := by
  have hdescriptor : Changes (edit p.parentClass fun e => .ok (match p.descriptorField with
      | some field => e.moveFieldToTail field
      | none => e)) p.parentClass fun e => match p.descriptorField with
      | some field => e.moveFieldToTail field
      | none => e :=
    changes_edit fun e => by cases p.descriptorField <;> rfl
  have hblock : Changes (match p.tableBlock with
      | some block => moveBlock p.parentClass block
      | none => return) p.parentClass fun e => match p.tableBlock with
      | some block => e.blockBack block
      | none => e := by
    cases p.tableBlock with
    | some T => exact changes_moveBlock p.parentClass T
    | none => exact changes_pure p.parentClass
  exact hdescriptor.bind hblock

/-- The two rows of moves. -/
theorem arrangeBlocks_spec (h : arrangeBlocks.Gives b u b') : ∃ s, b' = { b with schema := s } ∧
    ∀ C e, b.schema.entity? C = some e → s.entity? C = some
      ((b.usedPartitions.filter (·.parentClass == C)).foldl (fun e p => p.moveBack e)
        ((b.builtEntries.filter (·.1.className == C)).foldl
          (fun e entry => e.blockBack (entry.2.getD "")) e)) := by
  simp only [arrangeBlocks, gives_get_bind] at h
  obtain ⟨_, b₁, hblocks, hpartitions⟩ := gives_bind.mp h
  obtain ⟨s₁, rfl, hs₁⟩ := changes_forM (·.1.className)
    (fun entry : Rule × Option String => changes_moveBlock entry.1.className (entry.2.getD ""))
    hblocks
  obtain ⟨s, rfl, hs⟩ := changes_forM Partition.parentClass changes_movePartition hpartitions
  exact ⟨s, rfl, fun C e he => hs C _ (hs₁ C e he)⟩

/-! ## What the rows move -/

section Moved

variable {p : Partition}

theorem movedBack_moveBack (hnodup : (e.fields.map (·.name)).Nodup) (p : Partition) :
    MovedBack p.linksTo e.fields (p.moveBack e).fields := by
  have hdescriptor : MovedBack (fun f : Field => p.descriptorField == some f.name) e.fields
      (match p.descriptorField with
        | some field => e.moveFieldToTail field
        | none => e).fields := by
    cases p.descriptorField with
    | none => exact .refl _
    | some n =>
      refine (Entity.movedBack_moveFieldToTail hnodup n).congr fun f _ => ?_
      by_cases hn : n = f.name
      · simp [hn]
      · simp [hn, Ne.symm hn]
  unfold Partition.moveBack Partition.linksTo
  cases p.tableBlock with
  | none => exact hdescriptor.congr fun f _ => by simp
  | some T => exact (hdescriptor.trans (Entity.movedBack_blockBack _ T)).congr fun f _ => rfl

theorem isSorted_moveBack (h : e.IsSorted B)
    (hplain : ∀ n, p.descriptorField = some n → ∀ f ∈ e.fields, f.name = n → f.block = none) :
    (p.moveBack e).IsSorted B := by
  have hdescriptor : (match p.descriptorField with
      | some field => e.moveFieldToTail field
      | none => e).IsSorted B := by
    cases hn : p.descriptorField with
    | none => exact h
    | some n => exact h.moveFieldToTail (hplain n hn)
  unfold Partition.moveBack
  cases p.tableBlock with
  | none => exact hdescriptor
  | some T => exact hdescriptor.blockBack

theorem isSorted_moveBack_table (hT : p.tableBlock = some B) (e : Entity) :
    (p.moveBack e).IsSorted B := by
  unfold Partition.moveBack
  rw [hT]
  exact Entity.isSorted_blockBack _ B

/-- What the two rows move in a class, and which blocks are sorted afterwards. -/
theorem arrangeBlocks_moves (h : arrangeBlocks.Gives b u b') (he : b.schema.entity? C = some e)
    (hnodup : (e.fields.map (·.name)).Nodup)
    (hplain : ∀ p ∈ b.space.partitions, p.parentClass = C → ∀ n, p.descriptorField = some n →
      ∀ f ∈ e.fields, f.name = n → f.block = none) :
    ∃ d e' : Entity, b'.schema.entity? C = some e' ∧
      MovedBack (b.inNamedBlock C) e.fields d.fields ∧
      MovedBack (b.inUsedPartition C) d.fields e'.fields ∧
      ∀ B, (b.NamesBlock C B ∨ ∃ p, b.UsesPartition p ∧ p.parentClass = C ∧ p.tableBlock = some B) →
        e'.IsSorted B := by
  obtain ⟨s, rfl, hs⟩ := arrangeBlocks_spec h
  have hblocks : MovedBack (b.inNamedBlock C) e.fields
      ((b.builtEntries.filter (·.1.className == C)).foldl
        (fun e entry => e.blockBack (entry.2.getD "")) e).fields :=
    Entity.movedBack_foldl fun (d : Entity) _ (entry : Rule × Option String) _ =>
      Entity.movedBack_blockBack d (entry.2.getD "")
  have hsort : ∀ B, b.NamesBlock C B → ((b.builtEntries.filter (·.1.className == C)).foldl
      (fun e entry => e.blockBack (entry.2.getD "")) e).IsSorted B := by
    rintro B ⟨r, hr, hC⟩
    have hmem : (r, some B) ∈ b.builtEntries.filter (·.1.className == C) :=
      List.mem_filter.mpr ⟨List.mem_filter.mpr ⟨hr, rfl⟩, by simpa using hC⟩
    refine foldl_reaches (I := fun _ : Entity => True) (P := (Entity.IsSorted · B)) hmem trivial
      (fun _ _ _ _ => trivial) (fun d _ => ?_) fun d entry _ _ hd => ?_
    · exact Entity.isSorted_blockBack d B
    · exact Entity.IsSorted.blockBack hd
  generalize hd : (b.builtEntries.filter (·.1.className == C)).foldl
    (fun e entry => e.blockBack (entry.2.getD "")) e = d at hblocks hsort
  -- the second row goes on with the same fields
  have hof : ∀ p ∈ b.usedPartitions.filter (·.parentClass == C),
      p ∈ b.space.partitions ∧ p.parentClass = C := by
    intro p hp
    obtain ⟨hused, hC⟩ := List.mem_filter.mp hp
    obtain ⟨-, -, rank, -, -, hrank⟩ := mem_usedPartitions.mp hused
    exact ⟨List.mem_of_getElem? hrank, by simpa using hC⟩
  have hnodup' : ∀ c : Entity, c.fields.Perm e.fields → (c.fields.map (·.name)).Nodup :=
    fun c hc => ((hc.map _).nodup_iff).mpr hnodup
  have hmoves : ∀ c : Entity, ∀ p ∈ b.usedPartitions.filter (·.parentClass == C),
      c.fields.Perm e.fields → (p.moveBack c).fields.Perm e.fields := fun c p _ hc =>
    ((movedBack_moveBack (hnodup' c hc) p).perm).trans hc
  have hkeeps : ∀ B, ∀ c : Entity, ∀ p ∈ b.usedPartitions.filter (·.parentClass == C),
      c.fields.Perm e.fields → c.IsSorted B → (p.moveBack c).IsSorted B := by
    intro B c p hp hc hsorted
    obtain ⟨hmem, hC⟩ := hof p hp
    exact isSorted_moveBack hsorted fun n hn f hf =>
      hplain p hmem hC n hn f (hc.mem_iff.mp hf)
  refine ⟨d, _, (hs C e he).trans (by rw [hd]), hblocks, ?_, fun B hB => ?_⟩
  · exact Entity.movedBack_foldl fun c hc p _ =>
      movedBack_moveBack (hnodup' c (hc.trans hblocks.perm)) p
  · rcases hB with hnamed | ⟨p, hused, hC, hT⟩
    · exact (foldl_keeps (P := fun c : Entity => c.fields.Perm e.fields ∧ c.IsSorted B)
        ⟨hblocks.perm, hsort B hnamed⟩ fun c p hp hc =>
          ⟨hmoves c p hp hc.1, hkeeps B c p hp hc.1 hc.2⟩).2
    · have hmem : p ∈ b.usedPartitions.filter (·.parentClass == C) :=
        List.mem_filter.mpr ⟨mem_usedPartitions.mpr hused, by simpa using hC⟩
      exact foldl_reaches (I := fun c : Entity => c.fields.Perm e.fields)
        (P := (Entity.IsSorted · B)) hmem hblocks.perm hmoves
        (fun c _ => isSorted_moveBack_table hT c) (hkeeps B)

end Moved

end Build

end FeatureSynth
