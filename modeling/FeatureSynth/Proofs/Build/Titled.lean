/-
# Fields called after their rules

A field is made for a rule and gets the readable name of the rule, with a number if the name
is taken in the class.  Whether it becomes a field of its own or a member of a block has no
share in the name.  So builds with and without blocks use the same candidates, under the same
names, unless something comes between a rule and its name: a field that was there already and
is found by its formula, or a number.

A build counts the fields it finds.  `Titled` speaks of builds that found none so far, and
then of all names in the ledger: each was given to a field made for a rule, after that rule.
Where blocks are built the parts of a table are named as well, and in the same class; a
selection among the candidates may have to yield to the name of the part that it selects.
-/
import FeatureSynth.Proofs.Build.Cap
import FeatureSynth.Proofs.Build.NamesDiffer
import FeatureSynth.Proofs.Rule.SameName

namespace FeatureSynth

/-- A name is the readable name of a rule, or that with a number. -/
def Space.Calls (s : Space) (r : Rule) (n : String) : Prop :=
  ∃ m, s.ruleName r false = .ok m ∧ (n = m ∨ ∃ i, n = Entity.numbered m i)

namespace BuildState

/-- The ledger has a name for a rule that it takes for another. -/
def Realized (s : Space) (b : BuildState) (r : Rule) (n : String) : Prop :=
  ∃ x, (x, some n) ∈ b.fieldOf.entries ∧ s.Takes x r

/-- A field was made for a rule over a catalogue and called after it. -/
def CalledAfter (s : Space) (ts : Catalogue) (b : BuildState) (r : Rule) (n : String) : Prop :=
  r.Over ts ∧ ⟨r.className, n⟩ ∈ b.createdFields ∧ s.Calls r n

/-- A state over the cuts and levels of a space, with readable names.  If no field was found so far,
every name in the ledger is that of a field made for a rule and called after it. -/
structure Titled (s : Space) (ts : Catalogue) (b : BuildState) : Prop where
  levels : s.SameLevels b.space
  readable : b.names.readable = true
  called : b.reused = 0 → ∀ x n, (x, some n) ∈ b.fieldOf.entries →
    ∃ y, s.Takes x y ∧ b.CalledAfter s ts y n

/-- A step notes no name and takes nothing away. -/
structure Passes (b b' : BuildState) : Prop where
  levels : b.space.SameLevels b'.space
  readable : b'.names.readable = b.names.readable
  reused : b.reused ≤ b'.reused
  created : b.createdFields ⊆ b'.createdFields
  fieldOf : ∀ x n, (x, some n) ∈ b'.fieldOf.entries → (x, some n) ∈ b.fieldOf.entries

variable {s : Space} {ts : Catalogue} {b b' : BuildState} {r : Rule} {n : String}

theorem CalledAfter.mono (h : b.CalledAfter s ts r n) (hcreated : b.createdFields ⊆ b'.createdFields) :
    b'.CalledAfter s ts r n :=
  ⟨h.1, hcreated h.2.1, h.2.2⟩

theorem Titled.of_passes (h : b.Titled s ts) (hpasses : Passes b b') : b'.Titled s ts where
  levels := h.levels.trans hpasses.levels
  readable := hpasses.readable.trans h.readable
  called := by
    intro hreused x n hx
    obtain ⟨y, htakes, hy⟩ := h.called (Nat.eq_zero_of_le_zero (hreused ▸ hpasses.reused)) x n
      (hpasses.fieldOf x n hx)
    exact ⟨y, htakes, hy.mono hpasses.created⟩

end BuildState

namespace Build

open BuildState

variable {s : Space} {ts : Catalogue} {o : Options} {b b₀ b₁ b' : BuildState} {r : Rule} {n : String}
variable {C : String} {φ : Formula} {key : Nat} {u : Unit} {make makeBlock : Naming}

/-! ## Steps that note no name -/

theorem chained_passes : Chained Passes where
  refl := fun _ => ⟨.refl _, rfl, Nat.le_refl _, List.Subset.refl _, fun _ _ => id⟩
  trans := fun h h' => ⟨h.levels.trans h'.levels, h'.readable.trans h.readable,
    h.reused.trans h'.reused, List.Subset.trans h.created h'.created,
    fun x n hx => h.fieldOf x n (h'.fieldOf x n hx)⟩

theorem closed_passes : Closed (fun m => Respects Passes m) := chained_passes.respects

/-- The space may change in links and uses. -/
theorem passes_space {f : BuildState → Space} (h : ∀ b : BuildState, b.space.SameLevels (f b)) :
    Respects Passes (modify fun b => { b with space := f b } : Build Unit) :=
  (always_modify fun b => ⟨h b, rfl, Nat.le_refl _, List.Subset.refl _, fun _ _ => id⟩).respects

theorem passes_checkInterrupt : Respects Passes checkInterrupt := by
  intro b u b' h
  obtain ⟨-, rfl⟩ := gives_checkInterrupt.mp h
  exact ⟨.refl _, rfl, Nat.le_refl _, List.Subset.refl _, fun _ _ => id⟩

theorem passes_edit (change : Entity → Except BuildError Entity) : Respects Passes (edit C change) := by
  intro b u b' h
  obtain ⟨_, _, -, -, rfl⟩ := gives_edit.mp h
  exact ⟨.refl _, rfl, Nat.le_refl _, List.Subset.refl _, fun _ _ => id⟩

theorem tidying_passes : Tidying (fun m => Respects Passes m) :=
  ⟨closed_passes, fun _ change _ => passes_edit change⟩

theorem passes_register (more : ClassRecord → Except BuildError ClassRecord) :
    Respects Passes (register C more) := by
  intro b u b' h
  obtain ⟨_, _, -, -, rfl⟩ := gives_register.mp h
  exact ⟨.refl _, rfl, Nat.le_refl _, List.Subset.refl _, fun _ _ => id⟩

theorem passes_noteField (C n : String) : Respects Passes (noteField C n) := by
  intro b u b' h
  rw [createdFields_noteField h]
  exact ⟨.refl _, rfl, Nat.le_refl _, fun p hp => mem_noted.mpr (.inl hp), fun _ _ => id⟩

theorem passes_noteBlock (C n : String) : Respects Passes (noteBlock C n) :=
  (always_modify fun _ => ⟨.refl _, rfl, Nat.le_refl _, List.Subset.refl _, fun _ _ => id⟩).respects

theorem passes_reuse (name : String) : Respects Passes (reuse name) := by
  intro b n b' h
  obtain ⟨-, rfl⟩ := gives_reuse.mp h
  exact ⟨.refl _, rfl, Nat.le_succ _, List.Subset.refl _, fun _ _ => id⟩

theorem passes_freeName (hmake : make.Drawn) : Respects Passes (freeName C make) := by
  intro b name b' h
  obtain ⟨stem, names, e, hdraw, -, -, rfl⟩ := gives_freeName.mp h
  exact ⟨.refl _, (hmake _ _ _ _ hdraw).readable_eq, Nat.le_refl _, List.Subset.refl _,
    fun _ _ => id⟩

theorem passes_insertDerived (f : Field) : Respects Passes (insertDerived C f) :=
  closed_passes.bind (passes_register _) fun _ => closed_passes.bind (passes_edit _) fun _ =>
    closed_passes.bind (passes_noteField _ _) fun _ => closed_passes.pure _

theorem passes_insertMember (hmakeBlock : makeBlock.Drawn) (block : Option String) (f : Field) :
    Respects Passes (insertMember C block φ f makeBlock) := by
  have last : ∀ B, Respects Passes (do
      register C (·.registerMember φ { f with block := some B })
      noteField C f.name
      return B) :=
    fun B => closed_passes.bind (passes_register _) fun _ =>
      closed_passes.bind (passes_noteField _ _) fun _ => closed_passes.pure _
  cases block with
  | some B =>
    simp only [insertMember, pure_bind]
    exact closed_passes.bind (passes_edit _) fun _ => last B
  | none =>
    simp only [insertMember, pure_bind]
    exact closed_passes.bind (passes_freeName hmakeBlock) fun B =>
      closed_passes.bind (passes_register _) fun _ => closed_passes.bind (passes_edit _) fun _ =>
        closed_passes.bind (passes_noteBlock _ _) fun _ => last B

theorem passes_fieldFor {type : Except BuildError FieldType} (hmake : make.Drawn) :
    Respects Passes (fieldFor C φ type make) := by
  refine closed_passes.bind (closed_passes.record C) fun c => ?_
  split
  · exact passes_reuse _
  · exact closed_passes.bind (passes_freeName hmake) fun _ => closed_passes.bind
      (closed_passes.lift _) fun _ => passes_insertDerived _

theorem passes_partition (rank : Nat) : Respects Passes (partition rank) := by
  refine closed_passes.bind closed_passes.get fun b => ?_
  split
  · exact closed_passes.pure _
  · exact closed_passes.lift _

/-- A partition may get links. -/
theorem passes_modifyPartition (rank : Nat) {change : Partition → Partition}
    (h : ∀ p, (change p).className = p.className ∧ (change p).identity = p.identity ∧
      (change p).parts = p.parts) : Respects Passes (modifyPartition rank change) :=
  passes_space fun _ => ⟨Space.sameCuts_modifyPartition _ _ h, rfl⟩

theorem passes_descriptorField (rank : Nat) : Respects Passes (descriptorField rank) := by
  unfold descriptorField
  refine closed_passes.bind (passes_partition rank) fun p => ?_
  split
  · exact closed_passes.pure _
  · intro b n b' h
    rw [gives_get_bind] at h
    obtain ⟨⟨φ, space⟩, hdescribe, h⟩ := gives_lift_bind.mp h
    obtain ⟨_, b₁, hset, h⟩ := gives_bind.mp h
    rw [gives_modify] at hset
    subst hset
    have hdescribed : Passes b { b with space } := by
      refine ⟨⟨Space.sameCuts_describe hdescribe, ?_⟩, rfl, Nat.le_refl _, List.Subset.refl _,
        fun _ _ => id⟩
      obtain ⟨_, -, rfl⟩ := Space.describe_eq_ok hdescribe
      rfl
    have last : ∀ name, Respects Passes (do
        modifyPartition rank fun p => { p with descriptorField := some name }
        return name) :=
      fun _ => closed_passes.bind (passes_modifyPartition rank fun _ => ⟨rfl, rfl, rfl⟩) fun _ =>
        closed_passes.pure _
    exact chained_passes.trans hdescribed
      (closed_passes.bind (passes_fieldFor fun _ _ _ _ h => ⟨_, h⟩) last h)

theorem passes_tableBlock (part : Part) : Respects Passes (tableBlock part) := by
  unfold tableBlock
  refine closed_passes.bind (passes_descriptorField _) fun _ => closed_passes.bind
    closed_passes.get fun b => closed_passes.bind (closed_passes.lift _) fun φ =>
      closed_passes.bind (closed_passes.lift _) fun key => closed_passes.bind (passes_partition _)
        fun p => closed_passes.bind (closed_passes.record _) fun c => ?_
  have last : ∀ block, Respects Passes (do
      modifyPartition part.partition fun p => { p with tableBlock := some block }
      return block) :=
    fun _ => closed_passes.bind (passes_modifyPartition _ fun _ => ⟨rfl, rfl, rfl⟩) fun _ =>
      closed_passes.pure _
  dsimp only
  split
  · exact closed_passes.bind (closed_passes.pure _) last
  · intro b n b' h
    obtain ⟨name, b₁, hname, h⟩ := gives_bind.mp h
    obtain ⟨B, b₂, hinsert, h⟩ := gives_bind.mp h
    exact chained_passes.trans (passes_freeName (fun _ _ _ _ h => ⟨_, h⟩) hname)
      (chained_passes.trans (passes_insertMember (fun _ _ _ _ h => ⟨_, h⟩) _ _ hinsert) (last B h))

/-! ## Names for rules -/

/-- Names stay with what they were given to, and what was found stays counted. -/
structure KeepsTitled (s : Space) (ts : Catalogue) (b b' : BuildState) : Prop where
  reused : b.reused ≤ b'.reused
  titled : b.Titled s ts → b'.Titled s ts

theorem closed_titled (s : Space) (ts : Catalogue) :
    Closed (fun m => Respects (KeepsTitled s ts) m) :=
  Chained.respects ⟨fun _ => ⟨Nat.le_refl _, id⟩,
    fun h h' => ⟨h.reused.trans h'.reused, h'.titled ∘ h.titled⟩⟩

theorem titled_of_passes {α : Type} {m : Build α} (h : Respects Passes m) :
    Respects (KeepsTitled s ts) m :=
  h.imp fun hpasses => ⟨hpasses.reused, fun hb => hb.of_passes hpasses⟩

/-- A name drawn for a rule is called after it. -/
theorem calls_of_freeName (hb : b.Titled s ts)
    (h : (freeName C (·.ofRule · r false)).Gives b n b') : s.Calls r n := by
  obtain ⟨stem, names, e, hdraw, -, rfl, -⟩ := gives_freeName.mp h
  rcases NameSource.choose_eq_ok hdraw with ⟨-, hname, -⟩ | ⟨hnumbers, -⟩
  · rw [Space.ruleName_of_sameLevels hb.levels] at hname
    exact ⟨stem, hname, freeName_eq e stem⟩
  · cases hnumbers.symm.trans hb.readable

/-- A field for the formula of a rule is called after the rule, unless it was found. -/
theorem calledAfter_fieldFor (hb : b.Titled s ts) (hr : r.Over ts) {type : Except BuildError FieldType}
    (h : (fieldFor r.className φ type (·.ofRule · r false)).Gives b n b') (hnone : b'.reused = 0) :
    b'.CalledAfter s ts r n := by
  simp only [fieldFor, gives_record_bind] at h
  obtain ⟨c, -, h⟩ := h
  split at h
  · obtain ⟨-, rfl⟩ := gives_reuse.mp h
    cases hnone
  · obtain ⟨name, b₁, hname, h⟩ := gives_bind.mp h
    have hcalls := calls_of_freeName hb hname
    obtain ⟨t, -, h⟩ := gives_lift_bind.mp h
    simp only [insertDerived, gives_bind, gives_register, gives_edit, gives_pure] at h
    obtain ⟨_, _, ⟨_, _, -, -, rfl⟩, _, _, ⟨_, _, -, -, rfl⟩, _, _, hnote, rfl, rfl⟩ := h
    rw [createdFields_noteField hnote]
    exact ⟨hr, mem_noted.mpr (.inr rfl), hcalls⟩

/-- A new member for a rule is called after the rule. -/
theorem calledAfter_newMember (hb : b.Titled s ts) (hr : r.Over ts) {type : FieldType} {B : String}
    {block : Option String} (hname : (freeName r.className (·.ofRule · r false)).Gives b n b₁)
    (h : (insertMember r.className block φ (.member n type "" key) makeBlock).Gives b₁ B b') :
    b'.CalledAfter s ts r n := by
  refine ⟨hr, ?_, calls_of_freeName hb hname⟩
  have last : ∀ {B' b₂}, (do
      register r.className (·.registerMember φ { Field.member n type "" key with block := some B' })
      noteField r.className n
      return B').Gives b₂ B b' → ⟨r.className, n⟩ ∈ b'.createdFields := by
    intro B' b₂ h
    simp only [gives_bind, gives_register, gives_pure] at h
    obtain ⟨_, _, ⟨_, _, -, -, rfl⟩, _, _, hnote, -, rfl⟩ := h
    rw [createdFields_noteField hnote]
    exact mem_noted.mpr (.inr rfl)
  cases block with
  | some B' =>
    simp only [insertMember, pure_bind] at h
    obtain ⟨_, b₂, -, h⟩ := gives_bind.mp h
    exact last h
  | none =>
    simp only [insertMember, pure_bind] at h
    obtain ⟨B', b₂, -, h⟩ := gives_bind.mp h
    obtain ⟨_, b₃, -, h⟩ := gives_bind.mp h
    obtain ⟨_, b₄, -, h⟩ := gives_bind.mp h
    obtain ⟨_, b₅, -, h⟩ := gives_bind.mp h
    exact last h

/-- A field for a rule comes about, called after the rule unless it was found, and is noted last. -/
def MadeFor (s : Space) (ts : Catalogue) (r : Rule) (n : String) (b b' : BuildState) : Prop :=
  ∃ b₁, Passes b b₁ ∧
    (r.Over ts → b.Titled s ts → b₁.reused = 0 → b₁.CalledAfter s ts r n) ∧
      (recordField r n).Gives b₁ () b'

theorem MadeFor.sameLevels (h : MadeFor s ts r n b b') : b.space.SameLevels b'.space := by
  obtain ⟨b₁, hpasses, -, h⟩ := h
  rw [recordField, gives_modify] at h
  subst h
  exact hpasses.levels

theorem MadeFor.keepsTitled (hr : r.Over ts) (h : MadeFor s ts r n b b') :
    KeepsTitled s ts b b' := by
  obtain ⟨b₁, hpasses, hcalled, h⟩ := h
  rw [recordField, gives_modify] at h
  subst h
  refine ⟨hpasses.reused, fun hb => ?_⟩
  have hb₁ := hb.of_passes hpasses
  refine ⟨hb₁.levels, hb₁.readable, fun hnone x m hx => ?_⟩
  rw [hb₁.levels.toSameCuts.compareCostName] at hx
  rcases Ledger.mem_record hx with hold | ⟨rfl, heq⟩
  · exact hb₁.called hnone x m hold
  · exact ⟨r, heq.symm, hcalled hr hb hnone⟩

theorem MadeFor.realized (h : MadeFor s ts r n b b') (hb : b.Titled s ts) : b'.Realized s r n := by
  obtain ⟨b₁, hpasses, -, h⟩ := h
  rw [recordField, gives_modify, (hb.of_passes hpasses).levels.toSameCuts.compareCostName] at h
  subst h
  obtain ⟨x, hx, heq⟩ := Ledger.record_names s.compareCostName b₁.fieldOf r n
  exact ⟨x, hx, heq.symm⟩

theorem madeFor_formulaField (h : (formulaField r φ).Gives b n b') :
    MadeFor s ts r n b b' := by
  obtain ⟨name, b₁, hfield, h⟩ := gives_bind.mp h
  obtain ⟨_, b₂, hrecord, h⟩ := gives_bind.mp h
  obtain ⟨rfl, rfl⟩ := gives_pure.mp h
  exact ⟨b₁, passes_fieldFor (Making.drawn_ofRule r false) hfield,
    fun hr hb => calledAfter_fieldFor hb hr hfield, hrecord⟩

theorem madeFor_blockMember (h : (blockMember r φ key).Gives b n b') :
    MadeFor s ts r n b b' := by
  simp only [blockMember, gives_record_bind] at h
  obtain ⟨c, -, h⟩ := h
  split at h
  · obtain ⟨name, b₁, hreuse, h⟩ := gives_bind.mp h
    obtain ⟨_, b₂, hrecord, h⟩ := gives_bind.mp h
    obtain ⟨rfl, rfl⟩ := gives_pure.mp h
    refine ⟨b₁, passes_reuse _ hreuse, fun _ _ hnone => ?_, hrecord⟩
    obtain ⟨-, rfl⟩ := gives_reuse.mp hreuse
    cases hnone
  · obtain ⟨name, b₁, hname, h⟩ := gives_bind.mp h
    obtain ⟨t, -, h⟩ := gives_lift_bind.mp h
    obtain ⟨B, b₂, hinsert, h⟩ := gives_bind.mp h
    simp only [gives_modify_bind, pure_bind] at h
    obtain ⟨_, b₃, hrecord, h⟩ := gives_bind.mp h
    obtain ⟨rfl, rfl⟩ := gives_pure.mp h
    have hmember := chained_passes.trans (passes_freeName (Making.drawn_ofRule r false) hname)
      (passes_insertMember (Making.drawn_ofRule r true) _ _ hinsert)
    refine ⟨_, ?_, ?_, hrecord⟩
    · exact ⟨hmember.levels, hmember.readable, hmember.reused, hmember.created, hmember.fieldOf⟩
    · exact fun hr hb _ => (calledAfter_newMember hb hr hname hinsert).mono (List.Subset.refl _)

/-! ## The space of a build -/

theorem blockParts_sameLevels :
    BlockParts (fun m => Respects (fun b b' => b.space.SameLevels b'.space) m) where
  closed := Chained.respects ⟨fun b => .refl b.space, .trans⟩
  note := fun f h => (always_modify fun b => by rw [(h b).space]; exact .refl _).respects
  formula := fun r φ b n b' h =>
    (madeFor_formulaField (s := b.space) h : MadeFor _ [] r n b b').sameLevels
  table := fun part => (passes_tableBlock part).imp Passes.levels
  member := fun r φ key b n b' h =>
    (madeFor_blockMember (s := b.space) h : MadeFor _ [] r n b b').sameLevels

theorem passes_directField (r : Rule) : Respects Passes (directField r) := by
  refine closed_passes.bind (closed_passes.record _) fun c => closed_passes.bind closed_passes.get
    fun b => closed_passes.bind (closed_passes.lift _) ?_
  rintro ⟨existing, c'⟩
  refine closed_passes.bind (always_modify fun _ =>
    ⟨.refl _, rfl, Nat.le_refl _, List.Subset.refl _, fun _ _ => id⟩).respects fun _ => ?_
  cases existing with
  | some name => exact passes_reuse name
  | none =>
    exact closed_passes.bind closed_passes.get fun _ => closed_passes.bind (closed_passes.lift _)
      fun _ => passes_fieldFor (Making.drawn_ofRule r false)

theorem firstParts_sameLevels :
    FirstParts (fun m => Respects (fun b b' => b.space.SameLevels b'.space) m) where
  toParts := blockParts_sameLevels.toParts
  direct := fun r => (passes_directField r).imp Passes.levels
  bindTo := fun rank name => (always_modify fun b => by
    exact .of_modifyDimension b.space rank fun _ => ⟨rfl, rfl, rfl⟩).respects
  move := fun C name => (tidying_passes.moving.moveField C name).imp Passes.levels
  count := fun rules => (always_modify fun b =>
    .of_reset (Space.resetUses_countUses b.space rules)).respects
  mark := fun C name cost => (tidying_passes.mark C name cost).imp Passes.levels

/-- A build changes neither what the space is cut along nor the levels found. -/
theorem sameLevels_layOut (rules : List Rule) (h : (layOut o rules).Gives b u b') :
    b.space.SameLevels b'.space :=
  closed_layOut blockParts_sameLevels.members firstParts_sameLevels
    (tidying_passes.moving.arrangeBlocks.imp Passes.levels) o (fun _ _ => trivial) h

/-- Every field asked for on the way to the field of a rule is called after its rule. -/
theorem memberParts_titled : MemberParts (Rule.Over ts) (fun m => Respects (KeepsTitled s ts) m) where
  closed := closed_titled s ts
  hereditary := fun _ _ => Rule.over_operand
  formula := fun _ _ hr _ _ _ h => (madeFor_formulaField h).keepsTitled hr
  table := fun part => titled_of_passes (passes_tableBlock part)
  member := fun _ _ _ hr _ _ _ _ h => (madeFor_blockMember h).keepsTitled hr

/-! ## Fields of rules -/

theorem realized_of_fieldOf? (hb : b.Titled s ts) (h : b.fieldOf? r = some n) : b.Realized s r n := by
  obtain ⟨x, hx, heq⟩ := Ledger.of_name? h
  rw [hb.levels.toSameCuts.compareCostName] at heq
  exact ⟨x, hx, .inr heq⟩

/-- The field of a rule is in the ledger. -/
theorem realized_sharedField : ∀ {r : Rule}, r.Over ts → b.Titled s ts →
    (sharedField r).Gives b n b' → b'.Realized s r n
  | ⟨template, className, operands, cost, tieBreak⟩, hr, hb, h => by
      rw [sharedField, gives_get_bind] at h
      split at h
      · rename_i name hname
        obtain ⟨rfl, rfl⟩ := gives_pure.mp h
        exact realized_of_fieldOf? hb hname
      · obtain ⟨xs, b₁, hoperands, h⟩ := gives_bind.mp h
        have hfirst : KeepsTitled s ts b b₁ :=
          memberParts_titled.toFieldParts.sharedOperands operands
            (fun _ => Rule.over_operand hr) hoperands
        exact (madeFor_formulaField h).realized (hfirst.titled hb)

theorem realized_partitionBlockMember (hr : r.Over ts) (hb : b.Titled s ts)
    (h : (partitionBlockMember r).Gives b n b') : b'.Realized s r n := by
  unfold partitionBlockMember at h
  split at h
  · cases gives_lift.mp h |>.1
  · cases gives_lift.mp h |>.1
  · obtain ⟨table, b₁, htable, h⟩ := gives_bind.mp h
    obtain ⟨xs, b₂, hoperands, h⟩ := gives_bind.mp h
    rw [gives_get_bind] at h
    obtain ⟨key, -, h⟩ := gives_lift_bind.mp h
    have hb₁ := (memberParts_titled.table _ htable).titled hb
    have hrest : KeepsTitled s ts b₁ b₂ := memberParts_titled.toFieldParts.statisticOperands r _
      (fun _ hinner => Rule.over_operand hr (List.mem_of_mem_drop hinner)) hoperands
    exact (madeFor_blockMember h).realized (hrest.titled hb₁)

theorem realized_valueBlockMember {operator member : String} (hr : r.Over ts) (hb : b.Titled s ts)
    (h : (valueBlockMember r operator member).Gives b (some n) b') : b'.Realized s r n := by
  obtain ⟨C, -, h⟩ := gives_lift_bind.mp h
  obtain ⟨owner, -, h⟩ := gives_entity_bind.mp h
  split at h
  · obtain ⟨table, b₁, htable, h⟩ := gives_bind.mp h
    obtain ⟨name, b₂, hmember, h⟩ := gives_bind.mp h
    obtain ⟨hname, rfl⟩ := gives_pure.mp h
    obtain rfl : n = name := Option.some.inj hname
    have hfirst : KeepsTitled s ts b b₁ := memberParts_titled.toFieldParts.tableOperand r
      (fun _ => Rule.over_operand hr) htable
    exact (madeFor_blockMember hmember).realized (hfirst.titled hb)
  · cases (gives_pure.mp h).1

theorem realized_sparseField : ∀ {r : Rule}, r.Over ts → b.Titled s ts →
    (sparseField r).Gives b n b' → b'.Realized s r n
  | ⟨template, className, operands, cost, tieBreak⟩, hr, hb, h => by
      have hinner : ∀ inner, .rule inner ∈ operands → inner.Over ts :=
        fun _ => Rule.over_operand hr
      have plain : ∀ {b : BuildState}, b.Titled s ts → (do
          let ops ← sparseOperands operands
          formulaField ⟨template, className, operands, cost, tieBreak⟩
            (template.formula ops)).Gives b n b' →
          b'.Realized s ⟨template, className, operands, cost, tieBreak⟩ n := by
        intro b hb h
        obtain ⟨xs, b₁, hoperands, h⟩ := gives_bind.mp h
        have hfirst : KeepsTitled s ts b b₁ :=
          memberParts_titled.sparseOperands operands hinner hoperands
        exact (madeFor_formulaField h).realized (hfirst.titled hb)
      rw [sparseField, gives_get_bind] at h
      split at h
      · rename_i name hname
        obtain ⟨rfl, rfl⟩ := gives_pure.mp h
        exact realized_of_fieldOf? hb hname
      · dsimp only at h
        split at h
        · exact realized_partitionBlockMember hr hb h
        · split at h
          · obtain ⟨member, b₁, hfield, h⟩ := gives_bind.mp h
            obtain ⟨known, b₂, hknown, h⟩ := gives_bind.mp h
            have hb₁ := (memberParts_titled.sparseField _
              (hinner _ (List.mem_cons_of_mem _ List.mem_cons_self)) hfield).titled hb
            cases known with
            | some name =>
              obtain ⟨rfl, rfl⟩ := gives_pure.mp h
              exact realized_valueBlockMember hr hb₁ hknown
            | none =>
              have hvalue : KeepsTitled s ts b₁ b₂ :=
                memberParts_titled.toFieldParts.valueBlockMember hr
                  (fun _ _ _ _ _ h => (madeFor_blockMember h).keepsTitled hr) _ _ hknown
              exact plain (hvalue.titled hb₁) h
          · cases gives_lift.mp h |>.1
          · cases gives_lift.mp h |>.1
        · exact plain hb h

theorem realized_candidateField (hmode : Mode.ofOptions o ≠ .standard) (hr : r.Over ts)
    (hb : b.Titled s ts) (h : (candidateField o r).Gives b n b') : b'.Realized s r n := by
  unfold candidateField at h
  split at h
  · exact absurd ‹_› hmode
  · exact realized_sharedField hr hb h
  · rw [gives_get_bind] at h
    split at h
    · exact realized_sparseField hr hb h
    · exact realized_sharedField hr hb h

end Build

end FeatureSynth
