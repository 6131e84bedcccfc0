/-
# What goes by the ledgers

Most of what a build does, it does to the schema, the registry and the names.  Of the ledgers a
step leaves both as they are, unless it notes a field or a block; and the space it leaves as the
orders of the ledgers see it.

So a relation between states that looks at no more is respected by every step, failing or not, as
soon as it is respected by the two kinds of notes.
-/
import FeatureSynth.Proofs.Build.Steps
import FeatureSynth.Proofs.Space.Links

namespace FeatureSynth

namespace Space

variable {s s' : Space}

theorem sameCuts_modifyPartition {change : Partition → Partition} (s : Space) (k : Nat)
    (h : ∀ p, (change p).className = p.className ∧ (change p).identity = p.identity ∧
      (change p).parts = p.parts) : SameCuts s (s.modifyPartition k change) := by
  refine ⟨frame_modifyPartition s k fun p => ⟨(h p).1, (h p).2.1⟩,
    map_modify_of_comp (fun p => ?_) _ _⟩
  rw [Partition.costs, (h p).2.2, Partition.costs]

theorem sameCuts_modifyDimension {change : Dimension → Dimension} (s : Space) (k : Nat)
    (h : ∀ d, (change d).className = d.className ∧ (change d).origin = d.origin) :
    SameCuts s (s.modifyDimension k change) :=
  ⟨frame_modifyDimension s k h, rfl⟩

theorem sameCuts_describe {rank : Nat} {φ : Formula} (h : s.describe rank = .ok (φ, s')) :
    SameCuts s s' := by
  obtain ⟨cells, -, rfl⟩ := describe_eq_ok h
  exact sameCuts_modifyPartition s rank fun _ => ⟨rfl, rfl, rfl⟩

end Space

namespace Build

/-- A relation that looks at the ledgers, and at the space as far as their orders do. -/
structure Ledgerwise (R : BuildState → BuildState → Prop) : Prop extends Chained R where
  of_cuts : ∀ {b b' : BuildState}, b.space.SameCuts b'.space → b'.fieldOf = b.fieldOf →
    b'.blockOf = b.blockOf → R b b'

namespace Ledgerwise

variable {R : BuildState → BuildState → Prop} {A : Rule → Prop} {C : String} {r : Rule}

theorem closed (hR : Ledgerwise R) : Closed (fun m => Always R m) := hR.toChained.always

theorem of_same (hR : Ledgerwise R) {b b' : BuildState} (h : SameLedgers b b') : R b b' :=
  hR.of_cuts (h.space ▸ .refl _) h.fieldOf h.blockOf

/-! ## Single steps -/

theorem elsewhere (hR : Ledgerwise R) {f : BuildState → BuildState}
    (h : ∀ b, SameLedgers b (f b)) : Always R (modify f : Build Unit) :=
  always_modify fun b => hR.of_same (h b)

theorem space (hR : Ledgerwise R) {f : BuildState → Space}
    (h : ∀ b : BuildState, b.space.SameCuts (f b)) :
    Always R (modify fun b => { b with space := f b } : Build Unit) :=
  always_modify fun b => hR.of_cuts (h b) rfl rfl

theorem edit (hR : Ledgerwise R) (change : Entity → Except BuildError Entity) :
    Always R (Build.edit C change) :=
  Respects.always (fun _ _ _ run => hR.of_same (sameLedgers_edit C change run)) hR.refl
    fun _ => .edit change

theorem tidying (hR : Ledgerwise R) : Tidying (fun m => Always R m) :=
  ⟨hR.closed, fun _ change _ => hR.edit change⟩

theorem register (hR : Ledgerwise R) (more : ClassRecord → Except BuildError ClassRecord) :
    Always R (Build.register C more) :=
  hR.closed.bind (hR.closed.record C) fun _ => hR.closed.bind (hR.closed.lift _) fun _ =>
    hR.elsewhere fun _ => ⟨rfl, rfl, rfl⟩

theorem reuse (hR : Ledgerwise R) (name : String) : Always R (Build.reuse name) :=
  hR.closed.bind (hR.elsewhere fun _ => ⟨rfl, rfl, rfl⟩) fun _ => hR.closed.pure _

theorem checkInterrupt (hR : Ledgerwise R) : Always R Build.checkInterrupt := by
  have stop : ∀ seen : Bool, Always R (if seen then throw .interrupted else pure () : Build Unit)
    | true => hR.closed.lift (.error .interrupted)
    | false => hR.closed.pure _
  exact hR.closed.bind hR.closed.get fun b =>
    hR.closed.bind (hR.elsewhere fun _ => ⟨rfl, rfl, rfl⟩) fun _ => stop b.interrupt.look.1

theorem freeName (hR : Ledgerwise R) (make : Naming) : Always R (Build.freeName C make) := by
  have next : Always R (nextName make) := by
    refine hR.closed.bind hR.closed.get fun b => hR.closed.bind (hR.closed.lift _) ?_
    rintro ⟨name, names⟩
    exact hR.closed.bind (hR.elsewhere fun _ => ⟨rfl, rfl, rfl⟩) fun _ => hR.closed.pure _
  exact hR.closed.bind next fun _ => hR.closed.bind (hR.closed.entity C) fun _ => hR.closed.pure _

theorem noteField (hR : Ledgerwise R) (name : String) : Always R (Build.noteField C name) :=
  hR.elsewhere fun b => by split <;> exact ⟨rfl, rfl, rfl⟩

/-! ## Creations -/

theorem insertDerived (hR : Ledgerwise R) (f : Field) : Always R (Build.insertDerived C f) :=
  hR.closed.bind (hR.register _) fun _ => hR.closed.bind (hR.edit _) fun _ =>
    hR.closed.bind (hR.noteField _) fun _ => hR.closed.pure _

theorem insertMember (hR : Ledgerwise R) (block : Option String) (φ : Formula) (f : Field)
    (make : Naming) : Always R (Build.insertMember C block φ f make) := by
  have last : ∀ B, Always R (do
      Build.register C (·.registerMember φ { f with block := some B })
      Build.noteField C f.name
      return B) :=
    fun _ => hR.closed.bind (hR.register _) fun _ =>
      hR.closed.bind (hR.noteField _) fun _ => hR.closed.pure _
  unfold Build.insertMember
  cases block with
  | some B => exact hR.closed.bind (hR.edit _) fun _ => last B
  | none =>
    exact hR.closed.bind (hR.freeName make) fun B => hR.closed.bind (hR.register _) fun _ =>
      hR.closed.bind (hR.edit _) fun _ =>
        hR.closed.bind (hR.elsewhere fun _ => ⟨rfl, rfl, rfl⟩) fun _ => last B

theorem fieldFor (hR : Ledgerwise R) (φ : Formula) (type : Except BuildError FieldType)
    (make : Naming) : Always R (Build.fieldFor C φ type make) := by
  refine hR.closed.bind (hR.closed.record C) fun c => ?_
  split
  · exact hR.reuse _
  · exact hR.closed.bind (hR.freeName make) fun _ => hR.closed.bind (hR.closed.lift _) fun _ =>
      hR.insertDerived _

theorem directField (hR : Ledgerwise R) (r : Rule) : Always R (Build.directField r) := by
  refine hR.closed.bind (hR.closed.record _) fun c => hR.closed.bind hR.closed.get fun b =>
    hR.closed.bind (hR.closed.lift _) ?_
  rintro ⟨existing, c'⟩
  refine hR.closed.bind (hR.elsewhere fun _ => ⟨rfl, rfl, rfl⟩) fun _ => ?_
  cases existing with
  | some name => exact hR.reuse name
  | none =>
    exact hR.closed.bind hR.closed.get fun _ => hR.closed.bind (hR.closed.lift _) fun _ =>
      hR.fieldFor _ _ _

theorem partition (hR : Ledgerwise R) (rank : Nat) : Always R (Build.partition rank) := by
  refine hR.closed.bind hR.closed.get fun b => ?_
  split
  · exact hR.closed.pure _
  · exact hR.closed.lift _

theorem descriptorField (hR : Ledgerwise R) (rank : Nat) :
    Always R (Build.descriptorField rank) := by
  unfold Build.descriptorField
  refine hR.closed.bind (hR.partition rank) fun p => ?_
  split
  · exact hR.closed.pure _
  · intro b
    refine hR.get_bind (hR.lift_bind ?_)
    rintro ⟨φ, space⟩ hdescribe
    refine hR.run_bind (hR.of_cuts (Space.sameCuts_describe hdescribe) rfl rfl) fun _ b₁ _ => ?_
    have last : ∀ name, Always R (do
        modifyPartition rank fun p => { p with descriptorField := some name }
        return name) := by
      intro name
      refine hR.closed.bind (hR.space fun b => ?_) fun _ => hR.closed.pure _
      exact Space.sameCuts_modifyPartition _ _ fun _ => ⟨rfl, rfl, rfl⟩
    exact hR.closed.bind (hR.fieldFor _ _ _) last b₁

theorem tableBlock (hR : Ledgerwise R) (part : Part) : Always R (Build.tableBlock part) := by
  unfold Build.tableBlock
  refine hR.closed.bind (hR.descriptorField _) fun _ => hR.closed.bind hR.closed.get fun b =>
    hR.closed.bind (hR.closed.lift _) fun φ => hR.closed.bind (hR.closed.lift _) fun key =>
      hR.closed.bind (hR.partition _) fun p => hR.closed.bind (hR.closed.record _) fun c => ?_
  have last : ∀ block, Always R (do
      modifyPartition part.partition fun p => { p with tableBlock := some block }
      return block) := by
    intro block
    refine hR.closed.bind (hR.space fun b => ?_) fun _ => hR.closed.pure _
    exact Space.sameCuts_modifyPartition _ _ fun _ => ⟨rfl, rfl, rfl⟩
  dsimp only
  split
  · exact hR.closed.bind (hR.closed.pure _) last
  · exact hR.closed.bind (hR.freeName _) fun _ => hR.closed.bind (hR.insertMember _ _ _ _) last

/-! ## Notes -/

/-- The relation is respected where the field of a rule is noted, and where a block is. -/
structure Noting (R : BuildState → BuildState → Prop) (r : Rule) : Prop where
  field : ∀ name, Always R (recordField r name)
  block : ∀ B, Always R (modify fun b =>
    { b with blockOf := b.blockOf.update b.space.compareBlock r B } : Build Unit)

theorem formulaField (hR : Ledgerwise R) (hr : ∀ name, Always R (recordField r name))
    (φ : Formula) : Always R (Build.formulaField r φ) :=
  hR.closed.bind (hR.fieldFor _ _ _) fun name => hR.closed.bind (hr name) fun _ => hR.closed.pure _

theorem blockMember (hR : Ledgerwise R) (hr : Noting R r) (φ : Formula) (key : Nat) :
    Always R (Build.blockMember r φ key) := by
  unfold Build.blockMember
  refine hR.closed.bind (hR.closed.record _) fun c => ?_
  have last : ∀ name, Always R (do
      recordField r name
      return name) :=
    fun name => hR.closed.bind (hr.field name) fun _ => hR.closed.pure _
  dsimp only
  split
  · exact hR.closed.bind (hR.reuse _) last
  · exact hR.closed.bind (hR.freeName _) fun name => hR.closed.bind (hR.closed.lift _) fun _ =>
      hR.closed.bind (hR.insertMember _ _ _ _) fun B =>
        hR.closed.bind (hr.block B) fun _ => last name

/-- The fields of rules, for which notes respect the relation. -/
theorem memberParts (hR : Ledgerwise R) (hA : Rule.Hereditary A) (hnotes : ∀ r, A r → Noting R r) :
    MemberParts A (fun m => Always R m) where
  closed := hR.closed
  hereditary := hA
  formula := fun r φ hr => hR.formulaField (hnotes r hr).field φ
  table := hR.tableBlock
  member := fun r φ key hr _ => hR.blockMember (hnotes r hr) φ key

end Ledgerwise

end Build

end FeatureSynth
