/-
# What is made

Fields and blocks are made in three ways: a derived field at the tail of its class, a
member behind the last of its block, a new block with its first member.  Each draws
its names before it adds, and none is drawn for nothing: where the name is there
already, nothing is asked of the source.

So a run that succeeds is a row of makings, with steps between them that leave the
schema, the source of names and the lists of what was created as they were.  What holds
along both holds along every field and every member that a rule is given.  Marks and
moves are no makings; they are taken up where a property of them is known.
-/
import FeatureSynth.Proofs.Build.Steps

namespace FeatureSynth

/-- A name drawn from a source: a readable one, or the one with the next number. -/
def NameSource.Draws (n : NameSource) (stem : String) (n' : NameSource) : Prop :=
  ∃ readable, n.choose readable = .ok (stem, n')

namespace Entity

/-- A class with one more field of a name: a derived field, or a member of a block it has. -/
inductive GainsField (e : Entity) (n : String) : Entity → Prop
  | derived (t : FieldType) (φ : Formula) : GainsField e n (e.insertField (.derived n t φ))
  | member {B : String} {t : FieldType} {key : Nat} {e' : Entity}
      (h : e.insertMember B (.member n t "" key) = .ok e') : GainsField e n e'

variable {e e' : Entity} {n B : String} {φ : Formula} {t : FieldType} {key : Nat}

/-- Names go with the cores of the fields and with the blocks. -/
theorem names_of_perm (hfields : e'.cores.Perm e.cores) (hblocks : e'.blocks.Perm e.blocks) :
    e'.names.Perm e.names := by
  have hnames := hfields.map Field.name
  rw [map_name_cores, map_name_cores] at hnames
  exact hnames.append (hblocks.map _)

theorem GainsField.name_eq (h : e.GainsField n e') : e'.name = e.name := by
  cases h with
  | derived => rfl
  | member h => exact (insertMember_eq_ok h).1

theorem GainsField.names_perm (h : e.GainsField n e') : e'.names.Perm (e.names ++ [n]) := by
  have hmid : (e.fields.map (·.name) ++ [n] ++ e.blocks.map (·.name)).Perm (e.names ++ [n]) := by
    rw [names, List.append_assoc, List.append_assoc]
    exact List.perm_append_comm.append_left _
  cases h with
  | derived => simpa [names, insertField, Field.derived, Field.native] using hmid
  | member h =>
    obtain ⟨-, hblocks, hperm, -⟩ := insertMember_eq_ok h
    have hfields := hperm.map (·.name)
    rw [List.map_append] at hfields
    rw [names, hblocks]
    exact (hfields.append_right _).trans hmid

theorem names_addBlock :
    (e.addBlock ⟨B, φ⟩ (.member n t "" key)).names.Perm (e.names ++ [n, B]) := by
  have hmid : (e.fields.map (·.name) ++ [n] ++ (e.blocks.map (·.name) ++ [B])).Perm
      (e.names ++ [n, B]) := by
    rw [names, show [n, B] = [n] ++ [B] from rfl, List.append_assoc, List.append_assoc,
      ← List.append_assoc [n], ← List.append_assoc (e.blocks.map _)]
    exact (List.perm_append_comm.append_right _).append_left _
  simpa [names, addBlock, asMember, Field.member, Field.native] using hmid

end Entity

namespace BuildState

/-- The schema, the source of names and the lists of what was created are as they were. -/
structure Still (b b' : BuildState) : Prop where
  schema : b'.schema = b.schema
  names : b'.names = b.names
  fields : b'.createdFields = b.createdFields
  blocks : b'.createdBlocks = b.createdBlocks

/-- The created fields with one more, unless it is among them. -/
def noted (b : BuildState) (C n : String) : List FieldPath :=
  if b.isCreated C n then b.createdFields else b.createdFields ++ [⟨C, n⟩]

/-- Something is made: a field of a class, or a block with its first member, each under a name
drawn and made free. -/
inductive Makes (b b' : BuildState) : Prop
  | field {C stem : String} {e e' : Entity} (entity : b.schema.entity? C = some e)
      (draws : b.names.Draws stem b'.names) (gains : e.GainsField (e.freeName stem) e')
      (schema : b'.schema = b.schema.setEntity C e')
      (fields : b'.createdFields = b.noted C (e.freeName stem))
      (blocks : b'.createdBlocks = b.createdBlocks)
  | block {C stem stem' : String} {e : Entity} {φ : Formula} {t : FieldType} {key : Nat}
      {names : NameSource} (entity : b.schema.entity? C = some e)
      (draws : b.names.Draws stem names) (drawsBlock : names.Draws stem' b'.names)
      (schema : b'.schema = b.schema.setEntity C
        (e.addBlock ⟨e.freeName stem', φ⟩ (.member (e.freeName stem) t "" key)))
      (fields : b'.createdFields = b.noted C (e.freeName stem))
      (blocks : b'.createdBlocks = b.createdBlocks ++ [⟨C, e.freeName stem'⟩])

end BuildState

namespace Build

open BuildState

variable {b b₁ b' : BuildState} {C name n B : String} {φ : Formula} {t : FieldType} {key : Nat}

/-- Where names are drawn from. -/
def Naming.Drawn (make : Naming) : Prop :=
  ∀ names s stem names', make names s = .ok (stem, names') → names.Draws stem names'

theorem createdFields_noteField {u : Unit} (h : (noteField C name).Gives b u b') :
    b' = { b with createdFields := b.noted C name } := by
  rw [noteField, gives_modify] at h
  subst h
  unfold noted
  split <;> rfl

theorem makes_derived {make : Naming} (hmake : make.Drawn)
    (hname : (freeName C make).Gives b name b₁)
    (h : (insertDerived C (.derived name t φ)).Gives b₁ n b') : Makes b b' := by
  obtain ⟨stem, names, e, hdraw, he, rfl, rfl⟩ := gives_freeName.mp hname
  simp only [insertDerived, gives_bind, gives_register, gives_edit, gives_pure] at h
  obtain ⟨_, _, ⟨_, _, -, -, rfl⟩, _, _, ⟨e₀, _, he₀, hins, rfl⟩, _, _, hnote, -, rfl⟩ := h
  obtain rfl : e = e₀ := Option.some.inj (he.symm.trans he₀)
  cases hins
  rw [createdFields_noteField hnote]
  exact .field he (hmake _ _ _ _ hdraw) (.derived t φ) rfl rfl rfl

theorem makes_member {make makeBlock : Naming} (hmake : make.Drawn) (hmakeBlock : makeBlock.Drawn)
    {block : Option String} (hname : (freeName C make).Gives b name b₁)
    (h : (insertMember C block φ (.member name t "" key) makeBlock).Gives b₁ B b') :
    Makes b b' := by
  obtain ⟨stem, names, e, hdraw, he, rfl, rfl⟩ := gives_freeName.mp hname
  have hdraw := hmake _ _ _ _ hdraw
  cases block with
  | some B' =>
    simp only [insertMember, gives_bind, gives_pure, gives_edit, gives_register] at h
    obtain ⟨_, _, ⟨e₀, e', he₀, hins, rfl⟩, _, _, ⟨rfl, rfl⟩, _, _, ⟨_, _, -, -, rfl⟩, _, _, hnote,
      -, rfl⟩ := h
    obtain rfl : e = e₀ := Option.some.inj (he.symm.trans he₀)
    rw [createdFields_noteField hnote]
    exact .field he hdraw (.member hins) rfl rfl rfl
  | none =>
    simp only [insertMember, gives_bind, gives_pure, gives_edit, gives_register, gives_freeName,
      noteBlock, gives_modify] at h
    obtain ⟨_, _, ⟨stem', names', e₂, hdraw', he₂, rfl, rfl⟩, _, _, ⟨_, _, -, -, rfl⟩, _, _,
      ⟨e₀, _, he₀, hins, rfl⟩, _, _, rfl, _, _, ⟨rfl, rfl⟩, _, _, ⟨_, _, -, -, rfl⟩, _, _, hnote, -,
      rfl⟩ := h
    obtain rfl : e = e₀ := Option.some.inj (he.symm.trans he₀)
    obtain rfl : e = e₂ := Option.some.inj (he.symm.trans he₂)
    cases hins
    rw [createdFields_noteField hnote]
    exact .block he hdraw (hmakeBlock _ _ _ _ hdraw') rfl rfl rfl

/-! ## Along a run -/

/-- A relation that holds along a run if it holds where something is made, and where nothing is
but the registry, the space and the ledgers change. -/
structure Making (R : BuildState → BuildState → Prop) : Prop extends Chained R where
  still : ∀ {b b'}, Still b b' → R b b'
  makes : ∀ {b b'}, Makes b b' → R b b'

namespace Making

variable {R : BuildState → BuildState → Prop}

theorem closed (hR : Making R) : Closed (fun m => Respects R m) := hR.toChained.respects

theorem change (hR : Making R) {f : BuildState → BuildState} (h : ∀ b, Still b (f b)) :
    Respects R (modify f : Build Unit) :=
  (always_modify fun b => hR.still (h b)).respects

theorem note (hR : Making R) (f : BuildState → BuildState) (h : ∀ b, Notes b (f b)) :
    Respects R (modify f : Build Unit) :=
  hR.change fun b => by
    have hb := h b
    simp only [Notes, Prod.mk.injEq] at hb
    obtain ⟨hs, -, -, hf, hB, hn⟩ := hb
    exact ⟨hs, hn, hf, hB⟩

theorem reuse (hR : Making R) (name : String) : Respects R (reuse name) :=
  hR.closed.bind (hR.change fun _ => ⟨rfl, rfl, rfl, rfl⟩) fun _ => hR.closed.pure _

theorem fieldFor (hR : Making R) {type : Except BuildError FieldType} {make : Naming}
    (hmake : make.Drawn) : Respects R (fieldFor C φ type make) := by
  unfold Build.fieldFor
  refine hR.closed.bind (hR.closed.record C) fun c => ?_
  split
  · exact hR.reuse _
  · intro b n b' h
    obtain ⟨name, b₁, hname, h⟩ := gives_bind.mp h
    obtain ⟨t, -, h⟩ := gives_lift_bind.mp h
    exact hR.makes (makes_derived hmake hname h)

theorem drawn_ofRule (r : Rule) (asBlock : Bool) : Naming.Drawn (·.ofRule · r asBlock) :=
  fun _ _ _ _ h => ⟨_, h⟩

theorem directField (hR : Making R) (r : Rule) : Respects R (directField r) := by
  unfold Build.directField
  refine hR.closed.bind (hR.closed.record _) fun c => hR.closed.bind hR.closed.get fun b =>
    hR.closed.bind (hR.closed.lift _) ?_
  rintro ⟨existing, c'⟩
  refine hR.closed.bind (hR.change fun _ => ⟨rfl, rfl, rfl, rfl⟩) fun _ => ?_
  cases existing with
  | some name => exact hR.reuse name
  | none =>
    exact hR.closed.bind hR.closed.get fun _ => hR.closed.bind (hR.closed.lift _) fun _ =>
      hR.fieldFor (drawn_ofRule r false)

theorem partition (hR : Making R) (rank : Nat) : Respects R (partition rank) := by
  refine hR.closed.bind hR.closed.get fun b => ?_
  split
  · exact hR.closed.pure _
  · exact hR.closed.lift _

theorem descriptorField (hR : Making R) (rank : Nat) : Respects R (descriptorField rank) := by
  unfold Build.descriptorField
  refine hR.closed.bind (hR.partition rank) fun p => ?_
  split
  · exact hR.closed.pure _
  · refine hR.closed.bind hR.closed.get fun b => hR.closed.bind (hR.closed.lift _) ?_
    rintro ⟨ψ, space⟩
    exact hR.closed.bind (hR.change fun _ => ⟨rfl, rfl, rfl, rfl⟩) fun _ =>
      hR.closed.bind (hR.fieldFor fun _ _ _ _ h => ⟨_, h⟩) fun _ =>
        hR.closed.bind (hR.change fun _ => ⟨rfl, rfl, rfl, rfl⟩) fun _ => hR.closed.pure _

/-- A name made, and a member under it. -/
theorem newMember (hR : Making R) {make makeBlock : Naming} (hmake : make.Drawn)
    (hmakeBlock : makeBlock.Drawn) {block : Option String} {rest : String → Build String}
    (hrest : ∀ B, Respects R (rest B)) :
    Respects R (do
      let name ← freeName C make
      let B ← insertMember C block φ (.member name t "" key) makeBlock
      rest B) := by
  intro b n b' h
  obtain ⟨name, b₁, hname, h⟩ := gives_bind.mp h
  obtain ⟨B, b₂, hinsert, h⟩ := gives_bind.mp h
  exact hR.trans (hR.makes (makes_member hmake hmakeBlock hname hinsert)) (hrest B h)

theorem tableBlock (hR : Making R) (part : Part) : Respects R (tableBlock part) := by
  unfold Build.tableBlock
  refine hR.closed.bind (hR.descriptorField _) fun _ => hR.closed.bind hR.closed.get fun b =>
    hR.closed.bind (hR.closed.lift _) fun ψ => hR.closed.bind (hR.closed.lift _) fun key =>
      hR.closed.bind (hR.partition _) fun p => hR.closed.bind (hR.closed.record _) fun c => ?_
  have last : ∀ block, Respects R (do
      modifyPartition part.partition fun p => { p with tableBlock := some block }
      return block) :=
    fun _ => hR.closed.bind (hR.change fun _ => ⟨rfl, rfl, rfl, rfl⟩) fun _ => hR.closed.pure _
  dsimp only
  split
  · exact hR.closed.bind (hR.closed.pure _) last
  · exact hR.newMember (fun _ _ _ _ h => ⟨_, h⟩) (fun _ _ _ _ h => ⟨_, h⟩) last

theorem blockMember (hR : Making R) (r : Rule) (ψ : Formula) (key : Nat) :
    Respects R (blockMember r ψ key) := by
  unfold Build.blockMember
  refine hR.closed.bind (hR.closed.record _) fun c => ?_
  have last : ∀ name, Respects R (do
      recordField r name
      return name) :=
    fun _ => hR.closed.bind (hR.change fun _ => ⟨rfl, rfl, rfl, rfl⟩) fun _ => hR.closed.pure _
  dsimp only
  split
  · exact hR.closed.bind (hR.reuse _) last
  · intro b n b' h
    obtain ⟨name, b₁, hname, h⟩ := gives_bind.mp h
    obtain ⟨type, -, h⟩ := gives_lift_bind.mp h
    obtain ⟨B, b₂, hinsert, h⟩ := gives_bind.mp h
    have hmade := hR.makes (makes_member (drawn_ofRule r false) (drawn_ofRule r true) hname hinsert)
    have hnoted : R b₂ { b₂ with blockOf := b₂.blockOf.update b₂.space.compareBlock r B } :=
      hR.still ⟨rfl, rfl, rfl, rfl⟩
    exact hR.trans (hR.trans hmade hnoted) (last name (gives_modify_bind.mp h))

theorem formulaField (hR : Making R) (r : Rule) (ψ : Formula) : Respects R (formulaField r ψ) :=
  hR.closed.bind (hR.fieldFor (drawn_ofRule r false)) fun _ =>
    hR.closed.bind (hR.change fun _ => ⟨rfl, rfl, rfl, rfl⟩) fun _ => hR.closed.pure _

theorem blockParts (hR : Making R) : BlockParts (fun m => Respects R m) where
  closed := hR.closed
  note := hR.note
  formula := hR.formulaField
  table := hR.tableBlock
  member := hR.blockMember

theorem bindParts (hR : Making R) : BindParts (fun m => Respects R m) where
  toParts := hR.blockParts.toParts
  direct := hR.directField
  bindTo := fun _ _ => hR.change fun _ => ⟨rfl, rfl, rfl, rfl⟩

/-- Along all changes that mark and move, a whole build up to the final costs. -/
theorem layOut (hR : Making R) (htidy : Tidying (fun m => Respects R m)) (o : Options)
    (rules : List Rule) : Respects R (layOut o rules) := by
  refine closed_layOut hR.blockParts.members ?_ htidy.moving.arrangeBlocks o fun _ _ => trivial
  exact
    { hR.bindParts with
      mark := htidy.mark
      move := htidy.moving.moveField
      count := fun _ => hR.change fun _ => ⟨rfl, rfl, rfl, rfl⟩ }

end Making

end Build

end FeatureSynth
