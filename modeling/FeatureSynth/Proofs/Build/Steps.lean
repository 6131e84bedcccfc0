/-
# Every step only adds

The relation `Grew` holds along every step of a build, in every mode, whatever it
asks of the schema and the space.

Marks and moves add nothing, and that even where they fail.
-/
import FeatureSynth.Proofs.Build.Growth
import FeatureSynth.Proofs.Build.Parts

namespace FeatureSynth

namespace Build

theorem chained_grew : Chained Grew := ⟨Grew.refl, Grew.trans⟩

theorem chained_stays : Chained Stays := ⟨Grows.refl, Grows.trans⟩

theorem closed_grew : Closed (fun m => Respects Grew m) := chained_grew.respects

theorem closed_stays : Closed (fun m => Always Stays m) := chained_stays.always

theorem Stays.grew {b b' : BuildState} (h : Stays b b') : Grew b b' := ⟨_, _, h⟩

/-! ## Growth -/

theorem Notes.stays {b b' : BuildState} (h : Notes b b') : Stays b b' := by
  simp only [Notes, Prod.mk.injEq] at h
  obtain ⟨hs, hg, -, hf, hb, -⟩ := h
  exact .of_eq hs hg (by rw [hf, hb])

theorem grew_note (f : BuildState → BuildState) (h : ∀ b, Notes b (f b)) :
    Respects Grew (modify f : Build Unit) :=
  (always_modify fun b => Stays.grew (h b).stays).respects

theorem grew_space (f : BuildState → Space) :
    Respects Grew (modify fun b => { b with space := f b } : Build Unit) :=
  (always_modify fun _ => .of_eq rfl rfl rfl).respects

theorem grew_fieldFor {C : String} {φ : Formula} {type : Except BuildError FieldType}
    {make : Naming} : Respects Grew (fieldFor C φ type make) := by
  intro b n b' h
  obtain ⟨-, c, -, ⟨-, rfl⟩ | ⟨-, t, -, hg⟩⟩ := fieldFor_cases h
  · exact .of_eq rfl rfl rfl
  · exact ⟨_, _, hg⟩

theorem grew_directField (r : Rule) : Respects Grew (directField r) := by
  intro b n b' h
  simp only [directField, gives_record_bind, gives_get_bind, gives_lift_bind] at h
  obtain ⟨c, hc, ⟨existing, c'⟩, hlookup, h⟩ := h
  obtain ⟨_, b₁, hset, h⟩ := gives_bind.mp h
  obtain ⟨hname, hfields, hblocks⟩ := ClassRecord.lookupRule_keeps hlookup
  have hnoted : Grew b b₁ := ⟨_, _, stays_setRecord hset hc hname hfields hblocks⟩
  refine hnoted.trans ?_
  cases existing with
  | some name =>
    obtain ⟨-, rfl⟩ := gives_reuse.mp h
    exact .of_eq rfl rfl rfl
  | none =>
    simp only [gives_get_bind, gives_lift_bind] at h
    obtain ⟨φ, -, h⟩ := h
    exact grew_fieldFor h

theorem grew_partition (rank : Nat) : Respects Grew (partition rank) := by
  refine closed_grew.bind closed_grew.get fun b => ?_
  split
  · exact closed_grew.pure _
  · exact closed_grew.lift _

theorem grew_modifyPartition (rank : Nat) (change : Partition → Partition) :
    Respects Grew (modifyPartition rank change) :=
  grew_space _

theorem grew_descriptorField (rank : Nat) : Respects Grew (descriptorField rank) := by
  unfold descriptorField
  refine closed_grew.bind (grew_partition rank) fun p => ?_
  split
  · exact closed_grew.pure _
  · refine closed_grew.bind closed_grew.get fun b => closed_grew.bind (closed_grew.lift _) ?_
    rintro ⟨φ, space⟩
    exact closed_grew.bind (grew_space _) fun _ =>
      closed_grew.bind grew_fieldFor fun _ =>
        closed_grew.bind (grew_modifyPartition rank _) fun _ => closed_grew.pure _

/-- A new name and a member under it. -/
theorem grew_newMember {C : String} {block : Option String} {φ : Formula} {t : FieldType}
    {key : Nat} {make makeBlock : Naming} {name bn : String} {b b₁ b' : BuildState}
    (hname : (freeName C make).Gives b name b₁)
    (h : (insertMember C block φ (.member name t "" key) makeBlock).Gives b₁ bn b') :
    Grew b b' := by
  obtain ⟨stem, names, e, -, he, rfl, rfl⟩ := gives_freeName.mp hname
  obtain ⟨-, c, -, -, hcases⟩ := insertMember_cases h rfl he (Entity.freeName_notMem e stem)
  have hnames : Grew b { b with names } := .of_eq rfl rfl rfl
  rcases hcases with ⟨-, -, hg⟩ | ⟨-, -, hg⟩
  · exact hnames.trans ⟨_, _, hg⟩
  · exact hnames.trans ⟨_, _, hg⟩

theorem grew_tableBlock (part : Part) : Respects Grew (tableBlock part) := by
  unfold tableBlock
  refine closed_grew.bind (grew_descriptorField _) fun _ => closed_grew.bind closed_grew.get
    fun b => closed_grew.bind (closed_grew.lift _) fun φ => closed_grew.bind
      (closed_grew.lift _) fun key => closed_grew.bind (grew_partition _) fun p =>
        closed_grew.bind (closed_grew.record _) fun c => ?_
  have last : ∀ block, Respects Grew (do
      modifyPartition part.partition fun p => { p with tableBlock := some block }
      return block) :=
    fun _ => closed_grew.bind (grew_modifyPartition _ _) fun _ => closed_grew.pure _
  dsimp only
  split
  · exact closed_grew.bind (closed_grew.pure _) last
  · intro b₁ n b' h
    obtain ⟨name, b₂, hname, h⟩ := gives_bind.mp h
    obtain ⟨bn, b₃, hins, h⟩ := gives_bind.mp h
    exact (grew_newMember hname hins).trans (last bn h)

theorem grew_blockMember (r : Rule) (φ : Formula) (key : Nat) :
    Respects Grew (blockMember r φ key) := by
  unfold blockMember
  refine closed_grew.bind (closed_grew.record _) fun c => ?_
  have last : ∀ name, Respects Grew (do
      recordField r name
      return name) :=
    fun _ => closed_grew.bind (grew_note _ fun _ => rfl) fun _ => closed_grew.pure _
  dsimp only
  split
  · exact closed_grew.bind (closed_grew.bind (grew_note _ fun _ => rfl) fun _ =>
      closed_grew.pure _) last
  · intro b n b' h
    obtain ⟨name, b₁, hname, h⟩ := gives_bind.mp h
    obtain ⟨type, -, h⟩ := gives_lift_bind.mp h
    obtain ⟨bn, b₂, hins, h⟩ := gives_bind.mp h
    have hnoted : Grew b₂ { b₂ with blockOf := b₂.blockOf.update b₂.space.compareBlock r bn } :=
      .of_eq rfl rfl rfl
    exact ((grew_newMember hname hins).trans hnoted).trans (last name (gives_modify_bind.mp h))

/-! ## Order and marks -/

/-- A change of a class that marks and moves at most. -/
def Tidies (change : Entity → Except BuildError Entity) : Prop :=
  ∀ e e', change e = .ok e' →
    e'.name = e.name ∧ e'.cores.Perm e.cores ∧ e'.blocks.Perm e.blocks

theorem tidies_mark (C name : String) (cost : Float) :
    Tidies fun e =>
      if (e.field? name).isSome then
        .ok (e.modifyField name fun f => { f with used := true, loaded := true, cost })
      else breach (.unknownField name C) := by
  intro e e' hok
  dsimp only at hok
  split at hok
  · cases hok
    exact ⟨rfl, .of_eq (Entity.cores_modifyField e name fun _ => rfl), .refl _⟩
  · cases hok

/-- A change of a class that moves at most. -/
def Moves (change : Entity → Except BuildError Entity) : Prop :=
  ∀ e e', change e = .ok e' → e'.name = e.name ∧ e'.fields.Perm e.fields ∧ e'.blocks.Perm e.blocks

theorem Moves.tidies {change : Entity → Except BuildError Entity} (h : Moves change) :
    Tidies change := by
  intro e e' hok
  obtain ⟨hname, hfields, hblocks⟩ := h e e' hok
  exact ⟨hname, hfields.map _, hblocks⟩

theorem moves_move {move : Entity → Entity} (hname : ∀ e, (move e).name = e.name)
    (hfields : ∀ e, (move e).fields.Perm e.fields) (hblocks : ∀ e, (move e).blocks.Perm e.blocks) :
    Moves fun e => .ok (move e) := by
  intro e e' hok
  cases hok
  exact ⟨hname e, hfields e, hblocks e⟩

theorem moves_moveField (name : String) : Moves fun e => .ok (e.moveFieldToTail name) :=
  moves_move (fun _ => rfl) (fun e => e.moveFieldToTail_perm _) fun _ => .refl _

theorem moves_moveBlock (block : String) :
    Moves fun e => .ok ((e.moveBlockToTail block).sortBlock block) :=
  moves_move (fun _ => rfl)
    (fun _ => (Entity.sortBlock_perm _ _).trans (Entity.moveBlockToTail_fields_perm _ _))
    fun _ => Entity.moveBlockToTail_blocks_perm _ _

theorem moves_moveDescriptor (p : Partition) :
    Moves fun e => .ok (match p.descriptorField with
      | some field => e.moveFieldToTail field
      | none => e) := by
  cases p.descriptorField with
  | some field => exact moves_moveField field
  | none => exact moves_move (fun _ => rfl) (fun _ => .refl _) fun _ => .refl _

/-- A property that a program has if its parts and all moves have it. -/
structure Moving (P : {α : Type} → Build α → Prop) : Prop where
  closed : Closed P
  edit : ∀ C change, Moves change → P (edit C change)

namespace Moving

variable {P : {α : Type} → Build α → Prop}

theorem moveField (hP : Moving P) (C name : String) :
    P (Build.edit C fun e => .ok (e.moveFieldToTail name)) :=
  hP.edit C _ (moves_moveField name)

theorem moveBlock (hP : Moving P) (C block : String) : P (moveBlock C block) :=
  hP.edit C _ (moves_moveBlock block)

theorem arrangeFields (hP : Moving P) (new : List FieldPath) : P (arrangeFields new) :=
  closed_arrangeFields hP.closed hP.moveField new

theorem arrangeBlocks (hP : Moving P) : P arrangeBlocks :=
  closed_arrangeBlocks hP.closed hP.moveBlock
    (closed_movePartition hP.closed (fun p => hP.edit _ _ (moves_moveDescriptor p)) hP.moveBlock)

end Moving

/-- A property that a program has if its parts and all marks and moves have it. -/
structure Tidying (P : {α : Type} → Build α → Prop) : Prop where
  closed : Closed P
  edit : ∀ C change, Tidies change → P (edit C change)

namespace Tidying

variable {P : {α : Type} → Build α → Prop}

theorem moving (hP : Tidying P) : Moving P := ⟨hP.closed, fun C _ h => hP.edit C _ h.tidies⟩

theorem mark (hP : Tidying P) (C name : String) (cost : Float) : P (markCandidate C name cost) :=
  hP.edit C _ (tidies_mark C name cost)

theorem markNew (hP : Tidying P) (new : NewFields) : P (markNew new) :=
  closed_markNew hP.closed hP.mark new

end Tidying

theorem tidying_stays : Tidying (fun m => Always Stays m) where
  closed := closed_stays
  edit := fun _ change hchange =>
    Respects.always (fun _ _ _ h => stays_edit h fun e e' _ => hchange e e') chained_stays.refl
      fun _ => .edit change

theorem stays_markCandidate (C name : String) (cost : Float) :
    Always Stays (markCandidate C name cost) :=
  tidying_stays.mark C name cost

theorem stays_moveField (C name : String) :
    Always Stays (edit C fun e => .ok (e.moveFieldToTail name)) :=
  tidying_stays.moving.moveField C name

theorem stays_arrangeFields (new : List FieldPath) : Always Stays (arrangeFields new) :=
  tidying_stays.moving.arrangeFields new

theorem stays_arrangeBlocks : Always Stays arrangeBlocks :=
  tidying_stays.moving.arrangeBlocks

/-! ## Ledgers -/

theorem sameLedgers_edit (C : String) (change : Entity → Except BuildError Entity) :
    Respects SameLedgers (edit C change) := by
  intro b u b' h
  obtain ⟨_, _, -, -, rfl⟩ := gives_edit.mp h
  exact ⟨rfl, rfl, rfl⟩

theorem tidying_sameLedgers : Tidying (fun m => Respects SameLedgers m) where
  closed := Chained.respects ⟨.refl, .trans⟩
  edit := fun C change _ => sameLedgers_edit C change

theorem sameLedgers_arrangeFields (new : List FieldPath) :
    Respects SameLedgers (arrangeFields new) :=
  tidying_sameLedgers.moving.arrangeFields new

theorem sameLedgers_markNew (new : NewFields) : Respects SameLedgers (markNew new) :=
  tidying_sameLedgers.markNew new

theorem sameLedgers_arrangeBlocks : Respects SameLedgers arrangeBlocks :=
  tidying_sameLedgers.moving.arrangeBlocks

/-! ## Whole builds -/

theorem parts_grew : Parts (fun m => Respects Grew m) where
  closed := closed_grew
  note := grew_note
  formula := closed_formulaField closed_grew grew_note fun _ _ _ _ => grew_fieldFor

theorem grew_checkInterrupt : Respects Grew checkInterrupt := closed_checkInterrupt parts_grew

theorem blockParts_grew : BlockParts (fun m => Respects Grew m) where
  toParts := parts_grew
  table := grew_tableBlock
  member := grew_blockMember

theorem firstParts_grew : FirstParts (fun m => Respects Grew m) where
  toParts := parts_grew
  direct := grew_directField
  move := fun C name => (stays_moveField C name).respects.imp Stays.grew
  count := fun _ => grew_space _
  bindTo := fun _ _ => grew_space _
  mark := fun C name cost => (stays_markCandidate C name cost).respects.imp Stays.grew

/-- What every candidate keeps, the candidates in turn keep. -/
theorem gives_candidates_induct {o : Options} {candidate : NewFields → Rule → Build NewFields}
    (P : BuildState → Prop)
    (hcheck : ∀ b u b', P b → checkInterrupt.Gives b u b' → P b') :
    ∀ (rules : List Rule) (new new' : NewFields) (b b' : BuildState),
      (∀ r ∈ rules, ∀ new new' b b', P b → (candidate new r).Gives b new' b' → P b') →
      P b → (candidates o candidate new rules).Gives b new' b' → P b'
  | [], new, new', b, b', _, h, run => by
      rw [candidates, gives_pure] at run
      rw [run.2]
      exact h
  | r :: rest, new, new', b, b', step, h, run => by
      rw [candidates, gives_bind] at run
      obtain ⟨_, b₁, check, run⟩ := run
      have h₁ := hcheck b _ b₁ h check
      split at run
      · rw [(gives_pure.mp run).2]
        exact h₁
      · obtain ⟨new₁, b₂, one, run⟩ := gives_bind.mp run
        exact gives_candidates_induct P hcheck rest new₁ new' b₂ b'
          (fun x hx => step x (List.mem_cons_of_mem _ hx))
          (step r List.mem_cons_self new new₁ b₁ b₂ h₁ one) run

theorem stays_markNew (new : NewFields) : Respects Stays (markNew new) :=
  (tidying_stays.markNew new).respects

theorem grew_markNew (new : NewFields) : Respects Grew (markNew new) :=
  (stays_markNew new).imp Stays.grew

theorem grew_layOut (o : Options) (rules : List Rule) : Respects Grew (layOut o rules) :=
  closed_layOut blockParts_grew.members firstParts_grew
    (stays_arrangeBlocks.respects.imp Stays.grew) o fun _ _ => trivial

end Build

end FeatureSynth
