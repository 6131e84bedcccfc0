/-
# Checked rules get their members

Where blocks are built, a block rule gets a member of a block.  Both the descriptor of a
partition and the block of its parts are linked to the partition when they are made, and the
links are right because the record of the class knows what they name.  A rule whose parts are
cut along bound dimensions gets its member or its field, and nothing on the way can fail.

No field of the schema may have both a formula and a block.  The registry knows such a field
by its formula only, takes its place in the block to be free, and would add a second member
under the same key.
-/
import FeatureSynth.Proofs.Build.Feasible

namespace FeatureSynth

namespace Space

/-- A part has a key, and its partition is described. -/
def Keyed (s : Space) (part : Part) : Prop :=
  ∃ p P key, s.partitions[part.partition]? = some p ∧ p.descriptorField = some P ∧
    s.key part = .ok key

theorem Settles.keyed {s s' : Space} {part : Part} (h : Settles s s') (hpart : s.Keyed part) :
    s'.Keyed part := by
  obtain ⟨p, P, key, hp, hP, hkey⟩ := hpart
  obtain ⟨p', hp', hsettles⟩ := h.partition _ p hp
  exact ⟨p', P, key, hp', (hsettles.described P hP).1, (h.key_eq hp hP).trans hkey⟩

end Space

/-- Where the space is linked anew, in a way that partitions settle, a steady state proceeds. -/
theorem BuildState.Steady.relink {schema : Schema} {b b₁ : BuildState} {space : Space}
    (h : b.Steady schema) (h₁ : b₁.Steady schema) (hlinks : Links b { b₁ with space }) :
    Proceeds schema b { b₁ with space } :=
  h.of_grew hlinks.grew (h₁.accounted.of_stays (.of_eq rfl rfl rfl)) hlinks.linked h₁.compile
    hlinks.settles (fun _ _ hn => .inl (hlinks.fieldOf ▸ hn)) fun entry hentry =>
      .inr (h₁.blocks entry hentry)

namespace Build

open BuildState

variable {schema : Schema} {b b' : BuildState} {r : Rule} {part : Part}

theorem Ensures.partition_bind {β : Type} {rank : Nat} {p : Partition} {f : Partition → Build β}
    {R : β → BuildState → Prop} (hp : b.space.partitions[rank]? = some p)
    (h : (f p).Ensures b R) : (partition rank >>= f).Ensures b R :=
  .bind (.of_gives (gives_partition.mpr ⟨hp, rfl⟩) rfl h)

/-! ## Partitions -/

/-- The descriptor of the partition of a located part is there or can be made. -/
theorem ensures_descriptorField (h : b.Steady schema) (hpart : b.space.Located part) :
    (descriptorField part.partition).Ensures b fun P b' => Proceeds schema b b' ∧
      ∃ p, b'.space.partitions[part.partition]? = some p ∧ p.descriptorField = some P := by
  suffices hmade : (descriptorField part.partition).Ensures b fun _ b' =>
      ∃ (b₁ : BuildState) (space : Space), b₁.Steady schema ∧ { b₁ with space } = b' from
    hmade.mono fun P b' hrun ⟨b₁, space, h₁, hb'⟩ => by
      subst hb'
      obtain ⟨hlinks, hP⟩ := links_descriptorField h.linked hrun
      exact ⟨h.relink h₁ hlinks, hP⟩
  obtain ⟨p, hp, -⟩ := hpart.shaped
  unfold descriptorField
  refine .partition_bind hp ?_
  cases hP : p.descriptorField with
  | some name => exact .ret ⟨b, b.space, h, rfl⟩
  | none =>
    obtain ⟨φ, cells, hφ⟩ := hpart.resolved.exists_descriptor
    have hcells := links_cells h.linked hp hP cells
    have hproceeds := h.relink h hcells
    refine .get_bind (.lift_bind (Space.describe_of_descriptor hφ) (.change_bind rfl ?_))
    refine .bind_of (ensures_fieldFor hproceeds.steady (h.tables p (List.mem_of_getElem? hp)).1 rfl
      (fun _ hclass => nomatch hclass) (exists_ofPartition b.names hproceeds.steady.dimensions
        (hproceeds.settles.located hpart))) fun name b₁ _ ⟨hfield, _⟩ => ?_
    exact .change_bind rfl (.ret ⟨b₁, _, hfield.steady, rfl⟩)

/-- The block of the parts of a partition is there or can be made, with a member for the part. -/
theorem ensures_tableBlock (h : b.Steady schema) (hplain : schema.Apart)
    (hpart : b.space.Located part) (hbound : b.space.AxesBound part) :
    (tableBlock part).Ensures b fun _ b' => Proceeds schema b b' ∧ b'.space.Keyed part := by
  suffices hmade : (tableBlock part).Ensures b fun _ b' =>
      ∃ (b₁ : BuildState) (space : Space), b₁.Steady schema ∧ { b₁ with space } = b' from
    hmade.mono fun T b' hrun ⟨b₁, space, h₁, hb'⟩ => by
      subst hb'
      obtain ⟨hlinks, p, φ, key, -, hp, -, hφ, hkey, -⟩ := links_tableBlock h.linked hrun
      obtain ⟨P, -, hP, -⟩ := Space.tableBlockFormula_eq_ok hp hφ
      exact ⟨h.relink h₁ hlinks, p, P, key, hp, hP, hkey⟩
  have last : ∀ T {b₁ : BuildState}, b₁.Steady schema → (do
      modifyPartition part.partition fun p => { p with tableBlock := some T }
      return T : Build String).Ensures b₁ fun _ b' =>
        ∃ (b₁ : BuildState) (space : Space), b₁.Steady schema ∧ { b₁ with space } = b' :=
    fun T b₁ h₁ =>
    .change_bind rfl (.ret ⟨b₁, _, h₁, rfl⟩)
  unfold tableBlock
  refine .bind_of (ensures_descriptorField h hpart) fun P b₁ _ ⟨hdescribed, p, hp, hP⟩ => ?_
  have h₁ := hdescribed.steady
  have hpart₁ := hdescribed.settles.located hpart
  obtain ⟨φ, hφ⟩ := Space.exists_tableBlockFormula hp hP (hdescribed.settles.axesBound hbound p hp)
  obtain ⟨ψ, hψ, -⟩ := h₁.linked.described _ p P hp hP
  obtain ⟨key, hkey⟩ := hpart₁.resolved.exists_key hp hψ
  obtain ⟨hparent, hclass⟩ := h₁.tables p (List.mem_of_getElem? hp)
  obtain ⟨e, c, he, hc⟩ := h₁.exists_class hparent
  refine .get_bind (.lift_bind hφ (.lift_bind hkey (.partition_bind hp (.record_bind hc ?_))))
  rw [h₁.linked.table_known hp hφ hc]
  cases hmember : c.member? φ key with
  | some n =>
    obtain ⟨B, hB⟩ := Option.isSome_iff_exists.mp
      ((h₁.linked.indexes _ e c he hc).member φ key n hmember).1
    rw [hB]
    exact last B h₁
  | none =>
    obtain ⟨⟨stem, names⟩, hstem⟩ := exists_ofPart b₁.names h₁.dimensions hpart₁
    have hname : (freeName p.parentClass (·.ofPart · part)).Gives b₁ (e.freeName stem)
        { b₁ with names } := gives_freeName.mpr ⟨stem, names, e, hstem, he, rfl, rfl⟩
    have hapart : Naming.Apart b₁.names.readable (·.ofPart · part)
        (·.ofTableBlock · part.partition) :=
      fun _ _ _ _ _ _ _ hdraw hdraw' => stemsApart_part _ _ part hdraw hdraw'
    refine .freeName_bind hstem he (.bind_of (ensures_insertMember h₁ hplain hc hmember hname
      (fun names => exists_ofTableBlock names h₁.dimensions hpart₁) hapart fun D hD => ?_)
      fun B b₂ _ ⟨hinserted, _⟩ => last B hinserted.steady)
    obtain rfl := Option.some.inj hD
    exact hclass

/-! ## Members -/

/-- A block rule gets a member of a block. -/
theorem ensures_blockMember (h : b.Steady schema) (hplain : schema.Apart)
    (hr : r.Feasible b.space schema) (hblock : r.isBlockRule = true) (φ : Formula) (key : Nat) :
    (blockMember r φ key).Ensures b (Realizes schema b r) := by
  obtain ⟨e, c, he, hc⟩ := h.exists_class hr.className_mem
  unfold blockMember
  refine .record_bind hc ?_
  cases hmember : c.member? φ key with
  | some n =>
    have hreuse : Proceeds schema b { b with reused := b.reused + 1 } :=
      proceeds_of_eq h rfl rfl rfl ⟨rfl, rfl, rfl⟩
    refine .bind (.of_gives (gives_reuse.mpr ⟨rfl, rfl⟩) rfl ?_)
    exact (ensures_recordField hreuse.steady (hreuse.steady.linked.hasCore_of_knowsMember
      ⟨e, c, he, hc, hmember⟩)).mono fun _ _ _ hn => hn.after hreuse
  | none =>
    obtain ⟨t, htype, hclass⟩ := hr.exists_resultType h.start
    have hmake : ∀ names asBlock, ∃ y, NameSource.ofRule names b.space r asBlock = .ok y :=
      fun names asBlock => exists_ofRule names h.dimensions hr.toGrounded hr.located asBlock
    obtain ⟨⟨stem, names⟩, hstem⟩ := hmake b.names false
    have hname : (freeName r.className (·.ofRule · r false)).Gives b (e.freeName stem)
        { b with names } := gives_freeName.mpr ⟨stem, names, e, hstem, he, rfl, rfl⟩
    have hapart : Naming.Apart b.names.readable (·.ofRule · r false) (·.ofRule · r true) :=
      fun _ _ _ _ _ _ _ hdraw hdraw' =>
        stemsApart_rule _ _ (fun _ => r.tellsBlock_of_over hr.named hblock) hdraw hdraw'
    refine .freeName_bind hstem he (.lift_bind htype (.bind_of
      (ensures_insertMember h hplain hc hmember hname (fun names => hmake names true) hapart hclass)
      fun B b₁ _ ⟨hinserted, _, _, hknows⟩ => .change_bind rfl ?_))
    have hupdated := hinserted.trans
      (hinserted.steady.updateBlock b₁.space.compareBlock r B)
    exact (ensures_recordField hupdated.steady
      (hupdated.steady.linked.hasCore_of_knowsMember hknows)).mono fun _ _ _ hn => hn.after hupdated

/-- The operands of a statistic after its table get fields. -/
theorem ensures_statisticOperands (r : Rule) : ∀ (xs : List (RuleOperand Rule)) {b : BuildState},
    b.Steady schema → (∀ inner, .rule inner ∈ xs → inner.Feasible b.space schema) →
      (∀ part, .part part ∉ xs) → (statisticOperands r xs).Ensures b fun _ => Proceeds schema b
  | [], b, h, _, _ => by
      unfold statisticOperands
      exact .ret h.refl
  | .field name type :: rest, b, h, hrules, hparts => by
      unfold statisticOperands
      exact .bind_of (ensures_statisticOperands r rest h
        (fun inner hinner => hrules inner (List.mem_cons_of_mem _ hinner))
        fun part hpart => hparts part (List.mem_cons_of_mem _ hpart)) fun _ _ _ hp => .ret hp
  | .rule inner :: rest, b, h, hrules, hparts => by
      unfold statisticOperands
      refine .bind_of (ensures_sharedField inner h (hrules inner List.mem_cons_self))
        fun name b₁ _ hfield => ?_
      have hp := hfield.1
      exact .bind_of (ensures_statisticOperands r rest hp.steady
        (fun x hx => (hrules x (List.mem_cons_of_mem _ hx)).settles hp.settles)
        fun part hpart => hparts part (List.mem_cons_of_mem _ hpart))
        fun _ _ _ hp' => .ret (hp.trans hp')
  | .part part :: rest, b, h, _, hparts => absurd List.mem_cons_self (hparts part)

/-- A statistic of a selection gets a member. -/
theorem ensures_partitionBlockMember (h : b.Steady schema) (hplain : schema.Apart)
    (hr : r.Blockable b.space schema) (hsort : r.classify = .partitionBlock) :
    (partitionBlockMember r).Ensures b (Realizes schema b r) := by
  obtain ⟨operator, part, hoperator, hpart, hmem, hselects⟩ := hr.of_partitionBlock hsort
  unfold partitionBlockMember
  rw [hoperator, hpart]
  refine .bind_of (ensures_tableBlock h hplain (hr.located part hmem) (hr.bound part hmem))
    fun table b₁ _ ⟨htable, hkeyed⟩ => ?_
  refine .bind_of (ensures_statisticOperands r _ htable.steady
    (fun inner hinner => (hr.toFeasible.operand (List.mem_of_mem_drop hinner)).settles
      htable.settles)
    fun x hx => hr.no_part hselects x (List.mem_of_mem_drop hx)) fun operands b₂ _ hoperands => ?_
  have hproceeds := htable.trans hoperands
  obtain ⟨-, -, key, -, -, hkey⟩ := hoperands.settles.keyed hkeyed
  refine .get_bind (.lift_bind hkey ?_)
  exact (ensures_blockMember hproceeds.steady hplain (hr.toFeasible.settles hproceeds.settles)
    (Rule.isBlockRule_of_classify (.inl hsort)) _ _).mono fun _ _ _ hn => hn.after hproceeds

/-- The table of a value block rule is a field or gets one. -/
theorem ensures_tableOperand (h : b.Steady schema) (hr : r.Feasible b.space schema) :
    (tableOperand r).Ensures b fun _ => Proceeds schema b := by
  unfold tableOperand
  rcases hr.first_operand with ⟨name, type, rest, hoperands, -⟩ | ⟨inner, rest, hoperands, -⟩
  · rw [hoperands]
    exact .ret h.refl
  · have hinner := hr.operand (hoperands ▸ List.mem_cons_self)
    rw [hoperands]
    exact .bind_of (ensures_sharedField inner h hinner) fun _ _ _ ⟨hp, _⟩ => .ret hp

/-- A statistic of a block rule gets a member, if the field of that rule is one. -/
theorem ensures_valueBlockMember (h : b.Steady schema) (hplain : schema.Apart)
    (hr : r.Feasible b.space schema) (hsort : r.classify = .valueBlock) (operator member : String) :
    (valueBlockMember r operator member).Ensures b fun known b' => Proceeds schema b b' ∧
      ∀ n, known = some n → b'.HasCore r.className (·.name = n) := by
  obtain ⟨-, x, inner, rest, -, hoperands⟩ := Rule.Grounded.of_valueBlock hsort
  have hinner : inner.Feasible b.space schema := hr.operand (by rw [hoperands]; simp)
  have hclass : r.operandClass 1 = .ok inner.className :=
    Rule.operandClass_of_check hr.checked (by rw [Rule.ruleOperand?, hoperands]; rfl)
  obtain ⟨e, -, he, -⟩ := h.exists_class hinner.className_mem
  unfold valueBlockMember
  refine .lift_bind hclass (.entity_bind he ?_)
  split
  · refine .bind_of (ensures_tableOperand h hr) fun table b₁ _ hp => ?_
    exact .bind_of (ensures_blockMember hp.steady hplain (hr.settles hp.settles)
      (Rule.isBlockRule_of_classify (.inr hsort)) _ _) fun n _ _ hmember =>
        .ret ⟨hp.trans hmember.1, fun _ heq => Option.some.inj heq ▸ hmember.2⟩
  · exact .ret ⟨h.refl, fun _ heq => absurd heq (Option.some_ne_none _).symm⟩

mutual

/-- A rule whose parts are cut along bound dimensions gets a member or a field. -/
theorem ensures_sparseField (hplain : schema.Apart) : ∀ (r : Rule) {b : BuildState},
    b.Steady schema → r.Blockable b.space schema → (sparseField r).Ensures b (Realizes schema b r)
  | ⟨template, className, operands, cost, tieBreak⟩, b, h, hr => by
      have plain : ∀ {b₁ : BuildState}, Proceeds schema b b₁ → (do
          let ops ← sparseOperands operands
          formulaField ⟨template, className, operands, cost, tieBreak⟩
            (template.formula ops)).Ensures b₁
              (Realizes schema b ⟨template, className, operands, cost, tieBreak⟩) := by
        intro b₁ hp
        have hr₁ := hr.settles hp.settles
        refine .bind_of (ensures_sparseOperands hplain operands hp.steady
          (fun inner => hr₁.operand) fun part hpart => hr₁.located.part hpart)
            fun ops b₂ _ hp' => ?_
        exact (ensures_formulaField hp'.steady (hr₁.toFeasible.settles hp'.settles) _).mono
          fun _ _ _ hn => hn.after (hp.trans hp')
      have second : ∀ x inner rest, operands = x :: .rule inner :: rest →
          (sparseField inner).Ensures b (Realizes schema b inner) := by
        have hinner : ∀ inner, .rule inner ∈ operands → inner.Blockable b.space schema :=
          fun inner => hr.operand
        match operands, hinner with
        | _ :: .rule inner :: _, hinner =>
          intro _ _ _ heq
          cases heq
          exact ensures_sparseField hplain inner h (hinner inner (by simp))
        | [], _ | [_], _ | _ :: .field .. :: _, _ | _ :: .part _ :: _, _ =>
          intro _ _ _ heq
          cases heq
      unfold sparseField
      refine .get_bind ?_
      split
      · exact .ret (realizes_known h ‹_›)
      · split
        · rename_i hsort
          exact ensures_partitionBlockMember h hplain hr hsort
        · rename_i hsort
          obtain ⟨operator, x, inner, rest, hoperator, hoperands⟩ :=
            Rule.Grounded.of_valueBlock hsort
          dsimp only at hoperator hoperands
          subst hoperands
          rw [hoperator]
          refine .bind_of (second x inner rest rfl) fun member b₁ _ ⟨hp, _⟩ => ?_
          refine .bind_of (ensures_valueBlockMember hp.steady hplain
            (hr.toFeasible.settles hp.settles) hsort operator member)
              fun known b₂ _ ⟨hp', hknown⟩ => ?_
          cases known with
          | some n => exact .ret ⟨hp.trans hp', hknown n rfl⟩
          | none => exact plain (hp.trans hp')
        · exact plain h.refl

theorem ensures_sparseOperands (hplain : schema.Apart) :
    ∀ (xs : List (RuleOperand Rule)) {b : BuildState}, b.Steady schema →
      (∀ inner, .rule inner ∈ xs → inner.Blockable b.space schema) →
      (∀ part, .part part ∈ xs → b.space.Located part) →
        (sparseOperands xs).Ensures b fun _ => Proceeds schema b
  | [], b, h, _, _ => by
      unfold sparseOperands
      exact .ret h.refl
  | .field name type :: rest, b, h, hrules, hparts => by
      unfold sparseOperands
      exact .bind_of (ensures_sparseOperands hplain rest h
        (fun inner hinner => hrules inner (List.mem_cons_of_mem _ hinner))
        fun part hpart => hparts part (List.mem_cons_of_mem _ hpart)) fun _ _ _ hp => .ret hp
  | .rule inner :: rest, b, h, hrules, hparts => by
      have hinner := hrules inner List.mem_cons_self
      have last : ∀ name {b₁ : BuildState}, Proceeds schema b b₁ → (do
          return .field name :: (← sparseOperands rest) : Build (List Operand)).Ensures b₁
            fun _ => Proceeds schema b := fun name b₁ hp =>
        .bind_of (ensures_sparseOperands hplain rest hp.steady
          (fun x hx => (hrules x (List.mem_cons_of_mem _ hx)).settles hp.settles)
          fun part hpart => hp.settles.located (hparts part (List.mem_cons_of_mem _ hpart)))
          fun _ _ _ hp' => .ret (hp.trans hp')
      unfold sparseOperands
      dsimp only
      split
      · exact .bind_of (ensures_sharedField inner h hinner.toFeasible)
          fun name b₁ _ ⟨hp, _⟩ => last name hp
      · exact .bind_of (ensures_sparseField hplain inner h hinner)
          fun name b₁ _ ⟨hp, _⟩ => last name hp
  | .part part :: rest, b, h, hrules, hparts => by
      unfold sparseOperands
      obtain ⟨φ, hφ⟩ := (hparts part List.mem_cons_self).exists_partFormula
      refine .get_bind (.lift_bind hφ ?_)
      exact .bind_of (ensures_sparseOperands hplain rest h
        (fun inner hinner => hrules inner (List.mem_cons_of_mem _ hinner))
        fun part hpart => hparts part (List.mem_cons_of_mem _ hpart)) fun _ _ _ hp => .ret hp

end

end Build

end FeatureSynth
