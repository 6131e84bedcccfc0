/-
# Properties of whole builds

What a build asks for is recursive: the operands of a rule come before the rule, and
one candidate after the other.  Here each recursion is gone through once, for any
property of steps that a program has if its parts have it.  Such a property is that
every run that succeeds respects a relation, or that every run does, also one that
fails.

The parts are grouped by who needs them: fields, members, marks, and what is done
before the candidates.  What a recursion asks of fields and members it asks only for
the rules met on the way down, so a property may depend on the rule, as long as it
passes from a rule to its operands.
-/
import FeatureSynth.Proofs.Build.Run
import FeatureSynth.Proofs.Ledger

namespace FeatureSynth

namespace Build

/-- The schema in work, the registry and the space are as they were, nothing is created, and no
name is taken. -/
def Notes (b b' : BuildState) : Prop :=
  (b'.schema, b'.registry, b'.space, b'.createdFields, b'.createdBlocks, b'.names) =
    (b.schema, b.registry, b.space, b.createdFields, b.createdBlocks, b.names)

theorem Notes.space {b b' : BuildState} (h : Notes b b') : b'.space = b.space :=
  congrArg (·.2.2.1) h

/-- What the shared fields of the rules that `A` holds of are made of. -/
structure FieldParts (A : Rule → Prop) (P : {α : Type} → Build α → Prop) : Prop where
  closed : Closed P
  hereditary : Rule.Hereditary A
  formula : ∀ r φ, A r → P (formulaField r φ)

/-- What the fields of such rules are made of where blocks are built. -/
structure MemberParts (A : Rule → Prop) (P : {α : Type} → Build α → Prop) : Prop
    extends FieldParts A P where
  table : ∀ part, P (tableBlock part)
  member : ∀ r φ key, A r → r.classify = .partitionBlock ∨ r.classify = .valueBlock →
    P (blockMember r φ key)

/-- What shared fields are made of. -/
structure Parts (P : {α : Type} → Build α → Prop) : Prop where
  closed : Closed P
  note : ∀ f : BuildState → BuildState, (∀ b, Notes b (f b)) → P (modify f : Build Unit)
  formula : ∀ r φ, P (formulaField r φ)

/-- What fields are made of where blocks are built. -/
structure BlockParts (P : {α : Type} → Build α → Prop) : Prop extends Parts P where
  table : ∀ part, P (tableBlock part)
  member : ∀ r φ key, P (blockMember r φ key)

/-- What the fields of dimensions are bound by. -/
structure BindParts (P : {α : Type} → Build α → Prop) : Prop extends Parts P where
  direct : ∀ r, P (directField r)
  bindTo : ∀ rank name, P (modify fun b => { b with
    space := b.space.modifyDimension rank fun d => { d with selectionField := some name } } :
      Build Unit)

/-- What is done before the candidates is made of. -/
structure ReadyParts (P : {α : Type} → Build α → Prop) : Prop extends BindParts P where
  move : ∀ C name, P (edit C fun e => .ok (e.moveFieldToTail name))
  count : ∀ rules, P (modify fun b => { b with space := b.space.countUses rules } : Build Unit)

/-- What a build is made of, but for blocks. -/
structure FirstParts (P : {α : Type} → Build α → Prop) : Prop extends ReadyParts P where
  mark : ∀ C name cost, P (markCandidate C name cost)

variable {P : {α : Type} → Build α → Prop}

/-! ## Rules -/

section Rules

variable {A : Rule → Prop}

mutual

theorem FieldParts.sharedField (hP : FieldParts A P) : ∀ r, A r → P (sharedField r)
  | ⟨template, className, operands, cost, tieBreak⟩, hr => by
      unfold Build.sharedField
      refine hP.closed.bind hP.closed.get fun b => ?_
      split
      · exact hP.closed.pure _
      · exact hP.closed.bind
          (hP.sharedOperands operands fun inner hinner => hP.hereditary _ inner hr hinner) fun _ =>
            hP.formula _ _ hr

theorem FieldParts.sharedOperands (hP : FieldParts A P) :
    ∀ xs : List (RuleOperand Rule), (∀ inner, .rule inner ∈ xs → A inner) → P (sharedOperands xs)
  | [], _ => by unfold Build.sharedOperands; exact hP.closed.pure _
  | .field name type :: rest, h => by
      unfold Build.sharedOperands
      exact hP.closed.bind (hP.sharedOperands rest fun inner hinner =>
        h inner (List.mem_cons_of_mem _ hinner)) fun _ => hP.closed.pure _
  | .rule inner :: rest, h => by
      unfold Build.sharedOperands
      exact hP.closed.bind (hP.sharedField inner (h inner List.mem_cons_self)) fun _ =>
        hP.closed.bind (hP.sharedOperands rest fun inner hinner =>
          h inner (List.mem_cons_of_mem _ hinner)) fun _ => hP.closed.pure _
  | .part part :: rest, h => by
      unfold Build.sharedOperands
      exact hP.closed.bind hP.closed.get fun _ => hP.closed.bind (hP.closed.lift _) fun _ =>
        hP.closed.bind (hP.sharedOperands rest fun inner hinner =>
          h inner (List.mem_cons_of_mem _ hinner)) fun _ => hP.closed.pure _

end

theorem FieldParts.statisticOperands (hP : FieldParts A P) (r : Rule) :
    ∀ xs : List (RuleOperand Rule), (∀ inner, .rule inner ∈ xs → A inner) →
      P (statisticOperands r xs)
  | [], _ => by unfold Build.statisticOperands; exact hP.closed.pure _
  | .field name type :: rest, h => by
      unfold Build.statisticOperands
      exact hP.closed.bind (hP.statisticOperands r rest fun inner hinner =>
        h inner (List.mem_cons_of_mem _ hinner)) fun _ => hP.closed.pure _
  | .rule inner :: rest, h => by
      unfold Build.statisticOperands
      exact hP.closed.bind (hP.sharedField inner (h inner List.mem_cons_self)) fun _ =>
        hP.closed.bind (hP.statisticOperands r rest fun inner hinner =>
          h inner (List.mem_cons_of_mem _ hinner)) fun _ => hP.closed.pure _
  | .part part :: rest, _ => by unfold Build.statisticOperands; exact hP.closed.lift _

theorem FieldParts.tableOperand (hP : FieldParts A P) (r : Rule)
    (h : ∀ inner, .rule inner ∈ r.operands → A inner) : P (tableOperand r) := by
  unfold Build.tableOperand
  split
  · exact hP.closed.pure _
  · rename_i inner _ heq
    exact hP.closed.bind (hP.sharedField inner (h inner (heq ▸ List.mem_cons_self))) fun _ =>
      hP.closed.pure _
  · exact hP.closed.lift _

theorem MemberParts.partitionBlockMember (hP : MemberParts A P) {r : Rule} (hr : A r)
    (hsort : r.classify = .partitionBlock) : P (partitionBlockMember r) := by
  unfold Build.partitionBlockMember
  split
  · exact hP.closed.lift _
  · exact hP.closed.lift _
  · exact hP.closed.bind (hP.table _) fun _ =>
      hP.closed.bind (hP.statisticOperands r _ fun inner hinner =>
        hP.hereditary r inner hr (List.mem_of_mem_drop hinner)) fun _ =>
          hP.closed.bind hP.closed.get fun _ => hP.closed.bind (hP.closed.lift _) fun _ =>
            hP.member _ _ _ hr (.inl hsort)

theorem FieldParts.valueBlockMember (hP : FieldParts A P) {r : Rule} (hr : A r)
    (hmember : ∀ φ key, P (blockMember r φ key)) (operator member : String) :
    P (valueBlockMember r operator member) := by
  unfold Build.valueBlockMember
  refine hP.closed.bind (hP.closed.lift _) fun _ => hP.closed.bind (hP.closed.entity _) fun _ => ?_
  split
  · exact hP.closed.bind (hP.tableOperand r fun inner => hP.hereditary r inner hr) fun _ =>
      hP.closed.bind (hmember _ _) fun _ => hP.closed.pure _
  · exact hP.closed.pure _

mutual

theorem MemberParts.sparseField (hP : MemberParts A P) : ∀ r, A r → P (sparseField r)
  | ⟨template, className, operands, cost, tieBreak⟩, hr => by
      have plain : P (do
          let ops ← Build.sparseOperands operands
          formulaField ⟨template, className, operands, cost, tieBreak⟩ (template.formula ops)) :=
        hP.closed.bind (hP.sparseOperands operands fun inner => hP.hereditary _ inner hr)
          fun _ => hP.formula _ _ hr
      have second : ∀ x inner rest, operands = x :: .rule inner :: rest →
          P (Build.sparseField inner) := by
        match operands with
        | _ :: .rule inner :: _ =>
          intro _ _ _ h
          cases h
          exact hP.sparseField inner (hP.hereditary _ inner hr
            (List.mem_cons_of_mem _ List.mem_cons_self))
        | [] | [_] | _ :: .field .. :: _ | _ :: .part _ :: _ => intro _ _ _ h; cases h
      unfold Build.sparseField
      refine hP.closed.bind hP.closed.get fun b => ?_
      split
      · exact hP.closed.pure _
      · split
        · rename_i hsort
          exact hP.partitionBlockMember hr hsort
        · rename_i hsort
          split
          · refine hP.closed.bind (second _ _ _ rfl) fun member =>
              hP.closed.bind (hP.valueBlockMember hr (fun φ key => hP.member _ φ key hr (.inr hsort)) _
                member) fun known => ?_
            cases known with
            | some name => exact hP.closed.pure _
            | none => exact plain
          · exact hP.closed.lift _
          · exact hP.closed.lift _
        · exact plain

theorem MemberParts.sparseOperands (hP : MemberParts A P) :
    ∀ xs : List (RuleOperand Rule), (∀ inner, .rule inner ∈ xs → A inner) → P (sparseOperands xs)
  | [], _ => by unfold Build.sparseOperands; exact hP.closed.pure _
  | .field name type :: rest, h => by
      unfold Build.sparseOperands
      exact hP.closed.bind (hP.sparseOperands rest fun inner hinner =>
        h inner (List.mem_cons_of_mem _ hinner)) fun _ => hP.closed.pure _
  | .rule inner :: rest, h => by
      have last := hP.sparseOperands rest fun inner hinner =>
        h inner (List.mem_cons_of_mem _ hinner)
      unfold Build.sparseOperands
      dsimp only
      split
      · exact hP.closed.bind (hP.sharedField inner (h inner List.mem_cons_self)) fun _ =>
          hP.closed.bind last fun _ => hP.closed.pure _
      · exact hP.closed.bind (hP.sparseField inner (h inner List.mem_cons_self)) fun _ =>
          hP.closed.bind last fun _ => hP.closed.pure _
  | .part part :: rest, h => by
      unfold Build.sparseOperands
      exact hP.closed.bind hP.closed.get fun _ => hP.closed.bind (hP.closed.lift _) fun _ =>
        hP.closed.bind (hP.sparseOperands rest fun inner hinner =>
          h inner (List.mem_cons_of_mem _ hinner)) fun _ => hP.closed.pure _

end

end Rules

/-! ### Where it does not depend on the rule -/

theorem Parts.fields (hP : Parts P) : FieldParts (fun _ => True) P where
  closed := hP.closed
  hereditary := fun _ _ _ _ => trivial
  formula := fun r φ _ => hP.formula r φ

theorem BlockParts.members (hP : BlockParts P) : MemberParts (fun _ => True) P where
  toFieldParts := hP.toParts.fields
  table := hP.table
  member := fun r φ key _ _ => hP.member r φ key

theorem closed_recordField (hP : Parts P) (r : Rule) (name : String) : P (recordField r name) :=
  hP.note _ fun _ => rfl

theorem closed_checkInterrupt (hP : Parts P) : P checkInterrupt := by
  have stop : ∀ seen : Bool, P (if seen then throw .interrupted else pure () : Build Unit)
    | true => hP.closed.lift (.error .interrupted)
    | false => hP.closed.pure _
  exact hP.closed.bind hP.closed.get fun b =>
    hP.closed.bind (hP.note _ fun _ => rfl) fun _ => stop b.interrupt.look.1

/-- A field for a formula, and a note of it. -/
theorem closed_formulaField (hP : Closed P)
    (note : ∀ f : BuildState → BuildState, (∀ b, Notes b (f b)) → P (modify f : Build Unit))
    (field : ∀ C φ type make, P (fieldFor C φ type make)) (r : Rule) (φ : Formula) :
    P (formulaField r φ) :=
  hP.bind (field _ _ _ _) fun _ => hP.bind (note _ fun _ => rfl) fun _ => hP.pure _

theorem closed_sharedField (hP : Parts P) (r : Rule) : P (sharedField r) :=
  hP.fields.sharedField r trivial

theorem closed_sharedOperands (hP : Parts P) (xs : List (RuleOperand Rule)) :
    P (sharedOperands xs) :=
  hP.fields.sharedOperands xs fun _ _ => trivial

theorem closed_statisticOperands (hP : Parts P) (r : Rule) (xs : List (RuleOperand Rule)) :
    P (statisticOperands r xs) :=
  hP.fields.statisticOperands r xs fun _ _ => trivial

theorem closed_valueBlockMember (hP : BlockParts P) (r : Rule) (operator member : String) :
    P (valueBlockMember r operator member) :=
  hP.toParts.fields.valueBlockMember trivial (hP.member r) operator member

theorem closed_sparseOperands (hP : BlockParts P) (xs : List (RuleOperand Rule)) :
    P (sparseOperands xs) :=
  hP.members.sparseOperands xs fun _ _ => trivial

/-! ## Candidates -/

theorem closed_candidates (hP : Closed P) (hcheck : P checkInterrupt) {o : Options}
    {candidate : NewFields → Rule → Build NewFields} :
    ∀ (rules : List Rule) (new : NewFields), (∀ r ∈ rules, ∀ new, P (candidate new r)) →
      P (candidates o candidate new rules)
  | [], _, _ => by unfold candidates; exact hP.pure _
  | r :: rest, new, h => by
      unfold candidates
      refine hP.bind hcheck fun _ => ?_
      split
      · exact hP.pure _
      · exact hP.bind (h r List.mem_cons_self new) fun new' =>
          closed_candidates hP hcheck rest new' fun x hx => h x (List.mem_cons_of_mem _ hx)

theorem closed_directCandidate (hP : Closed P) (hdirect : ∀ r, P (directField r))
    (hmark : ∀ C name cost, P (markCandidate C name cost)) (new : NewFields) (r : Rule) :
    P (directCandidate new r) := by
  unfold directCandidate
  refine hP.bind (hdirect r) fun name => hP.bind hP.get fun b => ?_
  split
  · exact hP.pure _
  · exact hP.bind (hmark _ _ _) fun _ => hP.pure _

theorem MemberParts.sharedCandidate {A : Rule → Prop} (hP : MemberParts A P)
    (hmark : ∀ C name cost, P (markCandidate C name cost)) (o : Options) (mode : Mode)
    (new : NewFields) {r : Rule} (hr : A r) : P (sharedCandidate o mode new r) := by
  unfold Build.sharedCandidate
  refine hP.closed.bind hP.closed.get fun b => ?_
  have last : ∀ name, P (do
      let b' ← get
      let isNew := (b.fieldOf? r).isNone && b'.isCreated r.className name
      if isNew && !new.has r.className name then return new ++ [(r, name)]
      else
        markCandidate r.className name r.cost
        return new) := by
    intro name
    refine hP.closed.bind hP.closed.get fun b' => ?_
    dsimp only
    split
    · exact hP.closed.pure _
    · exact hP.closed.bind (hmark _ _ _) fun _ => hP.closed.pure _
  dsimp only
  split
  · exact hP.closed.bind (hP.sparseField r hr) last
  · exact hP.closed.bind (hP.toFieldParts.sharedField r hr) last

theorem closed_sharedCandidate (hP : BlockParts P)
    (hmark : ∀ C name cost, P (markCandidate C name cost)) (o : Options) (mode : Mode)
    (new : NewFields) (r : Rule) : P (sharedCandidate o mode new r) :=
  hP.members.sharedCandidate hmark o mode new trivial

theorem closed_markNew (hP : Closed P) (hmark : ∀ C name cost, P (markCandidate C name cost))
    (new : NewFields) : P (markNew new) :=
  hP.bind hP.get fun _ => hP.bind (hP.forM fun _ _ => hmark _ _ _) fun _ => hP.pure _

/-! ## Order -/

theorem closed_moveFields (hP : Closed P)
    (hmove : ∀ C name, P (edit C fun e => .ok (e.moveFieldToTail name))) :
    ∀ (paths moved : List FieldPath), P (moveFields moved paths)
  | [], _ => by unfold moveFields; exact hP.pure _
  | path :: rest, moved => by
      unfold moveFields
      refine hP.bind (hP.entity _) fun e => ?_
      dsimp only
      split
      · exact closed_moveFields hP hmove rest moved
      · exact hP.bind (hmove _ _) fun _ => closed_moveFields hP hmove rest _

theorem closed_arrangeFields (hP : Closed P)
    (hmove : ∀ C name, P (edit C fun e => .ok (e.moveFieldToTail name))) (new : List FieldPath) :
    P (arrangeFields new) :=
  hP.bind hP.get fun _ => closed_moveFields hP hmove _ _

theorem closed_movePartition (hP : Closed P)
    (hdescriptor : ∀ p : Partition, P (edit p.parentClass fun e => .ok (match p.descriptorField with
      | some field => e.moveFieldToTail field
      | none => e)))
    (hblock : ∀ C block, P (moveBlock C block)) (p : Partition) : P (movePartition p) := by
  unfold movePartition
  refine hP.bind (hdescriptor p) fun _ => ?_
  split
  · exact hblock _ _
  · exact hP.pure _

theorem closed_arrangeBlocks (hP : Closed P) (hblock : ∀ C block, P (moveBlock C block))
    (hpartition : ∀ p, P (movePartition p)) : P arrangeBlocks :=
  hP.bind hP.get fun _ => hP.bind (hP.forM fun _ _ => hblock _ _) fun _ =>
    hP.forM fun p _ => hpartition p

/-! ## Before the candidates -/

theorem closed_dimensionField (hP : BindParts P) (o : Options) (d : Dimension) :
    P (dimensionField o d) := by
  unfold dimensionField
  split
  · exact hP.closed.pure _
  · split
    · exact hP.closed.bind (hP.note _ fun _ => rfl) fun _ => closed_sharedField hP.toParts _
    · exact hP.direct _

theorem closed_bindDimension (hP : BindParts P) (o : Options) (rank : Nat) :
    P (bindDimension o rank) := by
  unfold bindDimension
  refine hP.closed.bind (closed_checkInterrupt hP.toParts) fun _ => hP.closed.bind hP.closed.get
    fun b => ?_
  split
  · exact hP.closed.pure _
  · exact hP.closed.bind (closed_dimensionField hP o _) fun _ => hP.bindTo _ _

theorem closed_bindDimensions (hP : ReadyParts P) (o : Options) : P (bindDimensions o) :=
  hP.closed.bind hP.closed.get fun _ =>
    hP.closed.bind (hP.closed.forM fun _ _ => closed_bindDimension hP.toBindParts o _) fun _ =>
      hP.closed.bind hP.closed.get fun _ => closed_arrangeFields hP.closed hP.move _

theorem closed_prepare (hP : ReadyParts P) (o : Options) (mode : Mode) (rules : List Rule) :
    P (prepare o mode rules) := by
  unfold prepare
  refine hP.closed.bind (hP.count rules) fun _ =>
    hP.closed.bind (closed_bindDimensions hP o) fun _ => hP.closed.forM fun r _ =>
      hP.closed.bind (hP.note _ fun _ => rfl) fun _ => ?_
  split
  · exact hP.note _ fun _ => rfl
  · exact hP.closed.pure _

/-! ## Whole builds -/

/-- Rules are shared in every mode but the standard one. -/
theorem shareRules_of_mode {o : Options} (hmode : Mode.ofOptions o ≠ .standard) :
    o.shareRules = true := by
  by_contra hno
  exact hmode (by rw [Mode.ofOptions, if_neg hno])

section Whole

variable {A : Rule → Prop}

theorem closed_realize (hP : MemberParts A P) (hfirst : FirstParts P) (o : Options)
    {rules : List Rule} (hrules : ∀ r ∈ rules, A r) : P (realize o rules) := by
  have hcheck := closed_checkInterrupt hfirst.toParts
  unfold realize
  split
  · exact hP.closed.bind (closed_candidates hP.closed hcheck rules [] fun r _ new =>
      closed_directCandidate hP.closed hfirst.direct hfirst.mark new r) fun _ =>
        closed_markNew hP.closed hfirst.mark _
  · exact hP.closed.bind (closed_prepare hfirst.toReadyParts o _ rules) fun _ =>
      hP.closed.bind (closed_candidates hP.closed hcheck rules [] fun r hr new =>
        hP.sharedCandidate hfirst.mark o _ new (hrules r hr)) fun _ =>
          closed_markNew hP.closed hfirst.mark _

theorem closed_layOut (hP : MemberParts A P) (hfirst : FirstParts P) (harrange : P arrangeBlocks)
    (o : Options) {rules : List Rule} (hrules : ∀ r ∈ rules, A r) : P (layOut o rules) := by
  unfold layOut
  refine hP.closed.bind (closed_realize hP hfirst o hrules) fun _ =>
    hP.closed.bind (closed_arrangeFields hP.closed hfirst.move _) fun _ => ?_
  split
  · exact harrange
  · exact hP.closed.pure _

end Whole

end Build

end FeatureSynth
