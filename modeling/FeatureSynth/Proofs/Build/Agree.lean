/-
# Builds and tie-breaks

A tie-break decides between two candidates of a request, before a build.  The build keeps it, with
the rules in its ledgers and among the new fields, and does not look at it any more.  So candidates
that come in one order and differ in tie-breaks alone are built alike.

`Agree` relates two steps that come to the same from states that are the same up to the
tie-breaks in their ledgers.  It is composed along the program, each step with itself or, where
a candidate is an argument, with the step for a candidate that differs in its tie-break.
-/
import FeatureSynth.Proofs.Build.Run
import FeatureSynth.Proofs.Rule.Untied

namespace FeatureSynth

/-! ## States -/

namespace BuildState

/-- A state without the tie-breaks in its ledgers. -/
def untied (b : BuildState) : BuildState :=
  { b with fieldOf := b.fieldOf.untied, blockOf := b.blockOf.untied }

variable {b c : BuildState} {r r' : Rule}

/-- What is in a state but for its ledgers goes by the state without tie-breaks. -/
theorem exists_of_untied (h : b.untied = c.untied) : ∃ fieldOf blockOf : Ledger,
    fieldOf.untied = b.fieldOf.untied ∧ blockOf.untied = b.blockOf.untied ∧
      c = { b with fieldOf, blockOf } := by
  obtain ⟨schema, registry, space, names, fieldOf, blockOf, fields, blocks, reused, stop⟩ := c
  cases b
  simp only [untied, mk.injEq] at h
  obtain ⟨rfl, rfl, rfl, rfl, hfields, hblocks, rfl, rfl, rfl, rfl⟩ := h
  exact ⟨fieldOf, blockOf, hfields.symm, hblocks.symm, rfl⟩

theorem fieldOf?_untied (h : b.untied = c.untied) (hr : r.untied = r'.untied) :
    b.fieldOf? r = c.fieldOf? r' := by
  obtain ⟨fieldOf, blockOf, hfields, -, rfl⟩ := exists_of_untied h
  have horder := Rule.compareCostName_untied b.space
  simp only [fieldOf?, Ledger.name?]
  rw [← Ledger.get?_untied horder, ← Ledger.get?_untied horder fieldOf, hfields, hr]

theorem contains_untied (h : b.untied = c.untied) (hr : r.untied = r'.untied) :
    b.blockOf.contains b.space.compareBlock r = c.blockOf.contains c.space.compareBlock r' := by
  obtain ⟨fieldOf, blockOf, -, hblocks, rfl⟩ := exists_of_untied h
  have horder := Rule.compareBlock_untied b.space
  simp only
  rw [← Ledger.contains_untied horder, ← Ledger.contains_untied horder blockOf, hblocks, hr]

end BuildState

namespace Build

variable {α α' β β' : Type}

/-! ## Steps that agree -/

/-- Two results of steps: related values or one error, in one state up to tie-breaks. -/
inductive SameEnd (R : α → α' → Prop) :
    Except BuildError α × BuildState → Except BuildError α' × BuildState → Prop where
  | ok {x y b c} (value : R x y) (state : b.untied = c.untied) : SameEnd R (.ok x, b) (.ok y, c)
  | error {e b c} (state : b.untied = c.untied) : SameEnd R (.error e, b) (.error e, c)

/-- From states that are the same up to tie-breaks two steps come to related values in such states,
or fail alike. -/
def Agree (R : α → α' → Prop) (m : Build α) (m' : Build α') : Prop :=
  ∀ b c : BuildState, b.untied = c.untied → SameEnd R (m.run b) (m'.run c)

/-- A step that does not look at tie-breaks. -/
abbrev Blind (m : Build α) : Prop := Agree Eq m m

namespace Agree

variable {R : α → α' → Prop} {S : β → β' → Prop}

theorem pure {x : α} {y : α'} (h : R x y) : Agree R (pure x : Build α) (pure y) :=
  fun _ _ hstate => .ok h hstate

theorem bind {m : Build α} {m' : Build α'} {f : α → Build β} {f' : α' → Build β'}
    (hm : Agree R m m') (hf : ∀ x y, R x y → Agree S (f x) (f' y)) :
    Agree S (m >>= f) (m' >>= f') := by
  intro b c hstate
  rw [run_bind, run_bind]
  have h := hm b c hstate
  revert h
  generalize m.run b = p
  generalize m'.run c = p'
  intro h
  cases h with
  | ok value state => exact hf _ _ value _ _ state
  | error state => exact .error state

theorem bind_eq {m m' : Build α} {f : α → Build β} {f' : α → Build β'} (hm : Agree Eq m m')
    (hf : ∀ x, Agree S (f x) (f' x)) : Agree S (m >>= f) (m' >>= f') :=
  hm.bind fun x _ h => h ▸ hf x

theorem get : Agree (fun b c => b.untied = c.untied) (get : Build BuildState) get :=
  fun _ _ hstate => .ok hstate hstate

theorem modify {f f' : BuildState → BuildState}
    (h : ∀ b c : BuildState, b.untied = c.untied → (f b).untied = (f' c).untied) :
    Agree Eq (modify f : Build Unit) (modify f') :=
  fun b c hstate => .ok rfl (h b c hstate)

theorem lift (x : Except BuildError α) : Blind (lift x) := by
  intro b c hstate
  cases x with
  | ok x => exact .ok rfl hstate
  | error e => exact .error hstate

/-- A step that looks at the state but not at the ledgers. -/
theorem look {f f' : BuildState → Build β} {T : β → β → Prop}
    (h : ∀ b fieldOf blockOf, Agree T (f b) (f' { b with fieldOf, blockOf })) :
    Agree T ((MonadState.get : Build BuildState) >>= f) (MonadState.get >>= f') := by
  refine get.bind fun b c hstate => ?_
  obtain ⟨fieldOf, blockOf, -, -, rfl⟩ := BuildState.exists_of_untied hstate
  exact h b fieldOf blockOf

/-- A change of the state that passes the ledgers by. -/
theorem change {f : BuildState → BuildState}
    (h : ∀ b fieldOf blockOf, f { b with fieldOf, blockOf } = { f b with fieldOf, blockOf }) :
    Agree Eq (MonadStateOf.modifyGet fun b => ((), f b) : Build Unit)
      (MonadStateOf.modifyGet fun b => ((), f b)) := by
  refine modify fun b c hstate => ?_
  obtain ⟨fieldOf, blockOf, hfields, hblocks, rfl⟩ := BuildState.exists_of_untied hstate
  calc (f b).untied
    _ = { f b with fieldOf := b.fieldOf.untied, blockOf := b.blockOf.untied } :=
      congrArg BuildState.untied (h b b.fieldOf b.blockOf)
    _ = { f b with fieldOf := fieldOf.untied, blockOf := blockOf.untied } := by
      rw [hfields, hblocks]
    _ = _ := (congrArg BuildState.untied (h b fieldOf blockOf)).symm

theorem ite {p : Prop} [Decidable p] {m n : Build α} {m' n' : Build α'} (hm : Agree R m m')
    (hn : Agree R n n') : Agree R (if p then m else n) (if p then m' else n') := by
  split
  · exact hm
  · exact hn

/-- Two loops over what is the same in one respect. -/
theorem forM {f f' : α → Build Unit} {γ : Type} (g : α → γ)
    (h : ∀ x y, g x = g y → Agree Eq (f x) (f' y)) :
    ∀ {xs ys : List α}, xs.map g = ys.map g → Agree Eq (forM xs f) (forM ys f')
  | [], [], _ => pure rfl
  | [], _ :: _, heq => absurd heq (by simp)
  | _ :: _, [], heq => absurd heq (by simp)
  | x :: xs, y :: ys, heq => by
      obtain ⟨hhead, htail⟩ := List.cons.inj heq
      rw [List.forM_cons, List.forM_cons]
      exact (h x y hhead).bind_eq fun _ => forM g h htail

theorem forM_blind {f : α → Build Unit} (h : ∀ x, Blind (f x)) (xs : List α) :
    Blind (ForM.forM xs f) :=
  forM id (fun x _ (heq : x = _) => heq ▸ h x) rfl

/-! ### Steps on the registry and the schema -/

theorem record (C : String) : Blind (Build.record C) :=
  look fun _ _ _ => lift _

theorem setRecord (C : String) (c : ClassRecord) :
    Blind (Build.setRecord C c) := change fun _ _ _ => rfl

theorem register (C : String) (more : ClassRecord → Except BuildError ClassRecord) :
    Blind (Build.register C more) :=
  (record C).bind_eq fun c => (lift (more c)).bind_eq fun _ => setRecord C _

theorem entity (C : String) : Blind (Build.entity C) :=
  look fun _ _ _ => lift _

theorem edit (C : String) (f : Entity → Except BuildError Entity) :
    Blind (Build.edit C f) :=
  (entity C).bind_eq fun e => (lift (f e)).bind_eq fun _ => change fun _ _ _ => rfl

theorem reuse (n : String) : Blind (Build.reuse n) :=
  bind_eq (change fun _ _ _ => rfl) fun _ => pure rfl

theorem checkInterrupt : Blind Build.checkInterrupt := by
  refine look fun b _ _ => bind_eq (change fun _ _ _ => rfl) fun _ => ?_
  dsimp only
  split
  · exact lift (.error .interrupted)
  · exact pure rfl

theorem freeName (C : String) (make : Naming) :
    Blind (Build.freeName C make) := by
  have hnext : Blind (nextName make) :=
    look fun b _ _ => (lift (make b.names b.space)).bind_eq fun p =>
      bind_eq (change fun _ _ _ => rfl) fun _ => pure rfl
  exact hnext.bind_eq fun stem => (entity C).bind_eq fun e => pure rfl

theorem noteField (C n : String) : Blind (Build.noteField C n) := by
  refine change fun b fieldOf blockOf => ?_
  show (if b.isCreated C n then _ else _) = _
  split <;> rfl

theorem insertDerived (C : String) (f : Field) :
    Blind (Build.insertDerived C f) :=
  (register C _).bind_eq fun _ => (edit C _).bind_eq fun _ => (noteField C _).bind_eq fun _ =>
    pure rfl

theorem markCandidate (C n : String) (cost : Float) :
    Blind (Build.markCandidate C n cost) := edit C _

/-! ### Steps on the ledgers -/

variable {r r' : Rule}

theorem recordField (hr : r.untied = r'.untied) (n : String) :
    Agree Eq (Build.recordField r n) (Build.recordField r' n) := by
  refine modify fun b c hstate => ?_
  obtain ⟨fieldOf, blockOf, hfields, hblocks, rfl⟩ := BuildState.exists_of_untied hstate
  have horder := Rule.compareCostName_untied b.space
  simp only [BuildState.untied, Ledger.record_untied horder, hfields, hblocks, hr]

theorem collectFields (hr : r.untied = r'.untied) :
    Agree Eq (Build.collectFields r) (Build.collectFields r') := by
  refine modify fun b c hstate => ?_
  obtain ⟨fieldOf, blockOf, hfields, hblocks, rfl⟩ := BuildState.exists_of_untied hstate
  have horder := Rule.compareCostName_untied b.space
  simp only [BuildState.untied, Ledger.foldl_enter_untied horder, hfields, hblocks,
    Rule.map_untied_subrules b.space hr]

theorem collectBlocks (hr : r.untied = r'.untied) :
    Agree Eq (Build.collectBlocks r) (Build.collectBlocks r') := by
  refine modify fun b c hstate => ?_
  obtain ⟨fieldOf, blockOf, hfields, hblocks, rfl⟩ := BuildState.exists_of_untied hstate
  have horder := Rule.compareBlock_untied b.space
  simp only [BuildState.untied, Ledger.foldl_enter_untied horder, hfields, hblocks,
    Rule.map_untied_blockRules b.space hr]

theorem updateBlock (hr : r.untied = r'.untied) (block : String) :
    Agree Eq
      (MonadStateOf.modifyGet fun b : BuildState =>
        ((), { b with blockOf := b.blockOf.update b.space.compareBlock r block }) : Build Unit)
      (MonadStateOf.modifyGet fun b : BuildState =>
        ((), { b with blockOf := b.blockOf.update b.space.compareBlock r' block })) := by
  refine modify fun b c hstate => ?_
  obtain ⟨fieldOf, blockOf, hfields, hblocks, rfl⟩ := BuildState.exists_of_untied hstate
  have horder := Rule.compareBlock_untied b.space
  simp only [BuildState.untied, Ledger.update_untied horder, hfields, hblocks, hr]

/-! ### Fields -/

theorem fieldFor (C : String) (φ : Formula) (type : Except BuildError FieldType) (make : Naming) :
    Blind (Build.fieldFor C φ type make) := by
  refine (record C).bind_eq fun c => ?_
  cases c.field? φ with
  | some n => exact reuse n
  | none =>
    exact (freeName C make).bind_eq fun n => (lift type).bind_eq fun _ => insertDerived C _

/-- What a rule is named after does not depend on its tie-break. -/
theorem ofRule_eq (hr : r.untied = r'.untied) (asBlock : Bool) :
    (fun n s => NameSource.ofRule n s r asBlock : Naming) = fun n s => n.ofRule s r' asBlock := by
  funext n s
  simp only [NameSource.ofRule, Space.ruleName]
  rw [← Rule.nameWith_untied r, hr, Rule.nameWith_untied]

theorem className_eq (hr : r.untied = r'.untied) : r.className = r'.className :=
  congrArg (·.className) hr

theorem resultType_eq (hr : r.untied = r'.untied) : r.resultType = r'.resultType := by
  rw [← Rule.resultType_untied, hr, Rule.resultType_untied]

theorem formulaField (hr : r.untied = r'.untied) (φ : Formula) :
    Agree Eq (Build.formulaField r φ) (Build.formulaField r' φ) := by
  have hfield : Agree Eq
      (Build.fieldFor r.className φ r.resultType fun n s => n.ofRule s r false)
      (Build.fieldFor r'.className φ r'.resultType fun n s => n.ofRule s r' false) := by
    rw [className_eq hr, resultType_eq hr, ofRule_eq hr]
    exact fieldFor _ φ _ _
  exact hfield.bind_eq fun n => (recordField hr n).bind_eq fun _ => pure rfl

theorem directField (hr : r.untied = r'.untied) :
    Agree Eq (Build.directField r) (Build.directField r') := by
  have hformula : ∀ s : Space, s.formula r = s.formula r' := by
    intro s
    rw [Space.formula, ← Rule.formulaWith_untied, hr, Rule.formulaWith_untied, Space.formula]
  have hlookup : ∀ (c : ClassRecord) (s : Space), c.lookupRule s r = c.lookupRule s r' := by
    intro c s
    unfold ClassRecord.lookupRule
    rw [hformula, ← Rule.signature_untied r, hr, Rule.signature_untied]
  unfold Build.directField
  rw [className_eq hr, resultType_eq hr, ofRule_eq hr]
  simp only [hlookup, hformula]
  refine (record _).bind_eq fun c => look fun b _ _ => (lift _).bind_eq fun p => ?_
  refine (setRecord _ p.2).bind_eq fun _ => ?_
  cases p.1 with
  | some n => exact reuse n
  | none => exact look fun b _ _ => (lift _).bind_eq fun φ => fieldFor _ φ _ _

mutual

theorem sharedField : ∀ {r r' : Rule}, r.untied = r'.untied →
    Agree Eq (Build.sharedField r) (Build.sharedField r')
  | ⟨template, className, operands, cost, tieBreak⟩, ⟨_, _, _, _, tieBreak'⟩, hr => by
      obtain ⟨rfl, rfl, rfl, rfl, -⟩ := Rule.mk.inj hr
      unfold Build.sharedField
      refine get.bind fun b c hstate => ?_
      dsimp only
      rw [BuildState.fieldOf?_untied hstate hr]
      cases c.fieldOf? ⟨template, className, operands, cost, tieBreak'⟩ with
      | some n => exact pure rfl
      | none => exact (sharedOperands operands).bind_eq fun _ => formulaField hr _

theorem sharedOperands : ∀ xs : List (RuleOperand Rule),
    Blind (Build.sharedOperands xs)
  | [] => by
      unfold Build.sharedOperands
      exact pure rfl
  | .field name type :: rest => by
      unfold Build.sharedOperands
      exact (sharedOperands rest).bind_eq fun _ => pure rfl
  | .rule inner :: rest => by
      unfold Build.sharedOperands
      exact (sharedField rfl).bind_eq fun _ => (sharedOperands rest).bind_eq fun _ => pure rfl
  | .part part :: rest => by
      unfold Build.sharedOperands
      exact look fun _ _ _ => (lift _).bind_eq fun _ => (sharedOperands rest).bind_eq fun _ =>
        pure rfl

end

/-! ### Members -/

theorem insertMember (C : String) (block : Option String) (φ : Formula) (f : Field)
    (make : Naming) :
    Blind (Build.insertMember C block φ f make) := by
  have hrest : ∀ block : String, Blind (do
        Build.register C (·.registerMember φ { f with block := some block })
        Build.noteField C f.name
        return block) :=
    fun block => (register C _).bind_eq fun _ => (noteField C _).bind_eq fun _ => pure rfl
  unfold Build.insertMember
  cases block with
  | some block => exact (edit C _).bind_eq fun _ => hrest block
  | none =>
    exact (freeName C make).bind_eq fun block => (register C _).bind_eq fun _ =>
      (edit C _).bind_eq fun _ => bind_eq (change fun _ _ _ => rfl) fun _ => hrest block

theorem partition (rank : Nat) : Blind (Build.partition rank) := by
  refine look fun b _ _ => ?_
  dsimp only
  cases b.space.partitions[rank]? with
  | some p => exact pure rfl
  | none => exact lift _

theorem modifyPartition (rank : Nat) (f : Partition → Partition) :
    Blind (Build.modifyPartition rank f) :=
  change fun _ _ _ => rfl

theorem descriptorField (rank : Nat) :
    Blind (Build.descriptorField rank) := by
  refine (partition rank).bind_eq fun p => ?_
  cases p.descriptorField with
  | some n => exact pure rfl
  | none =>
    exact look fun b _ _ => (lift _).bind_eq fun q => bind_eq (change fun _ _ _ => rfl) fun _ =>
      (fieldFor _ q.1 _ _).bind_eq fun n => (modifyPartition rank _).bind_eq fun _ => pure rfl

theorem tableBlock (part : Part) : Blind (Build.tableBlock part) := by
  refine (descriptorField _).bind_eq fun _ => look fun b _ _ => (lift _).bind_eq fun φ =>
    (lift _).bind_eq fun key => (partition _).bind_eq fun p => (record _).bind_eq fun c => ?_
  dsimp only
  split
  · exact (modifyPartition _ _).bind_eq fun _ => pure rfl
  · exact (freeName _ _).bind_eq fun n => (insertMember _ _ φ _ _).bind_eq fun block =>
      (modifyPartition _ _).bind_eq fun _ => pure rfl

theorem blockMember (hr : r.untied = r'.untied) (φ : Formula) (key : Nat) :
    Agree Eq (Build.blockMember r φ key) (Build.blockMember r' φ key) := by
  unfold Build.blockMember
  rw [className_eq hr, resultType_eq hr, ofRule_eq hr, ofRule_eq hr]
  refine (record _).bind_eq fun c => ?_
  cases c.member? φ key with
  | some n =>
    exact (reuse n).bind_eq fun n => (recordField hr n).bind_eq fun _ => pure rfl
  | none =>
    exact (freeName _ _).bind_eq fun n => (lift _).bind_eq fun type =>
      (insertMember _ _ φ _ _).bind_eq fun block => (updateBlock hr block).bind_eq fun _ =>
        (recordField hr n).bind_eq fun _ => pure rfl

theorem statisticOperands (hr : r.untied = r'.untied) : ∀ xs : List (RuleOperand Rule),
    Agree Eq (Build.statisticOperands r xs) (Build.statisticOperands r' xs)
  | [] => by
      unfold Build.statisticOperands
      exact pure rfl
  | .field name type :: rest => by
      unfold Build.statisticOperands
      exact (statisticOperands hr rest).bind_eq fun _ => pure rfl
  | .rule inner :: rest => by
      unfold Build.statisticOperands
      exact (sharedField rfl).bind_eq fun _ => (statisticOperands hr rest).bind_eq fun _ => pure rfl
  | .part part :: rest => by
      unfold Build.statisticOperands
      rw [Rule.name, className_eq hr, show r.template = r'.template from congrArg (·.template) hr]
      exact lift _

theorem partitionBlockMember (hr : r.untied = r'.untied) :
    Agree Eq (Build.partitionBlockMember r) (Build.partitionBlockMember r') := by
  have htemplate : r.template = r'.template := congrArg (·.template) hr
  have hoperands : r.operands = r'.operands := congrArg (·.operands) hr
  have hpart : r.usedPart? = r'.usedPart? := by
    rw [← Rule.usedPart?_untied, hr, Rule.usedPart?_untied]
  unfold Build.partitionBlockMember
  rw [htemplate, hpart, hoperands, Rule.name, Rule.name, className_eq hr, htemplate]
  split
  · exact lift _
  · exact lift _
  · exact (tableBlock _).bind_eq fun table => (statisticOperands hr _).bind_eq fun operands =>
      look fun _ _ _ => (lift _).bind_eq fun key => blockMember hr _ key

theorem tableOperand (hr : r.untied = r'.untied) :
    Agree Eq (Build.tableOperand r) (Build.tableOperand r') := by
  have htemplate : r.template = r'.template := congrArg (·.template) hr
  have hoperands : r.operands = r'.operands := congrArg (·.operands) hr
  unfold Build.tableOperand
  rw [hoperands, Rule.name, Rule.name, className_eq hr, htemplate]
  split
  · exact pure rfl
  · exact (sharedField rfl).bind_eq fun _ => pure rfl
  · exact lift _

theorem valueBlockMember (hr : r.untied = r'.untied) (operator member : String) :
    Agree Eq (Build.valueBlockMember r operator member)
      (Build.valueBlockMember r' operator member) := by
  have hclass : r.operandClass 1 = r'.operandClass 1 := by
    rw [← Rule.operandClass_untied, hr, Rule.operandClass_untied]
  unfold Build.valueBlockMember
  rw [hclass]
  refine (lift _).bind_eq fun C => (entity C).bind_eq fun e => ?_
  split
  · exact (tableOperand hr).bind_eq fun table => (blockMember hr _ _).bind_eq fun _ => pure rfl
  · exact pure rfl

mutual

theorem sparseField : ∀ {r r' : Rule}, r.untied = r'.untied →
    Agree Eq (Build.sparseField r) (Build.sparseField r')
  | ⟨template, className, operands, cost, tieBreak⟩, ⟨_, _, _, _, tieBreak'⟩, hr => by
      obtain ⟨rfl, rfl, rfl, rfl, -⟩ := Rule.mk.inj hr
      have hplain := (sparseOperands operands).bind_eq fun xs =>
        formulaField hr (template.formula xs)
      have hclassify : Rule.classify ⟨template, className, operands, cost, tieBreak⟩ =
          Rule.classify ⟨template, className, operands, cost, tieBreak'⟩ := by
        rw [← Rule.classify_untied, hr, Rule.classify_untied]
      unfold Build.sparseField
      refine get.bind fun b c hstate => ?_
      dsimp only
      rw [BuildState.fieldOf?_untied hstate hr, BuildState.contains_untied hstate hr, hclassify]
      cases c.fieldOf? ⟨template, className, operands, cost, tieBreak'⟩ with
      | some n => exact pure rfl
      | none =>
        dsimp only
        split
        · exact partitionBlockMember hr
        · split
          · refine (sparseField rfl).bind_eq fun member =>
              (valueBlockMember hr _ member).bind_eq fun known => ?_
            cases known with
            | some n => exact pure rfl
            | none => exact hplain
          · exact lift _
          · exact lift _
        · exact hplain

theorem sparseOperands : ∀ xs : List (RuleOperand Rule),
    Blind (Build.sparseOperands xs)
  | [] => by
      unfold Build.sparseOperands
      exact pure rfl
  | .field name type :: rest => by
      unfold Build.sparseOperands
      exact (sparseOperands rest).bind_eq fun _ => pure rfl
  | .rule inner :: rest => by
      have hrest := (sparseOperands rest)
      unfold Build.sparseOperands
      dsimp only
      split
      · exact (sharedField rfl).bind_eq fun _ => hrest.bind_eq fun _ => pure rfl
      · exact (sparseField rfl).bind_eq fun _ => hrest.bind_eq fun _ => pure rfl
  | .part part :: rest => by
      unfold Build.sparseOperands
      exact look fun _ _ _ => (lift _).bind_eq fun _ => (sparseOperands rest).bind_eq fun _ =>
        pure rfl

end

/-! ### Order -/

theorem moveFields : ∀ paths moved : List FieldPath,
    Blind (Build.moveFields moved paths)
  | [], _ => by
      unfold Build.moveFields
      exact pure rfl
  | path :: rest, moved => by
      unfold Build.moveFields
      refine (entity _).bind_eq fun e => ?_
      dsimp only
      split
      · exact moveFields rest moved
      · exact (edit _ _).bind_eq fun _ => moveFields rest _

theorem ledgerFields_eq {b c : BuildState} (h : b.untied = c.untied) :
    ledgerFields b = ledgerFields c := by
  have huntied : ∀ b : BuildState, ledgerFields b = ledgerFields b.untied := by
    intro b
    simp only [ledgerFields, BuildState.untied, Ledger.untied, List.filterMap_map]
    rfl
  rw [huntied, h, ← huntied]

theorem arrangeFields (new : List FieldPath) :
    Blind (Build.arrangeFields new) :=
  get.bind fun _ _ hstate => ledgerFields_eq hstate ▸ moveFields _ []

theorem moveBlock (C block : String) : Blind (Build.moveBlock C block) :=
  edit C _

theorem movePartition (p : Partition) :
    Blind (Build.movePartition p) := by
  refine (edit _ _).bind_eq fun _ => ?_
  cases p.tableBlock with
  | some block => exact moveBlock _ block
  | none => exact pure rfl

theorem arrangeBlocks : Blind Build.arrangeBlocks := by
  refine get.bind fun b c hstate => ?_
  obtain ⟨fieldOf, blockOf, -, hblocks, rfl⟩ := BuildState.exists_of_untied hstate
  have hnamed : ∀ l : Ledger, (l.entries.filter (·.2.isSome)).map Rule.untiedNote =
      l.untied.entries.filter (·.2.isSome) := fun l => by
    rw [Ledger.untied, List.filter_map]
    rfl
  have hranks : ∀ f : Rule × Option String → Option Nat, (∀ x, f (Rule.untiedNote x) = f x) →
      ∀ l : Ledger, (l.entries.filter (·.2.isSome)).filterMap f =
        (l.untied.entries.filter (·.2.isSome)).filterMap f := by
    intro f hf l
    rw [← hnamed, List.filterMap_map, show f ∘ Rule.untiedNote = f from funext hf]
  have hpartition : ∀ r : Rule, blockPartition? r.untied = blockPartition? r := fun r => by
    rw [blockPartition?, blockPartition?, Rule.classify_untied, Rule.usedPart?_untied]
  dsimp only
  rw [hranks _ (fun x => hpartition x.1) b.blockOf, hranks _ (fun x => hpartition x.1) blockOf,
    hblocks]
  refine (forM Rule.untiedNote ?_ ?_).bind_eq fun _ => forM_blind movePartition _
  · rintro ⟨r, n⟩ ⟨r', n'⟩ h
    obtain ⟨hr, rfl⟩ := Prod.mk.inj h
    exact className_eq hr ▸ moveBlock _ _
  · rw [hnamed, hnamed, hblocks]

/-! ### Dimensions -/

theorem dimensionField (o : Options) (d : Dimension) :
    Blind (Build.dimensionField o d) := by
  unfold Build.dimensionField
  split
  · exact pure rfl
  · split
    · exact (collectFields rfl).bind_eq fun _ => sharedField rfl
    · exact directField rfl

theorem bindDimension (o : Options) (rank : Nat) :
    Blind (Build.bindDimension o rank) := by
  refine checkInterrupt.bind_eq fun _ => look fun b _ _ => ?_
  dsimp only
  split
  · exact pure rfl
  · exact (dimensionField o _).bind_eq fun n => change fun _ _ _ => rfl

theorem bindDimensions (o : Options) : Blind (Build.bindDimensions o) :=
  look fun _ _ _ =>
    (forM_blind (bindDimension o) _).bind_eq fun _ => look fun _ _ _ => arrangeFields _

/-! ### Candidates -/

/-- The same new fields, up to the tie-breaks of candidates. -/
def SameNew (new new' : NewFields) : Prop :=
  new.map Rule.untiedNote = new'.map Rule.untiedNote

variable {new new' : NewFields}

theorem SameNew.has (h : SameNew new new') (C n : String) : new.has C n = new'.has C n := by
  have huntied : ∀ l : NewFields, l.has C n = NewFields.has (l.map Rule.untiedNote) C n := by
    intro l
    rw [NewFields.has, NewFields.has, List.any_map]
    rfl
  rw [huntied, h, ← huntied]

theorem SameNew.append (h : SameNew new new') (hr : r.untied = r'.untied) (n : String) :
    SameNew (new ++ [(r, n)]) (new' ++ [(r', n)]) := by
  simp only [SameNew, List.map_append, List.map_cons, List.map_nil, Rule.untiedNote] at h ⊢
  rw [h, hr]

theorem SameNew.sorted (h : SameNew new new') (s : Space) :
    SameNew (new.sorted s) (new'.sorted s) := by
  have huntied : ∀ new : NewFields, (new.sorted s).map Rule.untiedNote =
      NewFields.sorted s (new.map Rule.untiedNote) := fun new =>
    List.map_mergeSort fun x _ y _ => by
      simp only [Rule.untiedNote, Rule.compareCostName_untied]
  rw [SameNew, huntied, h, ← huntied]

theorem SameNew.paths (h : SameNew new new') : new.paths = new'.paths := by
  have huntied : ∀ new : NewFields, new.paths = NewFields.paths (new.map Rule.untiedNote) := by
    intro new
    rw [NewFields.paths, NewFields.paths, List.map_map]
    rfl
  rw [huntied, h, ← huntied]

theorem markNew (h : SameNew new new') :
    Agree SameNew (Build.markNew new) (Build.markNew new') := by
  refine look fun b _ _ => ?_
  have hsorted := h.sorted b.space
  refine (forM Rule.untiedNote ?_ hsorted).bind_eq fun _ => pure hsorted
  rintro ⟨r, n⟩ ⟨r', n'⟩ hnote
  obtain ⟨hr, rfl⟩ := Prod.mk.inj hnote
  have hcost : r.cost = r'.cost := congrArg (·.cost) hr
  show Agree Eq (Build.markCandidate r.className n r.cost)
    (Build.markCandidate r'.className n r'.cost)
  rw [className_eq hr, hcost]
  exact markCandidate _ _ _

theorem directCandidate (h : SameNew new new') (hr : r.untied = r'.untied) :
    Agree SameNew (Build.directCandidate new r) (Build.directCandidate new' r') := by
  have hcost : r.cost = r'.cost := congrArg (·.cost) hr
  refine (directField hr).bind_eq fun n => look fun b _ _ => ?_
  rw [className_eq hr, hcost, h.has]
  refine ite ?_ ((markCandidate _ _ _).bind_eq fun _ => pure h)
  split
  · exact pure h
  · exact pure (h.append hr n)

theorem goesIntoBlock_eq (o : Options) {b c : BuildState} (h : b.untied = c.untied)
    (hr : r.untied = r'.untied) : goesIntoBlock o b r = goesIntoBlock o c r' := by
  have hpart : r.usedPart? = r'.usedPart? := by
    rw [← Rule.usedPart?_untied, hr, Rule.usedPart?_untied]
  have hspace : b.space = c.space := congrArg (·.space) h
  unfold goesIntoBlock
  rw [BuildState.contains_untied h hr, hpart, hspace]

theorem sharedCandidate (o : Options) (mode : Mode) (h : SameNew new new')
    (hr : r.untied = r'.untied) :
    Agree SameNew (Build.sharedCandidate o mode new r) (Build.sharedCandidate o mode new' r') := by
  have hcost : r.cost = r'.cost := congrArg (·.cost) hr
  refine get.bind fun b c hstate => ?_
  rw [BuildState.fieldOf?_untied hstate hr, goesIntoBlock_eq o hstate hr]
  have hrest : ∀ n, Agree SameNew
      (do
        let isNew := (c.fieldOf? r').isNone && (← MonadState.get).isCreated r.className n
        if isNew && !new.has r.className n then return new ++ [(r, n)]
        else
          Build.markCandidate r.className n r.cost
          return new)
      (do
        let isNew := (c.fieldOf? r').isNone && (← MonadState.get).isCreated r'.className n
        if isNew && !new'.has r'.className n then return new' ++ [(r', n)]
        else
          Build.markCandidate r'.className n r'.cost
          return new') := by
    intro n
    refine look fun b' _ _ => ?_
    rw [className_eq hr, hcost, h.has]
    exact ite (pure (h.append hr n)) ((markCandidate _ _ _).bind_eq fun _ => pure h)
  dsimp only
  split
  · exact (sparseField hr).bind_eq hrest
  · exact (sharedField hr).bind_eq hrest

variable {rules rules' : List Rule}

theorem candidates (o : Options) {candidate : NewFields → Rule → Build NewFields}
    (hcandidate : ∀ {new new' r r'}, SameNew new new' → r.untied = r'.untied →
      Agree SameNew (candidate new r) (candidate new' r')) :
    ∀ {rules rules' : List Rule} {new new' : NewFields},
      rules.map Rule.untied = rules'.map Rule.untied → SameNew new new' →
        Agree SameNew (Build.candidates o candidate new rules)
          (Build.candidates o candidate new' rules')
  | [], [], _, _, _, h => by
      unfold Build.candidates
      exact pure h
  | [], _ :: _, _, _, heq, _ => absurd heq (by simp)
  | _ :: _, [], _, _, heq, _ => absurd heq (by simp)
  | r :: rest, r' :: rest', new, new', heq, h => by
      obtain ⟨hr, hrest⟩ := List.cons.inj heq
      have hfull : isFull o new = isFull o new' := by
        rw [isFull, isFull, ← List.length_map Rule.untiedNote, h, List.length_map]
      unfold Build.candidates
      refine checkInterrupt.bind_eq fun _ => ?_
      rw [hfull]
      split
      · exact pure h
      · exact (hcandidate h hr).bind fun _ _ h => candidates o hcandidate hrest h

theorem prepare (o : Options) (mode : Mode) (heq : rules.map Rule.untied = rules'.map Rule.untied) :
    Agree Eq (Build.prepare o mode rules) (Build.prepare o mode rules') := by
  have hcount : ∀ s : Space, s.countUses rules = s.countUses rules' := by
    intro s
    rw [← Space.countUses_untied, heq, Space.countUses_untied]
  unfold Build.prepare
  simp only [hcount]
  refine bind_eq (change fun _ _ _ => rfl) fun _ => (bindDimensions o).bind_eq fun _ =>
    forM Rule.untied (fun r r' hr => ?_) heq
  refine (collectFields hr).bind_eq fun _ => ?_
  split
  · exact collectBlocks hr
  · exact pure rfl

theorem realize (o : Options) (heq : rules.map Rule.untied = rules'.map Rule.untied) :
    Agree SameNew (Build.realize o rules) (Build.realize o rules') := by
  unfold Build.realize
  cases Mode.ofOptions o with
  | standard => exact (candidates o directCandidate heq rfl).bind fun _ _ => markNew
  | optimized =>
    exact (prepare o _ heq).bind_eq fun _ =>
      (candidates o (sharedCandidate o _) heq rfl).bind fun _ _ => markNew
  | sparse =>
    exact (prepare o _ heq).bind_eq fun _ =>
      (candidates o (sharedCandidate o _) heq rfl).bind fun _ _ => markNew

theorem layOut (o : Options) (heq : rules.map Rule.untied = rules'.map Rule.untied) :
    Agree Eq (Build.layOut o rules) (Build.layOut o rules') := by
  refine (realize o heq).bind fun new new' h => ?_
  rw [h.paths]
  refine (arrangeFields _).bind_eq fun _ => ?_
  split
  · exact arrangeBlocks
  · exact pure rfl

theorem complete (o : Options) (heq : rules.map Rule.untied = rules'.map Rule.untied) :
    Agree Eq (Build.complete o rules) (Build.complete o rules') :=
  (layOut o heq).bind_eq fun _ => bind_eq (change fun _ _ _ => rfl) fun _ =>
    look fun _ _ _ => lift _

end Agree

/-! ## Whole builds -/

/-- Candidates that differ in tie-breaks alone are built alike. -/
theorem runBuild_of_untied {rules rules' : List Rule}
    (heq : rules.map Rule.untied = rules'.map Rule.untied) (catalogue : Catalogue) (o : Options)
    (schema : Schema) (space : Space) (interrupt : Interrupt) :
    (runBuild catalogue o schema space rules interrupt).1 =
        (runBuild catalogue o schema space rules' interrupt).1 ∧
      (runBuild catalogue o schema space rules interrupt).2.untied =
        (runBuild catalogue o schema space rules' interrupt).2.untied := by
  have hend := Agree.complete o heq (.start catalogue o schema space interrupt)
    (.start catalogue o schema space interrupt) rfl
  unfold runBuild
  revert hend
  generalize (Build.complete o rules).run _ = p
  generalize (Build.complete o rules').run _ = p'
  intro hend
  cases hend with
  | ok value state => exact ⟨congrArg Except.ok value, state⟩
  | error state => exact ⟨rfl, state⟩

end Build

end FeatureSynth
