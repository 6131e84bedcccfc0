/-
# Interning

A space finds the structure it is to register by search.  An *arena* looks it up: beside the
dimensions and the partitions it holds two tables from keys to ranks, and a call that registers
goes step by step, checking its arguments, looking the key up, adding the structure and entering
the key.  A step that fails stops the call, and what was done up to there would stay.

The tables are in step with the lists after any calls: a key has a rank exactly if the entry of that
rank carries it.  So an arena answers what the space answers that it holds, no two entries of it
are alike, and no call fails halfway.
-/
import FeatureSynth.Proofs.Space.Operations

namespace FeatureSynth

/-! ## Tables of keys -/

/-- Keys with the ranks they were entered under, the last one first. -/
abbrev KeyTable (κ : Type) := List (κ × Nat)

namespace KeyTable

variable {κ α : Type} [DecidableEq κ]

/-- The rank under a key. -/
def rank? (table : KeyTable κ) (key : κ) : Option Nat :=
  (table.find? fun e => e.1 = key).map (·.2)

/-- A table in step with a list: a key has a rank exactly if the entry of that rank carries it. -/
def Indexes (table : KeyTable κ) (keyOf : α → κ) (l : List α) : Prop :=
  ∀ key k, table.rank? key = some k ↔ ∃ y, l[k]? = some y ∧ keyOf y = key

variable {table : KeyTable κ} {keyOf : α → κ} {l l' : List α} {key : κ}

theorem rank?_cons (key key' : κ) (k : Nat) (table : KeyTable κ) :
    rank? ((key', k) :: table) key = if key' = key then some k else table.rank? key := by
  unfold rank?
  rw [List.find?_cons]
  by_cases h : key' = key <;> simp [h]

theorem indexes_nil : Indexes ([] : KeyTable κ) keyOf [] := by
  intro key k
  simp [rank?]

namespace Indexes

/-- One more entry behind the others, under a key that had none. -/
theorem push (h : Indexes table keyOf l) {y : α} (hkey : keyOf y = key)
    (hnew : table.rank? key = none) : Indexes ((key, l.length) :: table) keyOf (l ++ [y]) := by
  intro key' k
  rw [rank?_cons]
  by_cases heq : key = key'
  · subst heq
    rw [if_pos rfl, Option.some.injEq]
    constructor
    · rintro rfl
      exact ⟨y, List.getElem?_concat_length, hkey⟩
    · rintro ⟨z, hz, hzkey⟩
      rcases Nat.lt_trichotomy k l.length with hlt | rfl | hlt
      · rw [List.getElem?_append_left hlt] at hz
        cases hnew.symm.trans ((h key k).mpr ⟨z, hz, hzkey⟩)
      · rfl
      · rw [List.getElem?_eq_none (by simpa using hlt)] at hz
        cases hz
  · rw [if_neg heq, h key' k]
    refine exists_congr fun z => ?_
    rcases Nat.lt_trichotomy k l.length with hlt | rfl | hlt
    · rw [List.getElem?_append_left hlt]
    · rw [List.getElem?_concat_length, List.getElem?_eq_none le_rfl]
      constructor
      · rintro ⟨hz, -⟩
        cases hz
      · rintro ⟨hz, hzkey⟩
        cases hz
        exact absurd (hkey.symm.trans hzkey) heq
    · rw [List.getElem?_eq_none hlt.le, List.getElem?_eq_none (by simpa using hlt)]

/-- Looking a key up is a search for the entry that carries it. -/
theorem findIdx? (h : Indexes table keyOf l) {same : α → Bool}
    (hsame : ∀ y, same y = true ↔ keyOf y = key) : l.findIdx? same = table.rank? key := by
  cases hfind : l.findIdx? same with
  | some k =>
    obtain ⟨hlt, hk, -⟩ := List.findIdx?_eq_some_iff_getElem.mp hfind
    exact ((h key k).mpr ⟨_, List.getElem?_eq_getElem hlt, (hsame _).mp hk⟩).symm
  | none =>
    cases hrank : table.rank? key with
    | none => rfl
    | some k =>
      obtain ⟨y, hy, hkey⟩ := (h key k).mp hrank
      have hnone := List.findIdx?_eq_none_iff.mp hfind y (List.mem_of_getElem? hy)
      exact absurd ((hsame y).mpr hkey) (Bool.eq_false_iff.mp hnone)

/-- Entries that a table indexes are told apart by their keys. -/
theorem nodup (h : Indexes table keyOf l) : (l.map keyOf).Nodup := by
  refine List.nodup_iff_getElem?_ne_getElem?.mpr fun i j hij hj heq => ?_
  have hi : i < (l.map keyOf).length := hij.trans hj
  rw [List.length_map] at hi hj
  rw [List.getElem?_map, List.getElem?_map, List.getElem?_eq_getElem hi,
    List.getElem?_eq_getElem hj, Option.map_some, Option.map_some, Option.some.injEq] at heq
  have hi' := (h (keyOf l[i]) i).mpr ⟨_, List.getElem?_eq_getElem hi, rfl⟩
  have hj' := (h (keyOf l[i]) j).mpr ⟨_, List.getElem?_eq_getElem hj, heq.symm⟩
  exact hij.ne (Option.some.inj (hi'.symm.trans hj'))

/-- Only the keys of the entries matter. -/
theorem congr (h : Indexes table keyOf l) (hkeys : l'.map keyOf = l.map keyOf) :
    Indexes table keyOf l' := by
  have hiff : ∀ (l : List α) key (k : Nat),
      (∃ y, l[k]? = some y ∧ keyOf y = key) ↔ (l.map keyOf)[k]? = some key := by
    intro l key k
    rw [List.getElem?_map, Option.map_eq_some_iff]
  intro key k
  rw [h key k, hiff, hiff, hkeys]

end Indexes

end KeyTable

/-! ## Arenas -/

/-- A space with the tables that its dimensions and partitions are looked up in. -/
structure Arena extends Space where
  dimensionKeys : KeyTable (String × (String ⊕ Signature))
  partitionKeys : KeyTable (String × String × List Axis)

namespace Arena

def empty : Arena := ⟨.empty, [], []⟩

/-- A call on an arena; what it did before it fails stays. -/
abbrev Call (α : Type) := ExceptT BuildError (StateM Arena) α

def lift {α : Type} : Except BuildError α → Call α
  | .ok x => pure x
  | .error e => throw e

/-- The rank under a key, or that of a new dimension, whose key is entered. -/
def internDimension (key : String × (String ⊕ Signature)) (className : String)
    (origin : DimensionOrigin) : Call Nat := do
  match (← get).dimensionKeys.rank? key with
  | some rank => return rank
  | none =>
    let rank := (← get).dimensions.length
    modify fun a => { a with dimensions := a.dimensions ++ [⟨className, origin, 0, none, none⟩] }
    modify fun a => { a with dimensionKeys := (key, rank) :: a.dimensionKeys }
    return rank

def addFieldDimension (className field : String) (type : FieldType) : Call Nat := do
  lift (Space.checkDimension field type)
  internDimension (className, .inl field) className (.field field type)

def addRuleDimension (rule : Rule) : Call Nat := do
  lift (Space.checkRule rule)
  internDimension (rule.className, .inr rule.signature) rule.className (.rule rule)

/-- The rank under a key, or that of a new partition, whose key is entered. -/
def internPartition (className parentClass table : String) (axes : List Axis) : Call Nat := do
  match (← get).partitionKeys.rank? (parentClass, table, axes) with
  | some rank => return rank
  | none =>
    let rank := (← get).partitions.length
    modify fun a => { a with
      partitions := a.partitions ++ [Space.freshPartition className parentClass table axes] }
    modify fun a => { a with partitionKeys := ((parentClass, table, axes), rank) :: a.partitionKeys }
    return rank

/-- Fails with the fault of an axis, if it has one. -/
def checkAxis (parentClass className : String) (axis : Axis) : Call Unit := do
  match (← get).axisFault? className axis with
  | some fault => lift (breach (.partition parentClass fault))
  | none => return

def addPartition (parentClass table : String) (type : FieldType) (axes : List Axis) : Call Nat :=
  match type with
  | .objectArray className => do
    if axes = [] then lift (breach (.partition parentClass .noDimension))
    else
      forM axes (checkAxis parentClass className)
      internPartition className parentClass table axes
  | _ => lift (breach (.partition parentClass (.notTable table)))

def addPart (rank : Nat) (indexes : List Nat) (cost : Float) : Call Part := do
  match (← get).partitions[rank]? with
  | none => lift (breach (.unknownPartition rank))
  | some p =>
    if Space.fits p.axes indexes then
      modify fun a => { a with
        toSpace := a.modifyPartition rank fun p =>
          { p with parts := Partition.insertPart indexes cost p.parts } }
      return ⟨rank, indexes⟩
    else lift (breach (.unfitPart indexes p.table))

/-- Changes the space and answers nothing. -/
def change (f : Space → Space) : Call Space.Answer := do
  modify fun a => { a with toSpace := f a.toSpace }
  return .done

/-- The steps of a call. -/
def steps : Space.Operation → Call Space.Answer
  | .fieldDimension className field type => .rank <$> addFieldDimension className field type
  | .ruleDimension rule => .rank <$> addRuleDimension rule
  | .partition parentClass table type axes => .rank <$> addPartition parentClass table type axes
  | .part rank indexes cost => .part <$> addPart rank indexes cost
  | .usePart part => change fun s => Space.usePart s.depth s part
  | .resetUses => change Space.resetUses
  | .clearLevels => change Space.clearLevels
  | .clearLinks => change Space.clearLinks

/-- The answer to a call, or why it fails, and the arena after it. -/
def perform (a : Arena) (op : Space.Operation) : Except BuildError Space.Answer × Arena :=
  (steps op).run a

/-! ## Steps -/

variable {α β : Type} {a b : Arena}

theorem run_bind (m : Call α) (f : α → Call β) (a : Arena) :
    (m >>= f).run a =
      match m.run a with
      | (.ok x, a₁) => (f x).run a₁
      | (.error e, a₁) => (.error e, a₁) := by
  show (match m.run a with | (x, a₁) => (ExceptT.bindCont f x).run a₁) = _
  cases m.run a with
  | mk x a₁ => cases x <;> rfl

theorem run_map (f : α → β) (m : Call α) (a : Arena) :
    (f <$> m).run a = ((m.run a).1.map f, (m.run a).2) := by
  rw [map_eq_pure_bind, run_bind]
  cases m.run a with
  | mk x a₁ => cases x <;> rfl

theorem run_get_bind (f : Arena → Call β) (a : Arena) : (get >>= f).run a = (f a).run a := rfl

theorem run_lift (x : Except BuildError α) (a : Arena) : (lift x : Call α).run a = (x, a) := by
  cases x <;> rfl

/-- The tables of an arena are in step with its lists. -/
structure InStep (a : Arena) : Prop where
  dimensions : a.dimensionKeys.Indexes Dimension.identity a.dimensions
  partitions : a.partitionKeys.Indexes Partition.identity a.partitions

theorem inStep_empty : empty.InStep := ⟨KeyTable.indexes_nil, KeyTable.indexes_nil⟩

/-- A call on an arena does what is done on its space: it fails alike, with nothing changed, or
answers alike and leaves that space, with tables in step and, if it is the same space, the same
tables. -/
def Does (m : Call α) (a : Arena) : Except BuildError (α × Space) → Prop
  | .error e => m.run a = (.error e, a)
  | .ok (x, s) => ∃ a', m.run a = (.ok x, a') ∧ a'.toSpace = s ∧ a'.InStep ∧
      (s = a.toSpace → a' = a)

theorem does_breach (c : Contract) : Does (lift (breach c) : Call α) a (breach c) :=
  run_lift _ a

theorem Does.get_bind {f : Arena → Call α} {r : Except BuildError (α × Space)}
    (h : Does (f a) a r) : Does (get >>= f) a r := h

/-- A call that starts with a check. -/
theorem Does.check {m : Call β} {x : Except BuildError β} (hm : m.run a = (x, a))
    {f : β → Call α} {g : β → α × Space} (h : ∀ y, x = .ok y → Does (f y) a (.ok (g y))) :
    Does (m >>= f) a (x.map g) := by
  cases x with
  | error e => exact (run_bind m f a).trans (by rw [hm])
  | ok y =>
    have hy := h y rfl
    unfold Does at hy ⊢
    rw [run_bind, hm]
    exact hy

theorem Does.map {m : Call α} {r : Except BuildError (α × Space)} (f : α → β) (h : Does m a r) :
    Does (f <$> m) a (r.map fun (x, s) => (f x, s)) := by
  cases r with
  | error e =>
    have hrun : m.run a = (.error e, a) := h
    show (f <$> m).run a = _
    rw [run_map, hrun]
    rfl
  | ok y =>
    obtain ⟨a', hrun, hrest⟩ := h
    exact ⟨a', by rw [run_map, hrun]; rfl, hrest⟩

theorem does_internDimension (h : a.InStep) {same : Dimension → Bool} {C : String}
    {o : DimensionOrigin} {key : String × (String ⊕ Signature)}
    (hkey : (⟨C, o, 0, none, none⟩ : Dimension).identity = key)
    (hsame : ∀ d, same d = true ↔ d.identity = key) :
    Does (internDimension key C o) a (.ok (a.intern same C o)) := by
  have hrun : (internDimension key C o).run a =
      match a.dimensionKeys.rank? key with
      | some rank => (.ok rank, a)
      | none => (.ok a.dimensions.length,
          { a with
            dimensions := a.dimensions ++ [⟨C, o, 0, none, none⟩]
            dimensionKeys := (key, a.dimensions.length) :: a.dimensionKeys }) := by
    unfold internDimension
    rw [run_get_bind]
    cases a.dimensionKeys.rank? key <;> rfl
  unfold Does Space.intern
  rw [hrun, h.dimensions.findIdx? hsame]
  cases hrank : a.dimensionKeys.rank? key with
  | some rank => exact ⟨a, rfl, rfl, h, fun _ => rfl⟩
  | none =>
    refine ⟨_, rfl, rfl, ⟨h.dimensions.push hkey hrank, h.partitions⟩, fun heq => ?_⟩
    have hlength := congrArg (fun s : Space => s.dimensions.length) heq
    simp at hlength

theorem does_internPartition (h : a.InStep) (C parent table : String) (axes : List Axis) :
    Does (internPartition C parent table axes) a
      (.ok (a.toSpace.internPartition C parent table axes)) := by
  have hrun : (internPartition C parent table axes).run a =
      match a.partitionKeys.rank? (parent, table, axes) with
      | some rank => (.ok rank, a)
      | none => (.ok a.partitions.length,
          { a with
            partitions := a.partitions ++ [Space.freshPartition C parent table axes]
            partitionKeys := ((parent, table, axes), a.partitions.length) :: a.partitionKeys }) := by
    unfold internPartition
    rw [run_get_bind]
    cases a.partitionKeys.rank? (parent, table, axes) <;> rfl
  have hsame : ∀ p, Space.isPartition parent table axes p = true ↔
      p.identity = (parent, table, axes) :=
    fun p => @Space.isPartition_iff p (Space.freshPartition C parent table axes)
  unfold Does Space.internPartition
  rw [hrun, h.partitions.findIdx? hsame]
  cases hrank : a.partitionKeys.rank? (parent, table, axes) with
  | some rank => exact ⟨a, rfl, rfl, h, fun _ => rfl⟩
  | none =>
    refine ⟨_, rfl, rfl, ⟨h.dimensions, h.partitions.push rfl hrank⟩, fun heq => ?_⟩
    have hlength := congrArg (fun s : Space => s.partitions.length) heq
    simp at hlength

theorem run_checkAxis (parent C : String) (axis : Axis) (a : Arena) :
    (checkAxis parent C axis).run a =
      match a.axisFault? C axis with
      | some fault => (breach (.partition parent fault), a)
      | none => (.ok (), a) := by
  unfold checkAxis
  rw [run_get_bind]
  cases h : a.axisFault? C axis <;> rfl

/-- The axes are checked in turn, up to the first fault. -/
theorem run_checkAxes (parent C : String) (a : Arena) : ∀ axes : List Axis,
    (forM axes (checkAxis parent C)).run a =
      match axes.findSome? (a.axisFault? C) with
      | some fault => (breach (.partition parent fault), a)
      | none => (.ok (), a)
  | [] => rfl
  | axis :: axes => by
      rw [List.forM_cons, run_bind, run_checkAxis, List.findSome?_cons]
      cases a.axisFault? C axis with
      | some fault => rfl
      | none => exact run_checkAxes parent C a axes

theorem does_addFieldDimension (h : a.InStep) (C field : String) (type : FieldType) :
    Does (addFieldDimension C field type) a (a.toSpace.addFieldDimension C field type) := by
  rw [Space.addFieldDimension_eq]
  exact .check (run_lift _ a) fun _ _ => does_internDimension h rfl fun _ =>
    Space.isField_iff (show (⟨C, .field field type, 0, none, none⟩ : Dimension).className = C from rfl)
      rfl

theorem does_addRuleDimension (h : a.InStep) (rule : Rule) :
    Does (addRuleDimension rule) a (a.toSpace.addRuleDimension rule) := by
  rw [Space.addRuleDimension_eq]
  exact .check (run_lift _ a) fun _ _ => does_internDimension h rfl fun _ =>
    Space.isRule_iff
      (show (⟨rule.className, .rule rule, 0, none, none⟩ : Dimension).className = _ from rfl) rfl

theorem does_addPartition (h : a.InStep) (parent table : String) (type : FieldType)
    (axes : List Axis) :
    Does (addPartition parent table type axes) a
      (a.toSpace.addPartition parent table type axes) := by
  rw [Space.addPartition_eq]
  cases type with
  | objectArray C =>
    simp only [addPartition, Space.checkPartition]
    by_cases hne : axes = []
    · rw [if_pos hne, if_pos hne]
      exact does_breach _
    · rw [if_neg hne, if_neg hne]
      have hchecks := run_checkAxes parent C a axes
      cases hfault : axes.findSome? (a.axisFault? C) with
      | some fault =>
        rw [hfault] at hchecks
        exact (run_bind _ _ a).trans (by rw [hchecks]; rfl)
      | none =>
        rw [hfault] at hchecks
        exact .check hchecks fun _ _ => does_internPartition h C parent table axes
  | _ => exact does_breach _

/-- The tables stay in step with lists of the same frame. -/
theorem InStep.of_frame (h : a.InStep) {s : Space} (hframe : s.frame = a.toSpace.frame) :
    InStep { a with toSpace := s } :=
  ⟨h.dimensions.congr (Space.dimension_identities_of_frame hframe),
    h.partitions.congr (Space.partition_identities_of_frame hframe)⟩

/-- A call that touches no key. -/
theorem InStep.does (h : a.InStep) {m : Call α} {s : Space} {x : α}
    (hframe : s.frame = a.toSpace.frame) (hm : m.run a = (.ok x, { a with toSpace := s })) :
    Does m a (.ok (x, s)) := by
  refine ⟨_, hm, rfl, h.of_frame hframe, fun hsame => ?_⟩
  rw [hsame]

theorem does_addPart (h : a.InStep) (rank : Nat) (indexes : List Nat) (cost : Float) :
    Does (addPart rank indexes cost) a (a.toSpace.addPart rank indexes cost) := by
  refine Does.get_bind ?_
  unfold Space.addPart
  cases a.partitions[rank]? with
  | none => exact does_breach _
  | some p =>
    dsimp only
    split
    · exact h.does (Space.frame_modifyPartition _ _ fun _ => ⟨rfl, rfl⟩) rfl
    · exact does_breach _

/-- The steps of a call do what the call does. -/
theorem does_steps (h : a.InStep) (op : Space.Operation) :
    Does (steps op) a (op.apply a.toSpace) := by
  cases op with
  | fieldDimension C field type => exact (does_addFieldDimension h C field type).map Space.Answer.rank
  | ruleDimension rule => exact (does_addRuleDimension h rule).map Space.Answer.rank
  | partition parent table type axes =>
    exact (does_addPartition h parent table type axes).map Space.Answer.rank
  | part rank indexes cost => exact (does_addPart h rank indexes cost).map Space.Answer.part
  | usePart part =>
    exact h.does (Space.sameCuts_of_reset (Space.resetUses_usePart _ _ _)).frame rfl
  | resetUses => exact h.does (Space.sameCuts_of_reset (Space.resetUses_resetUses _)).frame rfl
  | clearLevels => exact h.does (Space.sameCuts_clearLevels _).frame rfl
  | clearLinks => exact h.does (Space.sameCuts_clearLinks _).frame rfl

/-! ## Runs -/

/-- The arenas after calls on one.  The rule of a new dimension only names parts of partitions that
are registered by then. -/
inductive Later (a : Arena) : Arena → Prop
  | refl : Later a a
  | call {b : Arena} (op : Space.Operation) :
      Later a b → op.Allowed b.toSpace → Later a (b.perform op).2

theorem Later.trans {c : Arena} (h : Later a b) (h' : Later b c) : Later a c := by
  induction h' with
  | refl => exact h
  | call op _ hallowed ih => exact ih.call op hallowed

/-- A valid space, with tables in step. -/
structure Coherent (a : Arena) : Prop extends InStep a where
  valid : a.toSpace.Valid

theorem coherent_empty : empty.Coherent := ⟨inStep_empty, Space.valid_empty⟩

/-- A call fails as it does on the space, and leaves the arena. -/
theorem InStep.perform_of_error (h : a.InStep) {op : Space.Operation} {e : BuildError}
    (hop : op.apply a.toSpace = .error e) : a.perform op = (.error e, a) := by
  have hdoes := does_steps h op
  rw [hop] at hdoes
  exact hdoes

/-- A call answers as it does on the space, and leaves an arena of the space after it. -/
theorem InStep.perform_of_ok (h : a.InStep) {op : Space.Operation} {x : Space.Answer} {s : Space}
    (hop : op.apply a.toSpace = .ok (x, s)) :
    (a.perform op).1 = .ok x ∧ (a.perform op).2.toSpace = s ∧ (a.perform op).2.InStep ∧
      (s = a.toSpace → (a.perform op).2 = a) := by
  have hdoes := does_steps h op
  rw [hop] at hdoes
  obtain ⟨a', hrun, hspace, hstep, hsame⟩ := hdoes
  rw [show a.perform op = (.ok x, a') from hrun]
  exact ⟨rfl, hspace, hstep, hsame⟩

/-- What a call leaves: what was there persists, in a coherent arena. -/
theorem Coherent.perform (h : a.Coherent) {op : Space.Operation} (hallowed : op.Allowed a.toSpace) :
    (a.perform op).2.Coherent ∧ Space.Persists a.toSpace (a.perform op).2.toSpace := by
  cases hop : op.apply a.toSpace with
  | error e =>
    rw [h.perform_of_error hop]
    exact ⟨h, .refl _⟩
  | ok y =>
    obtain ⟨-, hspace, hstep, -⟩ := h.perform_of_ok hop
    exact ⟨⟨hstep, hspace ▸ Space.Operation.valid h.valid hallowed hop⟩,
      hspace ▸ Space.Operation.persists hop⟩

theorem Later.coherent (hab : Later a b) (h : a.Coherent) : b.Coherent := by
  induction hab with
  | refl => exact h
  | call op _ hallowed ih => exact (ih.perform hallowed).1

theorem Later.persists (hab : Later a b) (h : a.Coherent) :
    Space.Persists a.toSpace b.toSpace := by
  induction hab with
  | refl => exact .refl _
  | call op hab hallowed ih => exact ih.trans ((hab.coherent h).perform hallowed).2

/-! ## What is interned -/

/-- What holds of an arena at any time. -/
structure Interned (a : Arena) : Prop where
  /-- No two dimensions are of one class and one field or signature. -/
  dimensions_apart : (a.dimensions.map Dimension.identity).Nodup
  /-- No two partitions cut one table of one class along the same axes. -/
  partitions_apart : (a.partitions.map Partition.identity).Nodup
  dimension_key : ∀ key k, a.dimensionKeys.rank? key = some k ↔
    ∃ d, a.dimensions[k]? = some d ∧ d.identity = key
  partition_key : ∀ key k, a.partitionKeys.rank? key = some k ↔
    ∃ p, a.partitions[k]? = some p ∧ p.identity = key
  cut : ∀ p ∈ a.partitions, p.axes ≠ []
  axes : ∀ p ∈ a.partitions, ∀ x ∈ p.axes,
    (∃ d, a.dimensions[x.dimension]? = some d ∧ d.className = p.className) ∧
      ∃ n, 1 ≤ n ∧ x.granularity = 2 ^ n
  /-- A part has one index per axis, below its granularity. -/
  parts : ∀ p ∈ a.partitions, ∀ e ∈ p.parts,
    List.Forall₂ (fun index x => index < x.granularity) e.1 p.axes

theorem Coherent.interned (h : a.Coherent) : a.Interned where
  dimensions_apart := h.valid.wellFounded.dimensions_nodup
  partitions_apart := h.valid.wellFounded.partitions_nodup
  dimension_key := h.dimensions
  partition_key := h.partitions
  cut := fun p hp => (h.valid.sound p hp).cut
  axes := by
    intro p hp x hx
    obtain ⟨hlow, hpower⟩ := (h.valid.sound p hp).granularity x hx
    refine ⟨h.valid.wellFounded.axis_dimension p hp x hx, x.granularity.log2, ?_, ?_⟩
    · exact (Nat.le_log2 (by omega)).mpr hlow
    · exact beq_iff_eq.mp hpower
  parts := by
    intro p hp e he
    have hfits := (h.valid.sound p hp).fit e he
    unfold Space.fits at hfits
    rw [Bool.and_eq_true, beq_iff_eq, List.all_eq_true] at hfits
    exact List.forall₂_iff_zip.mpr ⟨hfits.1, fun hmem => of_decide_eq_true (hfits.2 _ hmem)⟩

/-- What calls on an arena keep. -/
structure Keeps (a : Arena) : Prop where
  interned : a.Interned
  /-- A call answers as on the space that the arena holds, and leaves the space after it. -/
  answers : ∀ op : Space.Operation, (a.perform op).1 = (op.apply a.toSpace).map (·.1) ∧
    ∀ x s, op.apply a.toSpace = .ok (x, s) → (a.perform op).2.toSpace = s
  /-- A call that fails changes nothing. -/
  failed : ∀ (op : Space.Operation) (e : BuildError),
    (a.perform op).1 = .error e → (a.perform op).2 = a
  /-- A call that registered something answers the same from then on, and changes nothing. -/
  again : ∀ (op : Space.Operation) (x : Space.Answer), op.registers = true →
    op.Allowed a.toSpace → (a.perform op).1 = .ok x →
      ∀ b, Later (a.perform op).2 b → b.perform op = (.ok x, b)
  dimension_stays : ∀ b, Later a b → ∀ (k : Nat) (d : Dimension), a.dimensions[k]? = some d →
    ∃ d', b.dimensions[k]? = some d' ∧ d'.className = d.className ∧ d'.origin = d.origin
  partition_stays : ∀ b, Later a b → ∀ (k : Nat) (p : Partition), a.partitions[k]? = some p →
    ∃ p', b.partitions[k]? = some p' ∧ p'.className = p.className ∧
      p'.parentClass = p.parentClass ∧ p'.table = p.table ∧ p'.axes = p.axes
  cost_stays : ∀ b, Later a b → ∀ (part : Part) (e : PartEntry), a.part? part = some e →
    ∃ e', b.part? part = some e' ∧ e'.cost = e.cost

theorem Coherent.answers (h : a.Coherent) (op : Space.Operation) :
    (a.perform op).1 = (op.apply a.toSpace).map (·.1) ∧
      ∀ x s, op.apply a.toSpace = .ok (x, s) → (a.perform op).2.toSpace = s := by
  cases hop : op.apply a.toSpace with
  | error e =>
    rw [h.perform_of_error hop]
    exact ⟨rfl, fun _ _ heq => nomatch heq⟩
  | ok y =>
    obtain ⟨hanswer, hspace, -⟩ := h.perform_of_ok hop
    refine ⟨hanswer, fun x s heq => ?_⟩
    cases heq
    exact hspace

theorem Coherent.failed (h : a.Coherent) {op : Space.Operation} {e : BuildError}
    (hfail : (a.perform op).1 = .error e) : (a.perform op).2 = a := by
  cases hop : op.apply a.toSpace with
  | error e => rw [h.perform_of_error hop]
  | ok y => cases hfail.symm.trans (h.perform_of_ok hop).1

theorem Coherent.again (h : a.Coherent) {op : Space.Operation} {x : Space.Answer}
    (hregisters : op.registers = true) (hallowed : op.Allowed a.toSpace)
    (hanswer : (a.perform op).1 = .ok x) (hab : Later (a.perform op).2 b) :
    b.perform op = (.ok x, b) := by
  cases hop : op.apply a.toSpace with
  | error e =>
    rw [h.perform_of_error hop] at hanswer
    cases hanswer
  | ok y =>
    obtain ⟨hy, hspace, -⟩ := h.perform_of_ok hop
    obtain rfl : y.1 = x := Except.ok.inj (hy.symm.trans hanswer)
    have hnext := (h.perform hallowed).1
    have hb := hab.coherent hnext
    have hst := hab.persists hnext
    rw [hspace] at hst
    obtain ⟨hrepeat, -, -, hsame⟩ :=
      hb.perform_of_ok (Space.Operation.again hregisters hop hst hb.valid)
    exact Prod.ext hrepeat (hsame rfl)

/-- An arena that calls made out of the empty one is interned, and later calls keep what it
answered: ranks and costs stay, a registration is answered the same again, and a call that fails
changes nothing. -/
theorem keeps_of_later (h : Later .empty a) : a.Keeps where
  interned := (h.coherent coherent_empty).interned
  answers := (h.coherent coherent_empty).answers
  failed := fun _ _ hfail => (h.coherent coherent_empty).failed hfail
  again := fun _ _ hregisters hallowed hanswer _ hab =>
    (h.coherent coherent_empty).again hregisters hallowed hanswer hab
  dimension_stays := fun _ hab => (hab.persists (h.coherent coherent_empty)).dimension
  partition_stays := by
    intro b hab k p hp
    obtain ⟨p', hp', hcut, -⟩ := (hab.persists (h.coherent coherent_empty)).partition k p hp
    simp only [Partition.cut, Prod.mk.injEq] at hcut
    exact ⟨p', hp', hcut⟩
  cost_stays := fun _ hab _ _ he =>
    have ha := h.coherent coherent_empty
    (hab.persists ha).part? (hab.coherent ha).valid he

end Arena

namespace Shops

/-- The arena of orders that are cut by amount, with the number of small orders as a dimension of
customers. -/
def registered : Arena :=
  (((Arena.empty.perform (.fieldDimension "Orders" "amount" .continuous)).2.perform
    (.partition "Customers" "Orders" orders [⟨0, 2⟩])).2.perform
      (.part 0 [0] 2)).2.perform (.ruleDimension (count 0)) |>.2

theorem later_registered : Arena.empty.Later registered := by
  refine .call _ (.call _ (.call _ (.call _ .refl trivial) trivial) trivial) fun part hpart => ?_
  obtain rfl : part = ⟨0, [0]⟩ := List.mem_singleton.mp hpart
  exact ⟨_, rfl⟩

end Shops

open Shops in
/-- Registered again, the number of small orders is the dimension it was; a part that does not fit is
refused, and nothing has changed. -/
theorem shops_arena_keeps :
    Arena.empty.Later registered ∧ registered.Keeps ∧
      registered.toSpace = ⟨[amount, smallCount], [byAmount [([0], ⟨0, 2⟩)]]⟩ ∧
      registered.perform (.ruleDimension (count 0)) = (.ok (.rank 1), registered) ∧
      registered.perform (.part 0 [2] 1) = (breach (.unfitPart [2] "Orders"), registered) :=
  ⟨later_registered, Arena.keeps_of_later later_registered, rfl, rfl, rfl⟩

end FeatureSynth
