/-
# Selections cut the table they select from

A selection names its table twice: its first operand is the table field, with a type, and
its part is one of a partition, which was registered for a table field, with a type.  A
check compares the two by class and name only, and takes both types as they are stated.  So
they may differ (`shops_selection_elsewhere`), and where they do, the partition cuts a table
of another class than the one whose records are selected.

If whoever registers partitions and builds rules takes the type of a table field from one
place, be it a schema or any other assignment of types, they cannot differ
(`selections_of_check`): the records that a selection selects are of the class that the
dimensions of its partition are evaluated in, and the members that a build makes for the
parts of the partition have the type of the selection.
-/
import FeatureSynth.Proofs.Build.Titled
import FeatureSynth.Proofs.Space.Operations

namespace FeatureSynth

/-! ## Inside rules -/

namespace Rule

/-- A rule is inside another: it is that rule, or inside one of its operands. -/
inductive Inside (x : Rule) : Rule → Prop
  | self : Inside x x
  | operand {r inner : Rule} (h : .rule inner ∈ r.operands) : Inside x inner → Inside x r

/-- The selections inside a rule state the types of their table fields as `types` has them. -/
def States (types : String → String → FieldType) (r : Rule) : Prop :=
  ∀ x, Inside x r → x.isSelection = true → ∀ table type, x.fieldOperand? 0 = some (table, type) →
    type = types x.className table

variable {s : Space} {r x : Rule}

/-- Whatever is inside a checked rule is checked. -/
theorem Inside.check (hx : Inside x r) (h : r.check s = .ok ()) : x.check s = .ok () := by
  induction hx with
  | self => exact h
  | operand hinner _ ih => exact ih (check_operand h hinner)

theorem checkSelection_eq_ok (hx : x.isSelection = true) (h : x.checkSelection s = .ok ()) :
    ∃ type part p, x.fieldOperand? 0 = some (p.table, type) ∧ x.partOperand? 1 = some part ∧
      s.partitions[part.partition]? = some p ∧ p.parentClass = x.className := by
  unfold checkSelection at h
  rw [if_pos hx] at h
  split at h
  · rename_i table type part hfield hpart
    split at h
    · rename_i p hp
      split at h
      · cases h
      · rename_i hforeign
        obtain ⟨htable, hparent⟩ := not_or.mp hforeign
        exact ⟨type, part, p, not_not.mp htable ▸ hfield, hpart, hp, not_not.mp hparent⟩
    · cases h
  · cases h

theorem part?_of_checkPart {part : Part} {i : Nat} {slot : Kind}
    (h : x.checkPart s part i slot = .ok ()) : (s.part? part).isSome = true := by
  unfold checkPart at h
  split at h
  · cases h
  · split at h
    · cases h
    · rename_i hnone
      rwa [Option.isNone_iff_eq_none, ← ne_eq, Option.ne_none_iff_isSome] at hnone

theorem getElem?_of_partOperand? {part : Part} {i : Nat} (h : x.partOperand? i = some part) :
    x.operands[i]? = some (.part part) := by
  unfold partOperand? at h
  split at h
  · rename_i hx
    cases h
    exact hx
  · cases h

theorem getElem?_of_fieldOperand? {table : String} {type : FieldType} {i : Nat}
    (h : x.fieldOperand? i = some (table, type)) : x.operands[i]? = some (.field table type) := by
  unfold fieldOperand? at h
  split at h
  · rename_i hx
    cases h
    exact hx
  · cases h

/-- A template for tables, applied to a table of a class, results in one of the class. -/
theorem resultType_of_table {table C : String} (hresult : x.template.result = .objectArray)
    (h : x.fieldOperand? 0 = some (table, .objectArray C)) : x.resultType = .ok (.objectArray C) := by
  have hfirst := getElem?_of_fieldOperand? h
  obtain ⟨template, className, operands, cost, tieBreak⟩ := x
  obtain - | ⟨y, rest⟩ := operands
  · cases hfirst
  · cases hfirst
    dsimp only at hresult
    simp only [resultType, hresult, FieldType.ofKind?, relation, reached, FieldType.class?]

end Rule

/-! ## Stated types -/

namespace Space

variable {s s' : Space} {types : String → String → FieldType}

/-- A call that registers a partition states the type of the table field as `types` has it. -/
def Operation.States (types : String → String → FieldType) : Operation → Prop
  | partition parent table type _ => type = types parent table
  | _ => True

/-- The spaces that calls make out of the empty one, with the types of table fields as `types` has
them. -/
inductive MadeOver (types : String → String → FieldType) : Space → Prop
  | empty : MadeOver types .empty
  | call {s s' : Space} (op : Operation) {x : Answer} : MadeOver types s → op.Allowed s →
      op.States types → op.apply s = .ok (x, s') → MadeOver types s'

/-- Every partition cuts a table of the class that `types` has for its field, and every dimension
that is a rule is of the class of its rule. -/
structure TypedOver (types : String → String → FieldType) (s : Space) : Prop where
  partitions : ∀ p ∈ s.partitions, types p.parentClass p.table = .objectArray p.className
  dimensions : s.ClassesOfRules

theorem TypedOver.of_frame (h : s.TypedOver types) (hframe : s'.frame = s.frame) :
    s'.TypedOver types := by
  refine ⟨fun p' hp' => ?_, h.dimensions.of_frame hframe⟩
  have hcuts : s'.partitions.map Partition.cut = s.partitions.map Partition.cut :=
    congrArg Prod.snd hframe
  have hmem : p'.cut ∈ s.partitions.map Partition.cut := hcuts ▸ List.mem_map_of_mem hp'
  obtain ⟨p, hp, hcut⟩ := List.mem_map.mp hmem
  obtain ⟨hclass, hparent, htable, -⟩ : p.className = p'.className ∧
      p.parentClass = p'.parentClass ∧ p.table = p'.table ∧ p.axes = p'.axes := by
    simpa [Partition.cut] using hcut
  rw [← hclass, ← hparent, ← htable]
  exact h.partitions p hp

/-- A call that states types as `types` has them makes a space that is typed like it. -/
theorem Operation.typedOver {op : Operation} {x : Answer} (hs : s.TypedOver types)
    (hstates : op.States types) (h : op.apply s = .ok (x, s')) : s'.TypedOver types := by
  cases op with
  | fieldDimension C field type =>
    obtain ⟨⟨k, s₁⟩, h, heq⟩ := exists_of_map_eq_ok h
    cases heq
    have hintern := addFieldDimension_eq_ok h
    exact ⟨partitions_intern hintern ▸ hs.partitions,
      hs.dimensions.intern hintern fun _ ho => nomatch ho⟩
  | ruleDimension rule =>
    obtain ⟨⟨k, s₁⟩, h, heq⟩ := exists_of_map_eq_ok h
    cases heq
    have hintern := addRuleDimension_eq_ok h
    exact ⟨partitions_intern hintern ▸ hs.partitions,
      hs.dimensions.intern hintern fun r ho => by rw [DimensionOrigin.rule.inj ho]⟩
  | partition parent table type axes =>
    obtain ⟨⟨k, s₁⟩, h, heq⟩ := exists_of_map_eq_ok h
    cases heq
    refine ⟨?_, fun d hd => hs.dimensions d (dimensions_addPartition h ▸ hd)⟩
    rw [addPartition_eq] at h
    obtain ⟨C, hcheck, h⟩ := exists_of_map_eq_ok h
    unfold internPartition at h
    split at h
    · cases h
      exact hs.partitions
    · cases h
      intro p hp
      rcases List.mem_append.mp hp with hp | hp
      · exact hs.partitions p hp
      · rw [List.mem_singleton.mp hp]
        exact hstates.symm.trans (checkPartition_eq_ok.mp hcheck).1
  | part rank indexes cost =>
    obtain ⟨⟨q, s₁⟩, h, heq⟩ := exists_of_map_eq_ok h
    cases heq
    obtain ⟨-, -, -, rfl⟩ := addPart_eq_ok h
    exact hs.of_frame (frame_modifyPartition s rank fun _ => ⟨rfl, rfl⟩)
  | usePart q =>
    cases h
    exact hs.of_frame (sameCuts_of_reset (resetUses_usePart _ _ _)).frame
  | resetUses =>
    cases h
    exact hs.of_frame (sameCuts_of_reset (resetUses_resetUses s)).frame
  | clearLevels =>
    cases h
    exact hs.of_frame (sameCuts_clearLevels s).frame
  | clearLinks =>
    cases h
    exact hs.of_frame (sameCuts_clearLinks s).frame

theorem MadeOver.lawful (h : s.MadeOver types) : s.Valid ∧ s.TypedOver types := by
  induction h with
  | empty =>
    exact ⟨valid_empty, ⟨fun _ hp => absurd hp List.not_mem_nil,
      fun _ hd => absurd hd List.not_mem_nil⟩⟩
  | call op _ hallowed hstates hop ih =>
    exact ⟨Operation.valid ih.1 hallowed hop, Operation.typedOver ih.2 hstates hop⟩

end Space

/-! ## Members for the parts of a table -/

/-- The members of blocks that a schema gains are of one type. -/
def Schema.GainsMembers (type : FieldType) (s s' : Schema) : Prop :=
  ∀ C e', s'.entity? C = some e' → ∀ f ∈ e'.fields, f.block.isSome = true →
    f.type = type ∨ ∃ e, s.entity? C = some e ∧ f ∈ e.fields

namespace Schema.GainsMembers

variable {s s' t : Schema} {type : FieldType}

protected theorem refl (s : Schema) : GainsMembers type s s :=
  fun _ e he _ hf _ => .inr ⟨e, he, hf⟩

protected theorem trans (h : GainsMembers type s s') (h' : GainsMembers type s' t) :
    GainsMembers type s t := by
  intro C e he f hf hblock
  rcases h' C e he f hf hblock with htype | ⟨e', he', hf'⟩
  · exact .inl htype
  · exact h C e' he' f hf' hblock

/-- A class that gains one field, which is in no block or of the type. -/
theorem setEntity {C : String} {e e' : Entity} {new : Field} (he : s.entity? C = some e)
    (hname : e'.name = e.name) (hfields : e'.fields.Perm (e.fields ++ [new]))
    (hnew : new.block.isSome = true → new.type = type) : GainsMembers type s (s.setEntity C e') := by
  intro D d hd f hf hblock
  by_cases hD : C = D
  · subst hD
    rw [entity?_setEntity he hname] at hd
    cases hd
    rcases List.mem_append.mp (hfields.mem_iff.mp hf) with hf | hf
    · exact .inr ⟨e, he, hf⟩
    · rw [List.mem_singleton.mp hf] at hblock ⊢
      exact .inl (hnew hblock)
  · rw [entity?_setEntity_ne (hname.trans (name_of_entity? he)) hD] at hd
    exact .inr ⟨d, hd, hf⟩

end Schema.GainsMembers

namespace Build

open Schema (GainsMembers)

variable {b b' : BuildState} {type : FieldType}

theorem schema_noteField {C name : String} {u : Unit} (h : (noteField C name).Gives b u b') :
    b'.schema = b.schema := by
  rw [noteField, gives_modify] at h
  subst h
  split <;> rfl

/-- The fields of formulas are in no block. -/
theorem gainsMembers_fieldFor {C n : String} {φ : Formula} {t : Except BuildError FieldType}
    {make : Naming} (h : (fieldFor C φ t make).Gives b n b') :
    GainsMembers type b.schema b'.schema := by
  rw [fieldFor, gives_record_bind] at h
  obtain ⟨c, -, h⟩ := h
  split at h
  · obtain ⟨-, rfl⟩ := gives_reuse.mp h
    exact .refl _
  · simp only [insertDerived, gives_bind, gives_freeName, gives_lift, gives_register, gives_edit,
      gives_pure] at h
    obtain ⟨_, _, ⟨_, _, _, -, -, rfl, rfl⟩, _, _, ⟨-, rfl⟩, _, _, ⟨_, _, -, -, rfl⟩, _, _,
      ⟨e, e', he, hins, rfl⟩, _, _, hnote, -, rfl⟩ := h
    cases hins
    rw [schema_noteField hnote]
    exact .setEntity he rfl (.refl _) fun hblock => by cases hblock

theorem gainsMembers_descriptorField {rank : Nat} {P : String}
    (h : (descriptorField rank).Gives b P b') : GainsMembers type b.schema b'.schema := by
  rw [descriptorField, gives_partition_bind] at h
  obtain ⟨p, -, h⟩ := h
  split at h
  · obtain ⟨-, rfl⟩ := gives_pure.mp h
    exact .refl _
  · simp only [gives_get_bind, gives_lift_bind, gives_modify_bind] at h
    obtain ⟨⟨φ, space⟩, -, h⟩ := h
    obtain ⟨name, b₁, hfield, h⟩ := gives_bind.mp h
    rw [modifyPartition, gives_modify_bind] at h
    obtain ⟨-, rfl⟩ := gives_pure.mp h
    exact (gainsMembers_fieldFor hfield).trans (.refl _)

/-- A member goes into a block there is, or into a new one. -/
theorem gainsMembers_insertMember {C name B : String} {block : Option String} {φ : Formula}
    {key : Nat} {make : Naming} (h : (insertMember C block φ (.member name type "" key) make).Gives
      b B b') : GainsMembers type b.schema b'.schema := by
  cases block with
  | some B' =>
    simp only [insertMember, gives_bind, gives_pure, gives_edit, gives_register] at h
    obtain ⟨_, _, ⟨e, e', he, hins, rfl⟩, _, _, ⟨-, rfl⟩, _, _, ⟨_, _, -, -, rfl⟩, _, _, hnote, -,
      rfl⟩ := h
    obtain ⟨hname, -, hfields, -⟩ := Entity.insertMember_eq_ok hins
    rw [schema_noteField hnote]
    exact .setEntity he hname hfields fun _ => rfl
  | none =>
    simp only [insertMember, gives_bind, gives_pure, gives_edit, gives_register, gives_freeName,
      noteBlock, gives_modify] at h
    obtain ⟨_, _, ⟨_, _, _, -, -, rfl, rfl⟩, _, _, ⟨_, _, -, -, rfl⟩, _, _, ⟨e, e', he, hins, rfl⟩,
      _, _, rfl, _, _, ⟨-, rfl⟩, _, _, ⟨_, _, -, -, rfl⟩, _, _, hnote, -, rfl⟩ := h
    cases hins
    rw [schema_noteField hnote]
    exact .setEntity he rfl (.refl _) fun _ => rfl

/-- The members that the parts of a partition are given are tables of its class. -/
theorem gainsMembers_tableBlock {part : Part} {p : Partition} {T : String}
    (hp : b.space.partitions[part.partition]? = some p) (h : (tableBlock part).Gives b T b') :
    GainsMembers (.objectArray p.className) b.schema b'.schema := by
  unfold tableBlock at h
  obtain ⟨P, b₁, hdescriptor, h⟩ := gives_bind.mp h
  simp only [gives_get_bind, gives_lift_bind, gives_partition_bind, gives_record_bind] at h
  obtain ⟨φ, -, key, -, p', hp', c, -, h⟩ := h
  have hclass : p'.className = p.className := by
    have hframe := (passes_descriptorField part.partition hdescriptor).levels.1.frame
    obtain ⟨q, hq, hclass, -⟩ := Space.partition_of_frame hframe hp
    rw [← hclass, Option.some.inj (hp'.symm.trans hq)]
  refine (gainsMembers_descriptorField hdescriptor).trans ?_
  split at h
  · simp only [pure_bind, modifyPartition, gives_modify_bind] at h
    obtain ⟨-, rfl⟩ := gives_pure.mp h
    exact .refl _
  · obtain ⟨name, b₂, hname, h⟩ := gives_bind.mp h
    obtain ⟨B, b₃, hinsert, h⟩ := gives_bind.mp h
    rw [modifyPartition, gives_modify_bind] at h
    obtain ⟨-, rfl⟩ := gives_pure.mp h
    obtain ⟨_, _, _, -, -, -, rfl⟩ := gives_freeName.mp hname
    exact hclass ▸ (gainsMembers_insertMember hinsert).trans (.refl _)

end Build

/-! ## Selections -/

/-- A selection cuts the table it selects from: the part is one of a partition of the table field,
which leads to the class of the partition. -/
structure Rule.Cuts (s : Space) (x : Rule) (part : Part) (p : Partition) : Prop where
  second : x.partOperand? 1 = some part
  partition : s.partitions[part.partition]? = some p
  present : (s.part? part).isSome = true
  parent : p.parentClass = x.className
  table : x.fieldOperand? 0 = some (p.table, .objectArray p.className)
  /-- The dimensions are evaluated in the class of the records that are selected. -/
  dimensions : ∀ a ∈ p.axes, ∃ d, s.dimensions[a.dimension]? = some d ∧
    d.className = p.className ∧ ∀ r, d.origin = .rule r → r.className = p.className
  /-- What is selected is a table of the class. -/
  result : x.template.result = .objectArray → x.resultType = .ok (.objectArray p.className)
  /-- The members that a build makes for the parts are tables of the class. -/
  members : ∀ b T b', b.space.frame = s.frame → (Build.tableBlock part).Gives b T b' →
    b.schema.GainsMembers (.objectArray p.className) b'.schema

/-- Where partitions are registered and rules are built with the types of table fields taken from one
place, every selection inside a checked rule cuts the table it selects from. -/
theorem Rule.selections_of_check {types : String → String → FieldType} {s : Space} {r : Rule}
    (hs : s.MadeOver types) (hr : r.States types) (h : r.check s = .ok ()) :
    ∀ x, Inside x r → x.isSelection = true → ∃ part p, x.Cuts s part p := by
  intro x hx hselects
  obtain ⟨hvalid, htyped⟩ := hs.lawful
  obtain ⟨hfits, hselection⟩ := of_check (hx.check h)
  obtain ⟨type, part, p, hfield, hpart, hp, hparent⟩ := checkSelection_eq_ok hselects hselection
  obtain ⟨slot, hslot⟩ := hfits 1 _ (getElem?_of_partOperand? hpart)
  have htype : type = .objectArray p.className := by
    rw [hr x hx hselects _ _ hfield, ← hparent]
    exact htyped.partitions p (List.mem_of_getElem? hp)
  rw [htype] at hfield
  refine ⟨part, p, hpart, hp, part?_of_checkPart hslot, hparent, hfield, fun a ha => ?_,
    fun hresult => resultType_of_table hresult hfield, fun b T b' hframe hgives => ?_⟩
  · obtain ⟨d, hd, hclass⟩ := hvalid.wellFounded.axis_dimension p (List.mem_of_getElem? hp) a ha
    exact ⟨d, hd, hclass, fun r ho =>
      (htyped.dimensions d (List.mem_of_getElem? hd) r ho).symm.trans hclass⟩
  · obtain ⟨q, hq, hclass, -⟩ := Space.partition_of_frame hframe hp
    exact hclass ▸ Build.gainsMembers_tableBlock hq hgives

namespace Shops

/-- The types of the table fields. -/
def tables (_ field : String) : FieldType := if field = "Orders" then orders else customers

theorem madeOver_space : space.MadeOver tables := by
  have h₀ : Space.MadeOver tables ⟨[amount], []⟩ :=
    .call (.fieldDimension "Orders" "amount" .continuous) .empty trivial trivial rfl
  have h₁ : Space.MadeOver tables ⟨[amount], [byAmount []]⟩ :=
    .call (.partition "Customers" "Orders" orders [⟨0, 2⟩]) h₀ trivial rfl rfl
  have h₂ : Space.MadeOver tables ⟨[amount], [byAmount [([0], ⟨0, 2⟩)]]⟩ :=
    .call (.part 0 [0] 2) h₁ trivial trivial rfl
  have h₃ : Space.MadeOver tables ⟨[amount, smallCount], [byAmount [([0], ⟨0, 2⟩)]]⟩ := by
    refine .call (.ruleDimension (count 0)) h₂ (fun part hpart => ?_) trivial rfl
    obtain rfl : part = ⟨0, [0]⟩ := List.mem_singleton.mp hpart
    exact ⟨_, rfl⟩
  exact .call (.partition "Shops" "Customers" customers [⟨1, 2⟩]) h₃ trivial rfl rfl

theorem states_count : (count 0).States tables := by
  intro x hx hselects table type hfield
  obtain - | ⟨hinner, hx⟩ := hx
  · cases hselects
  · cases List.mem_singleton.mp hinner
    obtain - | ⟨hinner, -⟩ := hx
    · cases hfield
      rfl
    · simp at hinner

/-- The orders of a customer that its partition has, taken to be items. -/
def elsewhere : Rule :=
  ⟨.tableSelection, "Customers", [.field "Orders" (.objectArray "Items"), .part ⟨0, [0]⟩], 0, 0⟩

/-- A selection that results in a number. -/
def share : Rule :=
  ⟨{ Template.tableSelection with result := .continuous }, "Customers",
    [.field "Orders" orders, .part ⟨0, [0]⟩], 0, 0⟩

end Shops

open Shops in
/-- The small orders of a customer, which are counted, are orders. -/
theorem shops_selections : space.MadeOver tables ∧ (count 0).States tables ∧
    (count 0).check space = .ok () ∧ ∃ part p, (⟨.tableSelection, "Customers",
      [.field "Orders" orders, .part ⟨0, [0]⟩], 0, 0⟩ : Rule).Cuts space part p :=
  ⟨madeOver_space, states_count, rfl, Rule.selections_of_check madeOver_space states_count rfl _
    (.operand List.mem_cons_self .self) rfl⟩

open Shops in
/-- The partition of the orders is of the class of orders, and its members are tables of orders.  A
selection is accepted that takes the orders to be items, and so is one that results in a number. -/
theorem shops_selection_elsewhere :
    space.Built ∧ (space.partitions[0]?).map (·.className) = some "Orders" ∧
      (elsewhere.check space = .ok () ∧ elsewhere.isSelection = true ∧
        elsewhere.partOperand? 1 = some ⟨0, [0]⟩ ∧
        elsewhere.operandType 0 = .ok (.objectArray "Items")) ∧
      share.check space = .ok () ∧ share.isSelection = true ∧
        share.partOperand? 1 = some ⟨0, [0]⟩ ∧ share.resultType = .ok .continuous :=
  ⟨built_space, rfl, ⟨rfl, rfl, rfl, rfl⟩, rfl, rfl, rfl, rfl⟩

end FeatureSynth
