/-
# Checked rules whose fields exist

`Rule.check` looks at a rule and the space; that the fields a rule names are there is said
of the schema.  Both together, over the default catalogue, make a rule that can be built:
its class exists, its result has a type, and it has a name as soon as its parts have one.

All of this follows from the shapes of the default templates.  A selection is applied to a
table field and a part.  Every other rule is applied to fields and rules, and its result is
a simple value, so whatever stands in the place of a table is a field or a selection.
-/
import FeatureSynth.Proofs.Registry.Applies
import FeatureSynth.Proofs.Rule.BlockName

namespace FeatureSynth

namespace Rule

mutual

/-- What holds of a rule if it holds of its rule operands holds of every rule. -/
theorem induct {P : Rule → Prop}
    (step : ∀ r : Rule, (∀ inner, .rule inner ∈ r.operands → P inner) → P r) : ∀ r : Rule, P r
  | ⟨template, className, operands, cost, tieBreak⟩ =>
    step ⟨template, className, operands, cost, tieBreak⟩ (inductOperands step operands)

theorem inductOperands {P : Rule → Prop}
    (step : ∀ r : Rule, (∀ inner, .rule inner ∈ r.operands → P inner) → P r) :
    ∀ (xs : List (RuleOperand Rule)) (inner : Rule), .rule inner ∈ xs → P inner
  | .field .. :: rest, inner, h | .part _ :: rest, inner, h => by
      rcases List.mem_cons.mp h with heq | h
      · cases heq
      · exact inductOperands step rest inner h
  | .rule x :: rest, inner, h => by
      rcases List.mem_cons.mp h with heq | h
      · cases heq
        exact induct step x
      · exact inductOperands step rest inner h

end

end Rule

/-- A checked rule over the default catalogue, whose field operands a schema has. -/
structure Rule.Grounded (s : Space) (schema : Schema) (r : Rule) : Prop where
  named : r.Over .default
  checked : r.check s = .ok ()
  fields : r.FieldsIn schema

/-- The rules of the dimensions are checked, over the default catalogue, and their field operands
are fields of a schema. -/
def Space.Grounded (s : Space) (schema : Schema) : Prop :=
  ∀ d ∈ s.dimensions, ∀ r, d.origin = .rule r → r.Grounded s schema

/-- The slots and results of the default templates. -/
theorem Catalogue.shapes_default : ∀ t ∈ Catalogue.default,
    (t.selection = true → t.slots = [.objectArray, .part] ∧ t.family = .table ∧
      FieldType.ofKind? t.result = none ∧ t.result = .objectArray) ∧
    (t.selection = false → (FieldType.ofKind? t.result).isSome = true) ∧
    (t.family = .table → t.slots.head? = some .objectArray) ∧
    (t.family = .entity → 1 < t.slots.length) ∧ 0 < t.slots.length := by
  decide

/-- A part and its partition have names. -/
def SelectionNames.Cover (names : SelectionNames) (part : Part) : Prop :=
  (∃ n, names.part part = .ok n) ∧ ∃ n, names.partition part.partition = .ok n

namespace Rule.Grounded

variable {s : Space} {schema : Schema} {r inner : Rule}

theorem operand (h : r.Grounded s schema) (hinner : .rule inner ∈ r.operands) :
    inner.Grounded s schema :=
  ⟨over_operand h.named hinner, check_operand h.checked hinner, h.fields.operand hinner⟩

theorem template_mem (h : r.Grounded s schema) : r.template ∈ Catalogue.default :=
  template_mem_of_over h.named

theorem length_operands (h : r.Grounded s schema) : r.operands.length = r.template.slots.length :=
  (length_operands_of_check h.checked).symm

theorem part?_isSome (h : r.Grounded s schema) :
    r.PartsIn fun part => (s.part? part).isSome = true :=
  part?_of_check r h.checked

/-! ## Operands -/

/-- A selection is applied to a table field and a part. -/
theorem selection_operands (h : r.Grounded s schema) (hr : r.isSelection = true) :
    ∃ name C part, r.operands = [.field name (.objectArray C), .part part] ∧
      schema.fieldType? r.className name = some (.objectArray C) := by
  obtain ⟨name, type, part, rest, hoperands⟩ := operands_of_selection h.checked hr
  obtain ⟨hslots, -⟩ := (Catalogue.shapes_default _ h.template_mem).1 hr
  have hlength := h.length_operands
  rw [hoperands, hslots] at hlength
  obtain rfl : rest = [] := List.eq_nil_of_length_eq_zero (by simpa using hlength)
  have hfield : schema.fieldType? r.className name = some type :=
    h.fields.first (by rw [hoperands]; rfl)
  have hchecked := checkOperands_of_check h.checked
  rw [hslots, hoperands, checkOperands] at hchecked
  split at hchecked
  · cases hchecked
  · rename_i hkind
    obtain ⟨C, rfl⟩ : ∃ C, type = .objectArray C := by
      cases type <;> simp [FieldType.kind] at hkind ⊢
    exact ⟨name, C, part, hoperands, hfield⟩

/-- Other rules are applied to fields and rules. -/
theorem no_part (h : r.Grounded s schema) (hr : r.isSelection = false) (part : Part) :
    .part part ∉ r.operands := by
  intro hmem
  obtain ⟨i, hi⟩ := List.mem_iff_getElem?.mp hmem
  obtain ⟨slot, hfits⟩ := (of_check h.checked).1 i _ hi
  unfold checkPart at hfits
  rw [hr] at hfits
  simp [refuse, breach] at hfits

/-- The first operand of a rule is a field of its class, or a rule there. -/
theorem first_operand (h : r.Grounded s schema) :
    (∃ name type rest, r.operands = .field name type :: rest ∧
      schema.fieldType? r.className name = some type) ∨
    ∃ inner rest, r.operands = .rule inner :: rest ∧ inner.className = r.className ∧
      r.template.slots.head? = some inner.template.result := by
  obtain ⟨-, -, -, -, hslots⟩ := Catalogue.shapes_default _ h.template_mem
  have hlength := h.length_operands
  match hoperands : r.operands with
  | [] => rw [hoperands] at hlength; simp only [List.length_nil] at hlength; omega
  | .field name type :: rest =>
    exact .inl ⟨name, type, rest, rfl, h.fields.first (by rw [hoperands]; rfl)⟩
  | .rule inner :: rest =>
    obtain ⟨k, slots, hk⟩ := List.exists_cons_of_length_pos hslots
    obtain ⟨hclass, hresult⟩ := fills_first_slot h.checked hk hoperands
    exact .inr ⟨inner, rest, rfl, hclass, by rw [hk, hresult]; rfl⟩
  | .part part :: rest =>
    cases hr : r.isSelection with
    | true =>
      obtain ⟨name, C, part', hselection, -⟩ := h.selection_operands hr
      rw [hoperands] at hselection
      cases hselection
    | false => exact absurd (by rw [hoperands]; simp) (h.no_part hr part)

/-- In the place of a table stands a field or a selection. -/
theorem table_operand (h : r.Grounded s schema) (hfamily : r.template.family = .table) :
    (∃ name type rest, r.operands = .field name type :: rest) ∨
    ∃ inner rest, r.operands = .rule inner :: rest ∧ inner.isSelection = true := by
  rcases h.first_operand with
    ⟨name, type, rest, hoperands, -⟩ | ⟨inner, rest, hoperands, -, hslot⟩
  · exact .inl ⟨name, type, rest, hoperands⟩
  · refine .inr ⟨inner, rest, hoperands, ?_⟩
    have hinner : inner.Grounded s schema :=
      h.operand (by rw [hoperands]; exact List.mem_cons_self)
    by_contra hnot
    have hsimple := (Catalogue.shapes_default _ hinner.template_mem).2.1
      (Bool.eq_false_iff.mpr hnot)
    rw [(Catalogue.shapes_default _ h.template_mem).2.2.1 hfamily] at hslot
    rw [← Option.some.inj hslot] at hsimple
    cases hsimple

/-! ## Block rules -/

/-- A statistic of a selection uses the part of the selection. -/
theorem of_partitionBlock (h : r.Grounded s schema) (hsort : r.classify = .partitionBlock) :
    ∃ operator part, r.template.partitionStatistic = some operator ∧ r.usedPart? = some part ∧
      part ∈ r.parts ∧ r.isSelection = false := by
  have hplain : r.isSelection = false := Bool.eq_false_iff.mpr fun hr => by
    simp [classify, hr] at hsort
  have hblock := isPartitionBlock_of_classify hsort
  rw [isPartitionBlock, Bool.and_eq_true] at hblock
  obtain ⟨operator, hoperator⟩ := Option.isSome_iff_exists.mp hblock.1
  cases hfirst : r.ruleOperand? 0 with
  | none => rw [hfirst] at hblock; cases hblock.2
  | some selection =>
    have hselects : selection.isSelection = true := by simpa [hfirst] using hblock.2
    have hmem : .rule selection ∈ r.operands :=
      List.mem_of_getElem? (getElem?_of_ruleOperand? hfirst)
    obtain ⟨name, C, part, hoperands, -⟩ := (h.operand hmem).selection_operands hselects
    have hall : selection.PartsIn (· ∈ r.parts) := PartsIn.operand (fun part hpart => hpart) hmem
    refine ⟨operator, part, hoperator, ?_, hall.part (by rw [hoperands]; simp), hplain⟩
    rw [usedPart?_eq, hsort, hfirst]
    simp [partOperand?, hoperands]

/-- A statistic of a block rule has that rule as its second operand. -/
theorem of_valueBlock (hsort : r.classify = .valueBlock) :
    ∃ operator x inner rest, r.template.valueStatistic = some operator ∧
      r.operands = x :: .rule inner :: rest := by
  have hvalue : r.isValueBlock = true := by
    have hblock := isBlockRule_of_classify (.inr hsort)
    rwa [isBlockRule_eq, not_isPartitionBlock_of_classify hsort, Bool.false_or] at hblock
  rw [isValueBlock, Bool.and_eq_true] at hvalue
  obtain ⟨operator, hoperator⟩ := Option.isSome_iff_exists.mp hvalue.1
  cases hsecond : r.ruleOperand? 1 with
  | none => rw [hsecond] at hvalue; cases hvalue.2
  | some inner =>
    have hget := getElem?_of_ruleOperand? hsecond
    rcases hoperands : r.operands with - | ⟨x, - | ⟨y, rest⟩⟩
    · rw [hoperands] at hget
      cases hget
    · rw [hoperands] at hget
      cases hget
    · rw [hoperands] at hget
      obtain rfl : y = .rule inner := Option.some.inj hget
      exact ⟨operator, x, inner, rest, hoperator, rfl⟩

/-! ## Classes and types -/

/-- The class of a rule is one of the schema. -/
theorem exists_entity (h : r.Grounded s schema) : ∃ e, schema.entity? r.className = some e := by
  induction r using Rule.induct with | step r ih => ?_
  rcases h.first_operand with
    ⟨name, type, rest, -, hfield⟩ | ⟨inner, rest, hoperands, hclass, -⟩
  · obtain ⟨e, -, he, -⟩ := Schema.fieldType?_eq_some.mp hfield
    exact ⟨e, he⟩
  · have hmem : .rule inner ∈ r.operands := by rw [hoperands]; exact List.mem_cons_self
    rw [← hclass]
    exact ih inner hmem (h.operand hmem)

theorem className_mem (h : r.Grounded s schema) : r.className ∈ schema.entities.map (·.name) := by
  obtain ⟨e, he⟩ := h.exists_entity
  exact Schema.class_of_entity? he

/-- The result of a rule has a type, which the schema knows the class of. -/
theorem exists_resultType (h : r.Grounded s schema) (hcompile : schema.compile = .ok ()) :
    ∃ type, r.resultType = .ok type ∧
      ∀ C, type.class? = some C → C ∈ schema.entities.map (·.name) := by
  have hshape := Catalogue.shapes_default _ h.template_mem
  cases hr : r.isSelection with
  | true =>
    obtain ⟨name, C, part, hoperands, hfield⟩ := h.selection_operands hr
    obtain ⟨-, -, hkind, hresult⟩ := hshape.1 hr
    refine ⟨.objectArray C, ?_, ?_⟩
    · obtain ⟨template, className, operands, cost, tieBreak⟩ := r
      dsimp only at hoperands hkind hresult
      subst hoperands
      unfold resultType
      rw [hkind]
      simp [relation, reached, FieldType.class?, hresult]
    · intro D hD
      obtain rfl : C = D := by simpa [FieldType.class?] using hD
      obtain ⟨e, f, he, hf, htype⟩ := Schema.fieldType?_eq_some.mp hfield
      obtain ⟨e', he'⟩ := Option.isSome_iff_exists.mp (Schema.entity?_of_relation hcompile
        (Schema.mem_of_entity? he) (List.mem_of_find?_eq_some hf) (c := C) (by rw [htype]; rfl))
      exact Schema.class_of_entity? he'
  | false =>
    obtain ⟨simple, hsimple⟩ := Option.isSome_iff_exists.mp (hshape.2.1 hr)
    refine ⟨simple, resultType_of_simple hsimple, fun C hC => ?_⟩
    cases hkind : r.template.result <;> rw [hkind] at hsimple <;>
      simp [FieldType.ofKind?] at hsimple <;> subst hsimple <;> cases hC

/-! ## Names -/

/-- The table of a rule on tables has a name. -/
theorem exists_tableName (h : r.Grounded s schema) (hfamily : r.template.family = .table) :
    ∃ table, r.tableName = .ok table := by
  have hselection : ∀ x : Rule, x.Grounded s schema → x.isSelection = true →
      ∃ name type, x.fieldOperand? 0 = some (name, type) := by
    intro x hx hsel
    obtain ⟨name, C, part, hoperands, -⟩ := hx.selection_operands hsel
    exact ⟨name, .objectArray C, by rw [fieldOperand?, hoperands]; rfl⟩
  unfold tableName
  cases hr : r.isSelection with
  | true =>
    obtain ⟨name, type, hfield⟩ := hselection r h hr
    rw [selectionRule?, if_pos hr]
    simp [hfield]
  | false =>
    rw [selectionRule?, if_neg (by simp [hr])]
    rcases h.table_operand hfamily with
      ⟨name, type, rest, hoperands⟩ | ⟨inner, rest, hoperands, hsel⟩
    · exact ⟨name, by simp [ruleOperand?, hoperands]⟩
    · obtain ⟨name, type, hfield⟩ := hselection inner
        (h.operand (by rw [hoperands]; exact List.mem_cons_self)) hsel
      exact ⟨name, by simp [ruleOperand?, hoperands, Option.filter, hsel, hfield]⟩

/-- A selection that a rule takes its table from is the rule or an operand, and has a part. -/
theorem part_of_selectionRule? (h : r.Grounded s schema) {selection : Rule}
    (hselection : r.selectionRule? = some selection) :
    ∃ part ∈ r.parts, selection.partOperand? 1 = some part := by
  unfold selectionRule? at hselection
  split at hselection
  · rename_i hr
    obtain rfl := Option.some.inj hselection
    obtain ⟨name, C, part, hoperands, -⟩ := h.selection_operands hr
    refine ⟨part, ?_, by rw [partOperand?, hoperands]; rfl⟩
    have hall : r.PartsIn (· ∈ r.parts) := fun part hpart => hpart
    exact hall.part (by rw [hoperands]; simp)
  · obtain ⟨hfirst, hsel⟩ := Option.filter_eq_some_iff.mp hselection
    have hmem : .rule selection ∈ r.operands :=
      List.mem_of_getElem? (getElem?_of_ruleOperand? hfirst)
    obtain ⟨name, C, part, hoperands, -⟩ := (h.operand hmem).selection_operands hsel
    refine ⟨part, ?_, by rw [partOperand?, hoperands]; rfl⟩
    have hall : selection.PartsIn (· ∈ r.parts) :=
      PartsIn.operand (fun part hpart => hpart) hmem
    exact hall.part (by rw [hoperands]; simp)

variable {names : SelectionNames}

theorem exists_selectionSuffix (h : r.Grounded s schema) (hparts : r.PartsIn names.Cover)
    (asBlock : Bool) : ∃ suffix, r.selectionSuffix names asBlock = .ok suffix := by
  unfold selectionSuffix
  cases hselection : r.selectionRule? with
  | none => exact ⟨"", rfl⟩
  | some selection =>
    obtain ⟨part, hmem, hpart⟩ := h.part_of_selectionRule? hselection
    obtain ⟨⟨values, hvalues⟩, axes, haxes⟩ := hparts part hmem
    dsimp only
    rw [hpart]
    cases asBlock
    · exact ⟨" where " ++ values, by simp [hvalues, Except.map]⟩
    · exact ⟨" per " ++ axes, by simp [haxes, Except.map]⟩

/-- An operand that is a field or a named rule has a name. -/
theorem exists_operandName {asBlock : Bool} {owner : Rule} {index : Nat} :
    ∀ {position : Nat} {xs : List (RuleOperand Rule)} {x : RuleOperand Rule},
      xs[position]? = some x → (∀ part, x ≠ .part part) →
      (∀ inner, x = .rule inner → ∃ n, inner.nameWith names asBlock = .ok n) →
        ∃ n, operandNameWith names asBlock owner xs position index = .ok n
  | 0, .field name _ :: _, _, hx, _, _ => ⟨name, by rw [operandNameWith]⟩
  | 0, .rule inner :: _, x, hx, _, hnames => by
      obtain ⟨n, hn⟩ := hnames inner (by simpa using hx.symm)
      exact ⟨n, by rw [operandNameWith, hn]⟩
  | 0, .part part :: _, x, hx, hpart, _ => absurd (by simpa using hx.symm) (hpart part)
  | position + 1, y :: ys, x, hx, hpart, hnames => by
      have htail : ys[position]? = some x := by simpa using hx
      obtain ⟨n, hn⟩ := exists_operandName htail hpart hnames
      refine ⟨n, ?_⟩
      cases y <;> rw [operandNameWith, hn]

/-- The value of a statistic has a name if its operand has one. -/
theorem exists_valueName {r : Rule} (asBlock : Bool) (hoperand : ∀ asBlock, 1 < r.operands.length →
    ∃ n, operandNameWith names asBlock r r.operands 1 1 = .ok n) :
    ∃ value, valueName names asBlock r = .ok value := by
  unfold valueName
  split
  · rename_i hlt
    obtain ⟨n, hn⟩ := hoperand (asBlock && r.selectionRule?.isNone) hlt
    exact ⟨"." ++ n, by rw [hn]; rfl⟩
  · exact ⟨"", rfl⟩

/-- A rule has a name if its parts have names. -/
theorem exists_nameWith (h : r.Grounded s schema) (hparts : r.PartsIn names.Cover)
    (asBlock : Bool) : ∃ n, r.nameWith names asBlock = .ok n := by
  induction r using Rule.induct generalizing asBlock with | step r ih => ?_
  obtain ⟨template, className, operands, cost, tieBreak⟩ := r
  obtain ⟨hselects, -, -, hentity, hslots⟩ := Catalogue.shapes_default _ h.template_mem
  have hlength : operands.length = template.slots.length := h.length_operands
  have hinner : ∀ inner, .rule inner ∈ operands → ∀ asBlock,
      ∃ n, inner.nameWith names asBlock = .ok n := fun inner hmem =>
    ih inner hmem (h.operand hmem) (hparts.operand hmem)
  have hpositive : 0 < operands.length := hlength ▸ hslots
  have hoperand : template.selection = false → ∀ position asBlock,
      position < operands.length → ∃ n, operandNameWith names asBlock
        ⟨template, className, operands, cost, tieBreak⟩ operands position position = .ok n := by
    intro hr position asBlock hposition
    have hmem : operands[position] ∈ operands := List.getElem_mem hposition
    refine exists_operandName (List.getElem?_eq_getElem hposition)
      (fun part heq => h.no_part hr part (heq ▸ hmem)) fun inner heq => ?_
    exact hinner inner (heq ▸ hmem) asBlock
  have hplain : template.family ≠ .table → template.selection = false := fun hne =>
    Bool.eq_false_iff.mpr fun hsel => hne (hselects hsel).2.1
  have hdotted : template.family ≠ .table → template.family ≠ .entity →
      ∃ n, nameWith names asBlock ⟨template, className, operands, cost, tieBreak⟩ = .ok n := by
    intro htable hentity
    obtain ⟨n, hn⟩ := hoperand (hplain htable) 0 asBlock hpositive
    refine ⟨n ++ "." ++ template.suffix, ?_⟩
    rw [nameWith]
    split <;> first | (rw [hn]; rfl) | contradiction
  cases hfamily : template.family with
  | date | time | timestamp | timestampTZ => exact hdotted (by simp [hfamily]) (by simp [hfamily])
  | entity =>
    have hr := hplain (by simp [hfamily])
    obtain ⟨first, hfirst⟩ := hoperand hr 0 asBlock hpositive
    obtain ⟨second, hsecond⟩ := hoperand hr 1 asBlock (by rw [hlength]; exact hentity hfamily)
    refine ⟨first ++ "." ++ second, ?_⟩
    have hne : operands.length ≠ 1 := by rw [hlength]; exact Nat.ne_of_gt (hentity hfamily)
    rw [nameWith, hfamily]
    simp only [hfirst, hsecond, if_neg hne]
    rfl
  | table =>
    obtain ⟨table, htable⟩ := h.exists_tableName hfamily
    obtain ⟨suffix, hsuffix⟩ := h.exists_selectionSuffix hparts asBlock
    cases hr : template.selection with
    | true =>
      refine ⟨table ++ suffix, ?_⟩
      rw [nameWith, hfamily]
      simp only [htable, hr, if_true]
      exact congrArg (fun x => x >>= fun suffix => Except.ok (table ++ suffix)) hsuffix
    | false =>
      obtain ⟨value, hvalue⟩ := exists_valueName
        (r := ⟨template, className, operands, cost, tieBreak⟩) asBlock (hoperand hr 1)
      refine ⟨template.operatorName ++ "(" ++ table ++ value ++ ")" ++ suffix, ?_⟩
      rw [nameWith_statistic names asBlock hfamily hr, htable, hvalue, hsuffix]
      rfl

end Rule.Grounded

end FeatureSynth
