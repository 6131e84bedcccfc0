/-
# Where the templates of rules apply

A registry indexes what some template that applies to an entity could have produced,
and a template applies where a field of the entity can fill its first slot.  Whether
the template of a rule applies in the class of the rule is therefore a question about
the first operand.  A field that is there, with the type the rule says, fills the slot
by itself.  A rule does so once its value is held by a field of the class; in the
default catalogue a rule that can stand first is a part of a timestamp or a selection,
and these have no variants for blocks.

The operators of a class are those its templates can produce: where the template of a
rule applies, whatever realizes the rule is looked up under an operator of the class.
-/
import FeatureSynth.Proofs.Registry.Index
import FeatureSynth.Proofs.Rule.FirstPart
import FeatureSynth.Proofs.Schema.WellFormed

namespace FeatureSynth

/-! ## Fields with the stated types -/

namespace Schema

/-- The type of the field of a name in a class. -/
def fieldType? (s : Schema) (C name : String) : Option FieldType :=
  ((s.entity? C).bind (·.field? name)).map (·.type)

theorem fieldType?_eq_some {s : Schema} {C name : String} {t : FieldType} :
    s.fieldType? C name = some t ↔
      ∃ e f, s.entity? C = some e ∧ e.field? name = some f ∧ f.type = t := by
  simp [fieldType?, Option.bind_eq_some_iff]

end Schema

namespace Rule

mutual

/-- The operands of a rule that are fields, and those of the rules it is built from, are fields of
the class the operand is evaluated in, with the type the rule says. -/
def FieldsIn (s : Schema) : Rule → Prop
  | ⟨template, className, operands, cost, tieBreak⟩ =>
    FieldsFrom s ⟨template, className, operands, cost, tieBreak⟩ 0 operands

/-- The fields among some operands of a rule, from an index on, are fields of a schema. -/
def FieldsFrom (s : Schema) (r : Rule) : (index : Nat) → List (RuleOperand Rule) → Prop
  | _, [] => True
  | index, .field name type :: rest =>
    (∃ C, r.operandClass index = .ok C ∧ s.fieldType? C name = some type) ∧
      FieldsFrom s r (index + 1) rest
  | index, .rule inner :: rest => FieldsIn s inner ∧ FieldsFrom s r (index + 1) rest
  | index, .part _ :: rest => FieldsFrom s r (index + 1) rest

end

mutual

/-- A schema that has the fields of another has those of its rules. -/
theorem FieldsIn.mono {s s' : Schema}
    (h : ∀ C name t, s.fieldType? C name = some t → s'.fieldType? C name = some t) :
    ∀ r : Rule, r.FieldsIn s → r.FieldsIn s'
  | ⟨_, _, operands, _, _⟩, hr => FieldsFrom.mono h _ 0 operands hr

theorem FieldsFrom.mono {s s' : Schema}
    (h : ∀ C name t, s.fieldType? C name = some t → s'.fieldType? C name = some t) (r : Rule) :
    ∀ (index : Nat) (xs : List (RuleOperand Rule)), FieldsFrom s r index xs →
      FieldsFrom s' r index xs
  | _, [], _ => trivial
  | index, .field name type :: rest, ⟨⟨C, hC, ht⟩, hrest⟩ =>
      ⟨⟨C, hC, h C name type ht⟩, FieldsFrom.mono h r (index + 1) rest hrest⟩
  | index, .rule inner :: rest, ⟨hinner, hrest⟩ =>
      ⟨FieldsIn.mono h inner hinner, FieldsFrom.mono h r (index + 1) rest hrest⟩
  | index, .part _ :: rest, hrest => FieldsFrom.mono h r (index + 1) rest hrest

end

theorem fieldsIn_of_fieldsFrom {s : Schema} {r inner : Rule} :
    ∀ {index : Nat} {xs : List (RuleOperand Rule)}, FieldsFrom s r index xs → .rule inner ∈ xs →
      inner.FieldsIn s
  | _, .field .. :: _, ⟨_, hrest⟩, hinner => by
      rcases List.mem_cons.mp hinner with heq | hinner
      · cases heq
      · exact fieldsIn_of_fieldsFrom hrest hinner
  | _, .rule _ :: _, ⟨hx, hrest⟩, hinner => by
      rcases List.mem_cons.mp hinner with heq | hinner
      · cases heq
        exact hx
      · exact fieldsIn_of_fieldsFrom hrest hinner
  | _, .part _ :: _, hrest, hinner => by
      rw [FieldsFrom] at hrest
      rcases List.mem_cons.mp hinner with heq | hinner
      · cases heq
      · exact fieldsIn_of_fieldsFrom hrest hinner

theorem FieldsIn.operand {s : Schema} {r inner : Rule} (h : r.FieldsIn s)
    (hinner : .rule inner ∈ r.operands) : inner.FieldsIn s := by
  obtain ⟨template, className, operands, cost, tieBreak⟩ := r
  exact fieldsIn_of_fieldsFrom h hinner

/-- Of a rule with a field as its first operand, the class of the rule has that field. -/
theorem FieldsIn.first {s : Schema} {r : Rule} (h : r.FieldsIn s) {name : String} {type : FieldType}
    (hfirst : r.operands.head? = some (.field name type)) :
    s.fieldType? r.className name = some type := by
  obtain ⟨template, className, operands, cost, tieBreak⟩ := r
  obtain ⟨rest, rfl⟩ := List.head?_eq_some_iff.mp hfirst
  obtain ⟨⟨C, hC, ht⟩, -⟩ := h
  obtain rfl : className = C := by simpa [operandClass] using hC
  exact ht

end Rule

/-! ## Templates that apply -/

namespace Schema

/-- Some field of a class fills slots of a kind. -/
def Provides (s : Schema) (C : String) (k : Kind) : Prop :=
  ∃ e, s.entity? C = some e ∧ ∃ f ∈ e.fields, Catalogue.fills s k f = true

/-- Some template that applies to a class can produce an operator. -/
def Usable (s : Schema) (C operator : String) : Prop :=
  ∃ t ∈ Catalogue.default, operator ∈ ClassRecord.operatorsOf t ∧
    ∃ k, t.slots.head? = some k ∧ s.Provides C k

/-- Some field of a class fills slots for the results of a template, if blocks cannot hold these. -/
def Yields (s : Schema) (C operator : String) : Prop :=
  ∀ t ∈ Catalogue.default, t.name = operator → t.partitionStatistic = none → s.Provides C t.result

variable {s : Schema} {C : String}

theorem Usable.isUsable {e : Entity} {operator : String} (he : s.entity? C = some e)
    (h : s.Usable C operator) :
    (ClassRecord.collect .default s e).isUsable operator = true := by
  obtain ⟨t, ht, hoperator, k, hk, e', he', f, hf, hfills⟩ := h
  obtain rfl : e = e' := Option.some.inj (he.symm.trans he')
  obtain ⟨slots, hslots⟩ := List.head?_eq_some_iff.mp hk
  refine ClassRecord.isUsable_collect_iff.mpr ⟨t, List.mem_filter.mpr ⟨ht, ?_⟩, hoperator⟩
  rw [hslots]
  exact List.any_eq_true.mpr ⟨f, hf, hfills⟩

/-- A field fills the slots for its own kind. -/
theorem provides_of_field (h : s.compile = .ok ()) {e : Entity} (he : s.entity? C = some e)
    {f : Field} (hf : f ∈ e.fields) : s.Provides C f.type.kind := by
  refine ⟨e, he, f, hf, ?_⟩
  simp only [Catalogue.fills, BEq.rfl, Bool.true_and, Option.all_eq_true]
  exact fun c hc => entity?_of_relation h (mem_of_entity? he) hf hc

/-- Where there are tables, they can be partitioned. -/
theorem usable_of_table (h : s.Provides C .objectArray) :
    s.Usable C "Partition" ∧ s.Usable C "TablePartition" := by
  have ht : .tableSelection ∈ Catalogue.default := by decide
  exact ⟨⟨.tableSelection, ht, by decide, .objectArray, rfl, h⟩,
    ⟨.tableSelection, ht, by decide, .objectArray, rfl, h⟩⟩

end Schema

/-- What is used of the default catalogue: its templates are known by their names, a result that
fills a first slot is one blocks cannot hold, a selection results in a table like the one it
restricts, and statistics with variants for blocks are of tables. -/
theorem Catalogue.first_slots_default : ∀ t ∈ Catalogue.default,
    Catalogue.default.template? t.name = some t ∧
    (∃ k, t.slots.head? = some k ∧ k ≠ .part ∧
      ∀ u ∈ Catalogue.default, u.result = k → u.partitionStatistic = none) ∧
    (t.selection = true → t.slots.head? = some .objectArray ∧ t.result = .objectArray) ∧
    (t.partitionStatistic.isSome = true → t.slots.head? = some .objectArray) := by
  have h : ∀ t ∈ Catalogue.default,
      Catalogue.default.template? t.name = some t ∧
      (t.slots.head?.any fun k => k ≠ .part ∧
        ∀ u ∈ Catalogue.default, u.result = k → u.partitionStatistic = none) = true ∧
      (t.selection = true → t.slots.head? = some .objectArray ∧ t.result = .objectArray) ∧
      (t.partitionStatistic.isSome = true → t.slots.head? = some .objectArray) := by
    decide
  intro t ht
  obtain ⟨hname, hslot, htables⟩ := h t ht
  obtain ⟨k, hk, hprops⟩ := (Option.any_eq_true _ _).mp hslot
  obtain ⟨hpart, hresults⟩ := of_decide_eq_true hprops
  exact ⟨hname, ⟨k, hk, hpart, hresults⟩, htables⟩

theorem Catalogue.partition_not_default {t : Template} (h : t ∈ Catalogue.default) :
    t.name ≠ "Partition" := by
  revert t
  decide

namespace Rule

variable {s : Schema} {space : Space} {r inner : Rule}

theorem length_operands_of_check (h : r.check space = .ok ()) :
    r.template.slots.length = r.operands.length := by
  obtain ⟨template, className, operands, cost, tieBreak⟩ := r
  rw [check] at h
  split at h
  · cases h
  · split at h
    · cases h
    · rename_i hlen
      exact not_not.mp hlen

/-- A result is of the kind its template says. -/
theorem kind_of_resultType : ∀ {r : Rule} {type : FieldType}, r.resultType = .ok type →
    type.kind = r.template.result
  | ⟨template, className, operands, cost, tieBreak⟩, type, h => by
      have hrelation : ∀ first, relation template first = .ok type →
          type.kind = template.result := by
        intro first h
        unfold relation at h
        split at h
        · cases h
        · split at h
          · rename_i hresult
            cases h
            exact hresult.symm
          · rename_i hresult
            cases h
            exact hresult.symm
          · cases h
      unfold resultType at h
      split at h
      · rename_i simple hsimple
        cases h
        exact FieldType.kind_ofKind? hsimple
      · cases h
      · exact hrelation _ h
      · split at h
        · exact hrelation _ h
        · cases h
      · cases h

/-- A rule operand in the first place is evaluated in the class of the rule, and its result fills
the first slot. -/
theorem fills_first_slot (h : r.check space = .ok ()) {k : Kind} {slots : List Kind}
    (hslots : r.template.slots = k :: slots) {rest : List (RuleOperand Rule)}
    (hoperands : r.operands = .rule inner :: rest) :
    inner.className = r.className ∧ inner.template.result = k := by
  have hchecked := checkOperands_of_check h
  rw [hslots, hoperands, checkOperands] at hchecked
  split at hchecked
  · cases hchecked
  · split at hchecked
    · cases hchecked
    · rename_i hfits
      obtain ⟨result, hresult, hkind⟩ := resultType_of_checkInner hfits
      refine ⟨?_, (kind_of_resultType hresult).symm.trans hkind⟩
      have hclass := operandClass_of_checkInner hfits
      simpa [operandClass, eq_comm] using hclass

/-- The template of a rule applies in its class once the first operand is held by a field there. -/
theorem applies (hcompile : s.compile = .ok ()) (hover : r.Over .default)
    (hcheck : r.check space = .ok ()) (hfields : r.FieldsIn s)
    (hfirst : ∀ inner, r.operands.head? = some (.rule inner) →
      s.Yields inner.className inner.template.name) :
    ∃ k, r.template.slots.head? = some k ∧ s.Provides r.className k := by
  obtain ⟨-, ⟨k, hk, hpart, hresults⟩, -⟩ :=
    Catalogue.first_slots_default _ (template_mem_of_over hover)
  refine ⟨k, hk, ?_⟩
  obtain ⟨slots, hslots⟩ := List.head?_eq_some_iff.mp hk
  have hchecked := checkOperands_of_check hcheck
  have hlength := length_operands_of_check hcheck
  match hoperands : r.operands with
  | [] => simp [hslots, hoperands] at hlength
  | .field name type :: rest =>
    rw [hslots, hoperands, checkOperands] at hchecked
    split at hchecked
    · cases hchecked
    · rename_i hkind
      obtain ⟨e, f, he, hf, htype⟩ := Schema.fieldType?_eq_some.mp
        (hfields.first (by rw [hoperands]; rfl))
      have hprovides := Schema.provides_of_field hcompile he (List.mem_of_find?_eq_some hf)
      rwa [htype, not_not.mp hkind] at hprovides
  | .part part :: rest =>
    rw [hslots, hoperands, checkOperands] at hchecked
    split at hchecked
    · cases hchecked
    · rename_i hfits
      simp [checkPart, hpart, refuse, breach] at hfits
  | .rule inner :: rest =>
    obtain ⟨hclass, hresult⟩ := fills_first_slot hcheck hslots hoperands
    have hinner := template_mem_of_over (over_operand hover (hoperands ▸ List.mem_cons_self))
    have hyields := hfirst inner (by rw [hoperands]; rfl) _ hinner rfl (hresults _ hinner hresult)
    rwa [hclass, hresult] at hyields

/-- Whatever realizes a rule whose template applies is looked up under an operator of the class. -/
theorem usable_of_applies (hover : r.Over .default)
    (happlies : ∃ k, r.template.slots.head? = some k ∧ s.Provides r.className k) {operator : String}
    (hoperator : operator ∈ ClassRecord.operatorsOf r.template) : s.Usable r.className operator :=
  ⟨r.template, template_mem_of_over hover, hoperator, happlies⟩

theorem eq_template_of_name (hover : r.Over .default) {t : Template} (ht : t ∈ Catalogue.default)
    (hname : t.name = r.template.name) : t = r.template := by
  have htemplate : Catalogue.default.template? r.template.name = some r.template := by
    obtain ⟨template, className, operands, cost, tieBreak⟩ := r
    exact hover.1
  rw [← hname, (Catalogue.first_slots_default t ht).1] at htemplate
  exact Option.some.inj htemplate

/-- Of statistics nothing is asked. -/
theorem yields_of_statistic (hover : r.Over .default)
    (hstatistic : r.template.partitionStatistic.isSome = true) (C : String) :
    s.Yields C r.template.name := by
  intro t ht hname hnone
  obtain rfl := eq_template_of_name hover ht hname
  rw [hnone] at hstatistic
  cases hstatistic

/-- A rule held by a field of its class fills slots for its result. -/
theorem yields_of_field (hcompile : s.compile = .ok ()) (hover : r.Over .default)
    (happlies : ∃ k, r.template.slots.head? = some k ∧ s.Provides r.className k)
    (hfield : ∀ type, r.resultType = .ok type →
      ∃ e, s.entity? r.className = some e ∧ ∃ f ∈ e.fields, f.type = type) :
    s.Yields r.className r.template.name := by
  intro t ht hname _
  obtain rfl := eq_template_of_name hover ht hname
  obtain ⟨-, -, hselects, -⟩ := Catalogue.first_slots_default _ ht
  cases hselection : r.template.selection with
  | true =>
    -- the table that is restricted fills the slot already
    obtain ⟨k, hk, hprovides⟩ := happlies
    obtain ⟨hslot, hresult⟩ := hselects hselection
    obtain rfl : Kind.objectArray = k := Option.some.inj (hslot.symm.trans hk)
    rwa [hresult]
  | false =>
    obtain ⟨simple, hsimple⟩ := Option.isSome_iff_exists.mp
      ((Catalogue.blocksOfTables_default _ ht).simple hselection)
    obtain ⟨e, he, f, hf, htype⟩ := hfield simple (resultType_of_simple hsimple)
    rw [← FieldType.kind_ofKind? hsimple, ← htype]
    exact Schema.provides_of_field hcompile he hf

/-- A class with a statistic of a selection has tables. -/
theorem provides_of_partitionBlock (hcompile : s.compile = .ok ()) (hover : r.Over .default)
    (hcheck : r.check space = .ok ()) (hfields : r.FieldsIn s) (hr : r.isPartitionBlock = true) :
    s.Provides r.className .objectArray := by
  obtain ⟨-, hselects⟩ := Bool.and_eq_true_iff.mp hr
  obtain ⟨selection, hfirst, hselection⟩ := (Option.any_eq_true _ _).mp hselects
  have hmem := List.mem_of_getElem? (getElem?_of_ruleOperand? hfirst)
  have hclass : r.className = selection.className := by
    have hclass := operandClass_of_check hcheck hfirst
    simpa [operandClass] using hclass
  have hchecked := check_operand hcheck hmem
  obtain ⟨name, type, part, rest, hoperands⟩ := operands_of_selection hchecked hselection
  have hover' := over_operand hover hmem
  obtain ⟨k, hk, hprovides⟩ := applies hcompile hover' hchecked (hfields.operand hmem)
    fun inner hinner => by simp [hoperands] at hinner
  obtain ⟨-, -, hselects, -⟩ := Catalogue.first_slots_default _ (template_mem_of_over hover')
  obtain ⟨hslot, -⟩ := hselects hselection
  obtain rfl : Kind.objectArray = k := Option.some.inj (hslot.symm.trans hk)
  rwa [hclass]

/-- The template of a statistic of a selection applies in its class. -/
theorem applies_of_partitionBlock (hcompile : s.compile = .ok ()) (hover : r.Over .default)
    (hcheck : r.check space = .ok ()) (hfields : r.FieldsIn s) (hr : r.isPartitionBlock = true) :
    ∃ k, r.template.slots.head? = some k ∧ s.Provides r.className k := by
  obtain ⟨hstatistic, -⟩ := Bool.and_eq_true_iff.mp hr
  obtain ⟨-, -, -, htable⟩ := Catalogue.first_slots_default _ (template_mem_of_over hover)
  exact ⟨_, htable hstatistic, provides_of_partitionBlock hcompile hover hcheck hfields hr⟩

end Rule

end FeatureSynth
