/-
# When a build repeats a formula

A formula that a derived field of the input computes is not always found: the
registry indexes a formula only if its operator is one that some template that
applies to the class can produce, and templates apply by the kinds of the fields
alone.  A rule may have its first operand from another rule, of a kind no field
of the class has.  Where such a rule is asked for, its formula is computed a
second time, next to the field that has it.

This is the only way: a build repeats the formula of a derived field exactly when
it asks for it and no template that applies has its operator.
-/
import FeatureSynth.Proofs.Build.Standard
import FeatureSynth.Rule.Check

namespace FeatureSynth

namespace ClassRecord

/-- The record of an entity misses the formula of one of its fields exactly when no template that
applies can produce the operator. -/
theorem field?_collect_eq_none (catalogue : Catalogue) (schema : Schema) {e : Entity} {f : Field}
    {φ : Formula} (hf : f ∈ e.fields) (hφ : f.formula = some φ) :
    (collect catalogue schema e).field? φ = none ↔
      ∀ t ∈ catalogue.applicable e schema, φ.name ∉ operatorsOf t := by
  rw [← Option.not_isSome_iff_eq_none, field?_collect_isSome, isUsable_collect_iff]
  constructor
  · intro h t ht hop
    exact h ⟨⟨f, hf, hφ⟩, t, ht, hop⟩
  · rintro h ⟨-, t, ht, hop⟩
    exact h t ht hop

end ClassRecord

namespace WeekDays

/-- The day of the week of a timestamp. -/
def ofTimestamp : Formula := ⟨"WeekDay", [.nested "GetDate" [.field "ts"]]⟩

/-- The date is that of a rule, as there is no field of dates. -/
def ofTimestampRule : Rule :=
  ⟨.plain "WeekDay" .date [.date] .continuous, "Customer",
    [.rule ⟨.plain "GetDate" .timestamp [.timestamp] .date, "Customer", [.field "ts" .timestamp], 0,
      0⟩], 0, 0⟩

def stamped : Entity := customer "ts" .timestamp ofTimestamp

end WeekDays

/-! ## When a formula is repeated -/

/-- The formula of a derived field of the input is that of an added field of the class exactly when
the build asks for it, so that the record knows it at the end, and no template that applies to the
class can produce its operator.  Without sharing and without a cap what a build asks for are the
formulas of its candidates. -/
theorem runBuild_duplicates_iff {catalogue : Catalogue} {o : Options} {schema : Schema}
    {space : Space} {rules : List Rule} {interrupt : Interrupt} {b : BuildState}
    (hbuild : runBuild catalogue o schema space rules interrupt = (.ok (), b))
    {C : String} {e : Entity} {f : Field} {φ : Formula} (he : schema.entity? C = some e)
    (hf : f ∈ e.fields) (hφ : f.formula = some φ) :
    ∃ e' c', b.schema.entity? C = some e' ∧ b.registry.class? C = some c' ∧
      ((∃ g ∈ e'.fieldsBeyond e, g.formula = some φ) ↔
        (c'.field? φ).isSome = true ∧
          ∀ t ∈ catalogue.applicable e schema, φ.name ∉ ClassRecord.operatorsOf t) ∧
      (Mode.ofOptions o = .standard → o.maxFields = none →
        ((∃ g ∈ e'.fieldsBeyond e, g.formula = some φ) ↔
          (∃ r ∈ rules, r.className = C ∧ space.clearLinks.formula r = .ok φ) ∧
            ∀ t ∈ catalogue.applicable e schema, φ.name ∉ ClassRecord.operatorsOf t)) := by
  obtain ⟨added, blocks, hg⟩ := runBuild_grows hbuild
  obtain ⟨e', c', he', hc', hclass⟩ := hg.class_of_start he
  have hknown := ClassRecord.field?_collect_eq_none catalogue schema hf hφ
  refine ⟨e', c', he', hc', ⟨?_, ?_⟩, fun hmode hcap => ?_⟩
  · rintro ⟨g, hg, hgφ⟩
    obtain ⟨hnone, hsome, -⟩ := hclass.of_mem_fieldsBeyond hg hgφ
    exact ⟨by rw [hsome]; rfl, hknown.mp hnone⟩
  · rintro ⟨hsome, hops⟩
    obtain ⟨n, hn⟩ := Option.isSome_iff_exists.mp hsome
    obtain ⟨g, hg, -, hgφ⟩ := hclass.exists_fieldsBeyond (hknown.mpr hops) hn
    exact ⟨g, hg, hgφ⟩
  · obtain ⟨_, _, -, h⟩ := standardRun hmode hcap hbuild
    rw [h.added_iff he he', hknown]

/-- Where a field of the class is a date, the template applies, and the field that has the day of
the week is found. -/
theorem weekDay_reused :
    ∃ b e', WeekDays.build WeekDays.dated [WeekDays.ofDateRule 0] = (.ok (), b) ∧
      b.schema.entity? "Customer" = some e' ∧
      ¬ ∃ g ∈ e'.fieldsBeyond WeekDays.dated, g.formula = some WeekDays.ofDate := by
  have hok : (WeekDays.build WeekDays.dated [WeekDays.ofDateRule 0]).1.isOk = true := by
    decide +kernel
  have happlies : ∃ t ∈ Catalogue.applicable .default WeekDays.dated ⟨[WeekDays.dated]⟩,
      WeekDays.ofDate.name ∈ ClassRecord.operatorsOf t := by
    decide +kernel
  have hbuild : WeekDays.build WeekDays.dated [WeekDays.ofDateRule 0] =
      (.ok (), (WeekDays.build WeekDays.dated [WeekDays.ofDateRule 0]).2) :=
    run_eq_of_isOk hok
  obtain ⟨e', c', he', -, -, hiff⟩ := runBuild_duplicates_iff (C := "Customer") (e := WeekDays.dated)
    (f := .derived "wd" .continuous WeekDays.ofDate) (φ := WeekDays.ofDate) hbuild rfl
    (by simp [WeekDays.dated, WeekDays.customer]) rfl
  refine ⟨_, e', hbuild, he', fun hadded => ?_⟩
  obtain ⟨t, ht, hop⟩ := happlies
  exact ((hiff rfl rfl).mp hadded).2 t ht hop

/-- Where only a timestamp is, the template applies to no field of the class: a checked rule over
the default catalogue, and a schema that compiles, get a second field for the day of the week. -/
theorem weekDay_duplicated :
    Schema.compile ⟨[WeekDays.stamped]⟩ = .ok () ∧
      Rule.check .empty WeekDays.ofTimestampRule = .ok () ∧
      ∃ b e', WeekDays.build WeekDays.stamped [WeekDays.ofTimestampRule] = (.ok (), b) ∧
        b.schema.entity? "Customer" = some e' ∧
        (∃ f ∈ WeekDays.stamped.fields, f.formula = some WeekDays.ofTimestamp) ∧
        ∃ g ∈ e'.fieldsBeyond WeekDays.stamped, g.formula = some WeekDays.ofTimestamp := by
  have hcompile : (Schema.compile ⟨[WeekDays.stamped]⟩).isOk = true := by decide +kernel
  have hcheck : (Rule.check .empty WeekDays.ofTimestampRule).isOk = true := by decide +kernel
  have hok : (WeekDays.build WeekDays.stamped [WeekDays.ofTimestampRule]).1.isOk = true := by
    decide +kernel
  have hadded : ((WeekDays.build WeekDays.stamped [WeekDays.ofTimestampRule]).2.schema.entity?
      "Customer").any (fun e' => (e'.fieldsBeyond WeekDays.stamped).any
        (·.formula == some WeekDays.ofTimestamp)) = true := by
    decide +kernel
  obtain ⟨e', he', hg⟩ := (Option.any_eq_true _ _).mp hadded
  obtain ⟨g, hg, hφ⟩ := List.any_eq_true.mp hg
  refine ⟨eq_ok_of_isOk hcompile, eq_ok_of_isOk hcheck, _, e', run_eq_of_isOk hok,
    he', ?_, g, hg, by simpa using hφ⟩
  exact ⟨.derived "wd" .continuous WeekDays.ofTimestamp,
    by simp [WeekDays.stamped, WeekDays.customer], rfl⟩

end FeatureSynth
