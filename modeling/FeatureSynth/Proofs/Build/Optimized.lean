/-
# Factoring out common rules preserves what is computed

With sharing, the formula of a field refers to the fields of the rule operands.  Two
statements say that nothing is lost.  The formula is the template of the rule over
what stands for its operands: the fields it names, the fields the ledger has for
its rule operands, and the criteria of its parts.  And written out, with every
reference to the field of a rule operand replaced by that field's formula, and so
on, it is the formula of the rule.
-/
import FeatureSynth.Proofs.Build.Bind
import FeatureSynth.Template.Default

namespace FeatureSynth

namespace Schema

/-- The formula of a field of a class. -/
def formulaOf? (s : Schema) (C name : String) : Option Formula :=
  ((s.entity? C).bind (·.field? name)).bind (·.formula)

mutual

/-- A formula over shared fields written out along its rule: a reference that stands for a rule
operand is replaced by the formula of the field, written out in turn. -/
def writeOut (s : Schema) : Rule → Formula → Option Formula
  | ⟨_, _, operands, _, _⟩, f => (writeOutOperands s operands f.operands).map (Formula.mk f.name)

/-- The operands of a formula over shared fields written out along those of its rule. -/
def writeOutOperands (s : Schema) : List (RuleOperand Rule) → List Operand → Option (List Operand)
  | [], [] => some []
  | .rule inner :: rest, .field name :: xs =>
    (s.formulaOf? inner.className name).bind fun f =>
      (writeOut s inner f).bind fun f =>
        (writeOutOperands s rest xs).map (.ofFormula f :: ·)
  | .field .. :: rest, x :: xs => (writeOutOperands s rest xs).map (x :: ·)
  | .part _ :: rest, x :: xs => (writeOutOperands s rest xs).map (x :: ·)
  | _, _ => none

end

end Schema

namespace BuildState

/-- The field the ledger has for a rule: of the rules that its order does not tell apart some have
a name, and all that have one have this. -/
def IsLedgerField (b : BuildState) (r : Rule) (name : String) : Prop :=
  (∃ x, (x, some name) ∈ b.fieldOf.entries ∧ b.space.compareCostName x r = .eq) ∧
    ∀ x n, (x, some n) ∈ b.fieldOf.entries → b.space.compareCostName x r = .eq → n = name

/-- What stands for an operand of a rule in the formula of its shared field. -/
def StandsFor (b : BuildState) : RuleOperand Rule → Operand → Prop
  | .field name _, x => x = .field name
  | .rule inner, x => ∃ name, b.IsLedgerField inner name ∧ x = .field name
  | .part part, x => ∃ f, b.space.partFormula part = .ok f ∧ x = .ofFormula f

variable {b₀ b : BuildState}

theorem eq_ok_of_toOption {ε α : Type} {x : Except ε α} {a : α} (h : x.toOption = some a) :
    x = .ok a := by
  cases x with
  | ok y =>
    cases h
    rfl
  | error e => cases h

/-- The shared field of a rule is the one the ledger has for it, if it has one. -/
theorem SharesRules.isLedgerField (h : SharesRules b₀ b) {r : Rule} (hr : b.Named r) :
    ∃ name, b.sharedName? r = some name ∧ b.IsLedgerField r name := by
  obtain ⟨x, name, hx, halike⟩ := hr
  have hshared := ((h.holds x name hx).congr halike).shared
  refine ⟨name, hshared, ⟨x, hx, (Space.compareCostName_eq_iff h.wellFounded).mpr halike⟩, ?_⟩
  intro y n hy heq
  have hother := (h.holds y n hy).congr ((Space.compareCostName_eq_iff h.wellFounded).mp heq)
  exact Option.some.inj (hother.shared.symm.trans hshared)

/-- Shared operands stand for the operands of the rule. -/
theorem SharesRules.standsFor (h : SharesRules b₀ b) : ∀ (operands : List (RuleOperand Rule))
    (xs : List Operand), (∀ inner, .rule inner ∈ operands → b.Named inner) →
      b.sharedOperands? operands = some xs → List.Forall₂ b.StandsFor operands xs
  | [], xs, _, hxs => by
      cases hxs
      exact .nil
  | .field name type :: rest, xs, hnamed, hxs => by
      simp only [BuildState.sharedOperands?, Option.map_eq_some_iff] at hxs
      obtain ⟨ys, hys, rfl⟩ := hxs
      exact .cons rfl (standsFor h rest ys
        (fun inner hinner => hnamed inner (List.mem_cons_of_mem _ hinner)) hys)
  | .rule inner :: rest, xs, hnamed, hxs => by
      simp only [BuildState.sharedOperands?, Option.bind_eq_some_iff, Option.map_eq_some_iff] at hxs
      obtain ⟨name, hname, ys, hys, rfl⟩ := hxs
      obtain ⟨m, hm, hledger⟩ := h.isLedgerField (hnamed inner List.mem_cons_self)
      obtain rfl : name = m := Option.some.inj (hname.symm.trans hm)
      exact .cons ⟨name, hledger, rfl⟩ (standsFor h rest ys
        (fun x hx => hnamed x (List.mem_cons_of_mem _ hx)) hys)
  | .part part :: rest, xs, hnamed, hxs => by
      simp only [BuildState.sharedOperands?, Option.bind_eq_some_iff, Option.map_eq_some_iff] at hxs
      obtain ⟨f, hf, ys, hys, rfl⟩ := hxs
      exact .cons ⟨f, eq_ok_of_toOption hf, rfl⟩ (standsFor h rest ys
        (fun inner hinner => hnamed inner (List.mem_cons_of_mem _ hinner)) hys)

/-- Fields have the formulas their classes know them by. -/
def KnownHeld (b : BuildState) : Prop :=
  ∀ C φ n, b.knownField? C φ = some n → b.schema.formulaOf? C n = some φ

mutual

/-- Where fields have the formulas their classes know them by, the formula of a shared field is
written out to the formula of the rule. -/
theorem writeOut_shared (hheld : b.KnownHeld) : ∀ (r : Rule) (n : String), b.sharedName? r = some n →
    ∃ φ ψ, b.schema.formulaOf? r.className n = some φ ∧ b.schema.writeOut r φ = some ψ ∧
      b.space.formula r = .ok ψ
  | ⟨t, c, operands, _, _⟩, n, h => by
      simp only [sharedName?, Option.bind_eq_some_iff] at h
      obtain ⟨xs, hxs, hn⟩ := h
      obtain ⟨ys, hys, hformulas⟩ := writeOutOperands_shared hheld operands xs hxs
      refine ⟨_, ⟨t.name, ys⟩, hheld c _ n hn, ?_, ?_⟩
      · simp only [Schema.writeOut, Template.formula, hys, Option.map_some]
      · simp only [Space.formula, Rule.formulaWith, hformulas, Template.formula]

theorem writeOutOperands_shared (hheld : b.KnownHeld) :
    ∀ (operands : List (RuleOperand Rule)) (xs : List Operand), b.sharedOperands? operands = some xs →
      ∃ ys, b.schema.writeOutOperands operands xs = some ys ∧
        Rule.operandFormulasWith b.space.partFormula operands = .ok ys
  | [], xs, h => by
      cases h
      exact ⟨[], rfl, rfl⟩
  | .field name type :: rest, xs, h => by
      simp only [BuildState.sharedOperands?, Option.map_eq_some_iff] at h
      obtain ⟨ws, hws, rfl⟩ := h
      obtain ⟨ys, hys, hformulas⟩ := writeOutOperands_shared hheld rest ws hws
      refine ⟨.field name :: ys, ?_, ?_⟩
      · simp only [Schema.writeOutOperands, hys, Option.map_some]
      · simp only [Rule.operandFormulasWith, hformulas]
  | .rule inner :: rest, xs, h => by
      simp only [BuildState.sharedOperands?, Option.bind_eq_some_iff, Option.map_eq_some_iff] at h
      obtain ⟨name, hname, ws, hws, rfl⟩ := h
      obtain ⟨φ, ψ, hφ, hψ, hformula⟩ := writeOut_shared hheld inner name hname
      obtain ⟨ys, hys, hformulas⟩ := writeOutOperands_shared hheld rest ws hws
      refine ⟨.ofFormula ψ :: ys, ?_, ?_⟩
      · simp only [Schema.writeOutOperands, hφ, hψ, hys, Option.bind_some, Option.map_some]
      · simp only [Space.formula] at hformula
        simp only [Rule.operandFormulasWith, hformula, hformulas]
  | .part part :: rest, xs, h => by
      simp only [BuildState.sharedOperands?, Option.bind_eq_some_iff, Option.map_eq_some_iff] at h
      obtain ⟨f, hf, ws, hws, rfl⟩ := h
      obtain ⟨ys, hys, hformulas⟩ := writeOutOperands_shared hheld rest ws hws
      refine ⟨.ofFormula f :: ys, ?_, ?_⟩
      · simp only [Schema.writeOutOperands, hys, Option.map_some]
      · simp only [Rule.operandFormulasWith, eq_ok_of_toOption hf, hformulas]

end

/-- In a state that compiles, fields have the formulas their classes know them by. -/
theorem knownHeld_of_compile {catalogue : Catalogue} {o : Options} {schema : Schema} {space : Space}
    {interrupt : Interrupt} (hg : Grew (start catalogue o schema space interrupt) b)
    (hcompile : b.schema.compile = .ok ()) : b.KnownHeld := by
  intro C φ n hn
  obtain ⟨e₁, c', he₁, hc', hn⟩ := knownField?_eq_some.mp hn
  obtain ⟨added, blocks, hg⟩ := hg
  obtain ⟨e, c, e', he, hc, he', hclass⟩ :=
    hg.class_of_untouched (untouched_start catalogue o schema space interrupt) hc'
  rw [class?_start, show schema.entity? C = some e from he] at hc
  cases hc
  obtain ⟨f, hf, hname, hφ⟩ := hclass.field_of_known hn
  have hnodup := (Schema.nodup_of_compile hcompile).2 e' (Schema.mem_of_entity? he')
  simp only [Schema.formulaOf?, he', Option.bind_some]
  rw [← hname, Entity.field?_of_mem hnodup hf, Option.bind_some, hφ]

end BuildState

section Whole

open BuildState

variable {catalogue : Catalogue} {o : Options} {schema : Schema} {space : Space}
variable {rules : List Rule} {interrupt : Interrupt} {b : BuildState}

theorem sharesRules_runBuild (hmode : Mode.ofOptions o = .optimized) (hspace : space.WellFounded)
    (hbuild : runBuild catalogue o schema space rules interrupt = (.ok (), b)) :
    SharesRules (start catalogue o schema space interrupt) b := by
  obtain ⟨b₁, hlay, rfl, -⟩ := runBuild_eq_ok hbuild
  have hfree := fun k d => space.selectionField_of_clearLinks (k := k) (d := d)
  have h := Build.shares_layOut (untouched_start catalogue o schema space interrupt)
    (hspace.of_frame (Space.frame_clearLinks space)) hfree rfl hmode hlay
  exact h.keep ⟨_, _, grows_annotate o b₁⟩ (.refl _) fun _ _ => Iff.rfl

/-- Factoring out common rules preserves what is computed.  With sharing, over a well-founded
space, every rule of the ledger that has a name has it from a derived field of its class.  The
formula of this field is the rule's template over what stands for its operands: the field names,
the fields the ledger has for the rule operands, and the criteria of the parts.  Written out, it is
the formula of the rule. -/
theorem runBuild_optimized_realizes (hmode : Mode.ofOptions o = .optimized)
    (hspace : space.WellFounded)
    (hbuild : runBuild catalogue o schema space rules interrupt = (.ok (), b)) {r : Rule}
    {n : String} (hentry : (r, some n) ∈ b.fieldOf.entries) :
    ∃ xs ψ, b.schema.formulaOf? r.className n = some (r.template.formula xs) ∧
      List.Forall₂ b.StandsFor r.operands xs ∧
      b.schema.writeOut r (r.template.formula xs) = some ψ ∧ b.space.formula r = .ok ψ := by
  have h := sharesRules_runBuild hmode hspace hbuild
  obtain ⟨-, -, -, hcompile⟩ := runBuild_eq_ok hbuild
  have hheld := knownHeld_of_compile h.grew hcompile
  have hholds := h.holds r n hentry
  obtain ⟨φ, ψ, hφ, hψ, hformula⟩ := writeOut_shared hheld r n hholds.shared
  obtain ⟨xs, hxs, hknown⟩ : ∃ xs, b.sharedOperands? r.operands = some xs ∧
      b.knownField? r.className (r.template.formula xs) = some n := by
    obtain ⟨template, className, operands, cost, tieBreak⟩ := r
    exact Option.bind_eq_some_iff.mp hholds.shared
  obtain rfl : φ = r.template.formula xs := Option.some.inj (hφ.symm.trans (hheld _ _ _ hknown))
  exact ⟨xs, ψ, hφ, h.standsFor r.operands xs hholds.operands hxs, hψ, hformula⟩

end Whole

/-! ## The days of early orders -/

namespace EarlyOrders

def orders : FieldType := .objectArray "Orders"

/-- Customers and their orders, which have the day of the year of their date as a derived field. -/
def schema : Schema :=
  ⟨[ ⟨"Customer", [.native "Orders" orders], []⟩,
     ⟨"Orders", [.native "date" .date, .derived "day" .continuous ⟨"YearDay", [.field "date"]⟩],
       []⟩ ]⟩

def yearDay : Rule :=
  ⟨.plain "YearDay" .date [.date] .continuous, "Orders", [.field "date" .date], 0, 0⟩

/-- The orders cut along the day of the year, which was analysed: up to day 100, and later. -/
def space : Space :=
  { dimensions :=
      [ ⟨"Orders", .rule yearDay, 0,
          some [⟨2, [.interval Scalar.missing 100 0, .interval 100 Scalar.maxValue 1]⟩], none⟩ ]
    partitions :=
      [ ⟨"Orders", "Customer", "Orders", [⟨0, 2⟩], [([0], ⟨0, 1⟩)], 0, none, none, [.none]⟩ ] }

theorem wellFounded_space : space.WellFounded where
  dimensions_nodup := by simp [space]
  partitions_nodup := by simp [space]
  axis_dimension := by simp [space]
  earlier := by
    intro k d r hd hr part hpart
    obtain ⟨rfl, rfl⟩ : k = 0 ∧ d = space.dimensions[0] := by
      cases k with
      | zero => exact ⟨rfl, (Option.some.inj hd).symm⟩
      | succ k => simp [space] at hd
    cases hr
    cases hpart

/-- The orders up to day 100. -/
def early : Rule := ⟨.tableSelection, "Customer", [.field "Orders" orders, .part ⟨0, [0]⟩], 0, 0⟩

/-- The mean day of the year of the early orders. -/
def mean : Rule :=
  ⟨.statistic "Mean" .continuous .continuous, "Customer", [.rule early, .rule yearDay], 2, 0⟩

def build : Except BuildError Unit × BuildState :=
  runBuild .default .default schema space [yearDay, mean] .never

def earlyField : String := "Orders where date.YearDay <= 100"

def meanField : String := "Mean(Orders.date.YearDay) where date.YearDay <= 100"

/-- The mean over shared fields, one of them in another class. -/
def sharedMean : Formula := ⟨"TableMean", [.field earlyField, .field "day"]⟩

/-- The mean, written out. -/
def writtenMean : Formula :=
  ⟨"TableMean",
    [ .nested "TableSelection" [.field "Orders", .nested "LE" [.field "day", .continuous 100]],
      .nested "YearDay" [.field "date"] ]⟩

end EarlyOrders

open EarlyOrders in
/-- The mean day of the early orders refers to a field for the selection, and to the field that the
orders have for their day already; so does the criterion of the selection. -/
theorem earlyMean_realized :
    ∃ b r, build = (.ok (), b) ∧ r.name = "TableMean" ∧
      (r, some meanField) ∈ b.fieldOf.entries ∧
      b.schema.formulaOf? "Customer" meanField = some sharedMean ∧
      List.Forall₂ b.StandsFor r.operands sharedMean.operands ∧
      b.schema.writeOut r sharedMean = some writtenMean ∧ b.space.formula r = .ok writtenMean := by
  have hok : build.1.isOk = true := by decide +kernel
  have hentry : build.2.fieldOf.entries.any (fun entry => entry.2 == some meanField &&
      entry.1.name == "TableMean" && entry.1.className == "Customer" &&
        (build.2.space.formula entry.1).toOption == some writtenMean) = true := by
    decide +kernel
  have hfield : build.2.schema.formulaOf? "Customer" meanField = some sharedMean := by decide +kernel
  have hbuild : build = (.ok (), build.2) := run_eq_of_isOk hok
  obtain ⟨⟨r, name⟩, hmem, hr⟩ := List.any_eq_true.mp hentry
  simp only [Bool.and_eq_true, beq_iff_eq] at hr
  obtain ⟨⟨⟨rfl, hname⟩, hclass⟩, hformula⟩ := hr
  obtain ⟨xs, ψ, hxs, hstands, hwritten, hψ⟩ :=
    runBuild_optimized_realizes rfl wellFounded_space hbuild hmem
  have hshared : r.template.formula xs = sharedMean := by
    rw [hclass, hfield] at hxs
    exact (Option.some.inj hxs).symm
  obtain rfl : xs = sharedMean.operands := congrArg Formula.operands hshared
  obtain rfl : ψ = writtenMean := by
    rw [hψ] at hformula
    exact Option.some.inj hformula
  rw [hshared] at hwritten
  exact ⟨_, r, hbuild, hname, hmem, hfield, hstands, hwritten, hψ⟩

end FeatureSynth
