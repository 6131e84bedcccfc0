/-
# Members are keyed by the parts of their rules

Where blocks are built, a rule of the ledger may be named by a member of a block.
The block is then the right one for the rule, and the member is the right one of the
block: the block computes the statistic of the rule, over the block of parts of the
table or over the block that the second operand is a member of, and the key of the
member is that of the part the rule uses.

This holds where ledgers tell apart all that blocks do.  Ledgers tell rules apart by
the names of their templates, so the templates of the rules have to be those of one
catalogue: of two templates with one name, the second is answered by the field made
for the first, whatever block that is in.
-/
import FeatureSynth.Proofs.Build.Optimized
import FeatureSynth.Proofs.Build.Sparse

namespace FeatureSynth

namespace BuildState

variable {b : BuildState} {s : Space} {ts : Catalogue}

/-! ## The blocks of a rule -/

/-- The block of a class that holds the parts of the table of a partition: it refers to the field of
the descriptor, which is derived by it, and to the fields that the dimensions are bound to. -/
def IsTableBlock (b : BuildState) (e : Entity) (rank : Nat) (T : String) : Prop :=
  ∃ p P g δ cells xs, b.space.partitions[rank]? = some p ∧ p.parentClass = e.name ∧
    e.block? T = some ⟨T, ⟨"TablePartition", .field p.table :: .field P :: xs⟩⟩ ∧
    b.space.descriptor rank = .ok (δ, cells) ∧ e.field? P = some g ∧ g.formula = some δ ∧
    List.Forall₂ b.space.BoundTo p.axes xs

/-- A block for a statistic of a selection, under the key of the part selected: it applies the
statistic to the block of parts of the table, which has the part under the same key. -/
def IsPartitionBlock (b : BuildState) (e : Entity) (r : Rule) (B : String) (key : Nat) : Prop :=
  ∃ operator part T xs, r.template.partitionStatistic = some operator ∧
    r.usedPart? = some part ∧ b.space.key part = .ok key ∧
    e.block? B = some ⟨B, ⟨operator, .field T :: xs⟩⟩ ∧
    List.Forall₂ b.StandsFor (r.operands.drop 1) xs ∧
    b.IsTableBlock e part.partition T ∧ (e.member? T key).isSome = true

/-- A block for a statistic of a member, under the key of the member: it applies the statistic to
what stands for the first operand and to the block of the member for the second. -/
def IsValueBlock (b : BuildState) (e : Entity) (r : Rule) (B : String) (key : Nat) : Prop :=
  ∃ operator part inner upstream u g U x y, r.template.valueStatistic = some operator ∧
    r.usedPart? = some part ∧ b.space.key part = .ok key ∧
    r.ruleOperand? 1 = some inner ∧ b.IsLedgerField inner u ∧
    b.schema.entity? inner.className = some upstream ∧ upstream.field? u = some g ∧
    g.block = some U ∧ g.key = some key ∧
    r.operands[0]? = some x ∧ b.StandsFor x y ∧
    e.block? B = some ⟨B, ⟨operator, [y, .field U]⟩⟩

/-! ## What the registry knows -/

variable {r : Rule} {n T : String} {e : Entity} {φ : Formula} {key : Nat}

namespace Sound

/-- A rule with a name has it alone. -/
theorem isLedgerField (h : Sound s ts b) (hn : b.HasName r n) : b.IsLedgerField r n := by
  obtain ⟨x, hx, halike⟩ := hn
  have heq : ∀ {y}, b.space.compareCostName y r = .eq ↔ y.Alike r := by
    intro y
    rw [h.cuts.compareCostName]
    exact h.alike_iff
  refine ⟨⟨x, hx, heq.mpr halike⟩, fun y m hy hyr => ?_⟩
  have hyx := h.alike_iff.mpr ((heq.mp hyr).trans halike.symm)
  cases h.sorted.unique h.lawful hy hx hyx
  rfl

theorem standsFor (h : Sound s ts b) : ∀ {x : RuleOperand Rule} {y : Operand}, b.Stands x y →
    b.StandsFor x y
  | .field .., _, hy => hy
  | .rule _, _, ⟨name, hname, hy⟩ => ⟨name, h.isLedgerField hname, hy⟩

/-- A member that is known by its key and a formula is a field with the key, of a block with the
formula. -/
theorem member_of_known (h : Sound s ts b) {C : String} (hn : b.KnowsMember C φ key n) :
    ∃ e f, b.schema.entity? C = some e ∧ e.field? n = some f ∧ f.key = some key ∧
      ∀ B, f.block = some B → e.block? B = some ⟨B, φ⟩ := by
  obtain ⟨e, c, he, hc, hn⟩ := hn
  have hI := h.linked.indexes C e c he hc
  obtain ⟨-, g, hg, B, rfl, hkey, hB, hdeclared⟩ := hI.member φ key n hn
  obtain ⟨f, hf, rfl⟩ := hI.field?_of_core hg
  refine ⟨e, f, he, hf, hkey, fun B' hB' => ?_⟩
  obtain rfl : B = B' := Option.some.inj (hB.symm.trans hB')
  exact hI.block?_of_mem hdeclared

/-- A member that is known by a formula is in the block that is known by it. -/
theorem member?_of_known (h : Sound s ts b) {C : String} (he : b.schema.entity? C = some e)
    (hT : b.KnowsBlock C φ T) (hn : b.KnowsMember C φ key n) : (e.member? T key).isSome = true := by
  obtain ⟨e₁, c, he₁, hc, hT⟩ := hT
  obtain ⟨e₂, c₂, -, hc₂, hn⟩ := hn
  obtain rfl : e = e₁ := Option.some.inj (he.symm.trans he₁)
  obtain rfl : c = c₂ := Option.some.inj (hc.symm.trans hc₂)
  have hI := h.linked.indexes C e c he hc
  obtain ⟨-, g, hg, -, hname, hkey, -, -⟩ := hI.member φ key n hn
  obtain ⟨g', hg', hname', hblock⟩ := (h.sharp C e c he hc).own φ key n hn
  obtain rfl : g = g' := List.inj_on_of_nodup_map hI.fields_nodup hg hg' (hname.trans hname'.symm)
  obtain ⟨f, hf, rfl⟩ := Entity.mem_cores.mp hg
  have hB : f.block = some T := hblock.trans hT
  have hk : f.key = some key := hkey
  exact List.find?_isSome.mpr ⟨f, hf, by simp [Field.isIn, hB, hk]⟩

/-- The block that is known by the formula of a block of parts is one. -/
theorem isTableBlock (h : Sound s ts b) {rank : Nat} {p : Partition}
    (hp : b.space.partitions[rank]? = some p) (he : b.schema.entity? p.parentClass = some e)
    (hφ : b.space.tableBlockFormula rank = .ok φ) (hT : b.KnowsBlock p.parentClass φ T) :
    b.IsTableBlock e rank T := by
  obtain ⟨P, xs, hP, hbound, rfl⟩ := Space.tableBlockFormula_eq_ok hp hφ
  obtain ⟨δ, hδ, e₁, c, he₁, hc, hknows⟩ := h.linked.described rank p P hp hP
  obtain ⟨e₂, c₂, -, hc₂, hT⟩ := hT
  obtain rfl : e = e₁ := Option.some.inj (he.symm.trans he₁)
  obtain rfl : c = c₂ := Option.some.inj (hc.symm.trans hc₂)
  have hI := h.linked.indexes _ e c he hc
  obtain ⟨g, hg, rfl, hformula⟩ := hI.derived δ P hknows
  obtain ⟨f, hf, rfl⟩ := hI.field?_of_core hg
  exact ⟨p, _, f, δ, p.cells, xs, hp, (Schema.name_of_entity? he).symm,
    hI.block?_of_mem (hI.block _ T hT), hδ, hf, hformula, hbound⟩

end Sound

namespace Placed

/-- A rule of the ledger is named by a field of its class, and if this is a member of a block, it is
the right member of the right block. -/
theorem coherent (h : Placed s ts b) (hentry : (r, some n) ∈ b.fieldOf.entries) :
    ∃ e f, b.schema.entity? r.className = some e ∧ e.field? n = some f ∧
      ∀ B, f.block = some B → ∃ key, f.key = some key ∧
        (r.classify = .partitionBlock ∧ b.IsPartitionBlock e r B key ∨
          r.classify = .valueBlock ∧ b.IsValueBlock e r B key) := by
  rcases h.said r n hentry with hplain | hmember
  · obtain ⟨e, c, he, hc, g, hg, rfl, hnone⟩ := hplain
    obtain ⟨f, hf, rfl⟩ := (h.sound.linked.indexes _ e c he hc).field?_of_core hg
    refine ⟨e, f, he, hf, fun B hB => ?_⟩
    cases hB.symm.trans hnone
  · rcases hmember with ⟨hsort, hstatistic, hused, hkeyed, hp, howner, hφ, hT, ht, hxs, hn⟩ |
      ⟨hsort, hstatistic, hinner, hused, hkeyed, hu, hupstream, hx, hy, hn⟩
    · obtain ⟨e, f, he, hf, hkey, hblock⟩ := h.sound.member_of_known hn
      refine ⟨e, f, he, hf, fun B hB => ⟨_, hkey, .inl ⟨hsort, _, _, _, _, hstatistic, hused,
        hkeyed.1, hblock B hB, hxs.imp fun _ _ => h.sound.standsFor, ?_, ?_⟩⟩⟩
      · exact h.sound.isTableBlock hp (howner ▸ he) hφ (howner ▸ hT)
      · exact h.sound.member?_of_known he hT ht
    · obtain ⟨e, f, he, hf, hkey, hblock⟩ := h.sound.member_of_known hn
      obtain ⟨upstream, c, he', hc, g, hg, rfl, hU, hgkey⟩ := hupstream
      obtain ⟨g', hg', rfl⟩ := (h.sound.linked.indexes _ upstream c he' hc).field?_of_core hg
      exact ⟨e, f, he, hf, fun B hB => ⟨_, hkey, .inr ⟨hsort, _, _, _, upstream, _, g', _, _, _,
        hstatistic, hused, hkeyed.1, hinner, h.sound.isLedgerField hu, he', hg', hU, hgkey, hx,
        h.sound.standsFor hy, hblock B hB⟩⟩⟩

end Placed

end BuildState

section Whole

open BuildState

variable {catalogue ts : Catalogue} {o : Options} {schema : Schema} {space : Space}
variable {rules : List Rule} {interrupt : Interrupt} {b : BuildState} {r : Rule} {n : String}

/-- The rules of a build are told apart if they are checked and their templates are those of a
catalogue. -/
theorem Rule.fit_of_check (hshaped : space.WellShaped) (hr : r.check space = .ok ())
    (hover : r.Over ts) : r.Fit space ts where
  told :=
    { shaped := by
        intro part hpart
        obtain ⟨entry, hentry⟩ := Option.isSome_iff_exists.mp (part?_of_check r hr part hpart)
        obtain ⟨p, hp, hentry⟩ := Option.bind_eq_some_iff.mp hentry
        exact ⟨p, hp, hshaped.kept p (List.mem_of_getElem? hp) _ (mem_of_lookup hentry)⟩
      named := hover }
  checked := hr

/-- Builds with blocks are sound, and coherent in their keys.  Over a well-founded space, on checked
rules whose templates are those of one catalogue, with those of the rules of dimensions, every rule
of the ledger that has a name has it from a field of its class; and if this is a member of a block,
the rule is a block rule, the block is the right one for it, and the key of the member is that of
the part the rule uses. -/
theorem runBuild_sparse_coherent (hmode : Mode.ofOptions o = .sparse)
    (hschema : schema.compile = .ok ()) (hsharp : schema.Sharp) (hspace : space.WellFounded)
    (hshaped : space.WellShaped) (hdims : space.Over ts)
    (hrules : ∀ r ∈ rules, r.check space = .ok () ∧ r.Over ts)
    (hbuild : runBuild catalogue o schema space rules interrupt = (.ok (), b))
    (hentry : (r, some n) ∈ b.fieldOf.entries) :
    ∃ e f, b.schema.entity? r.className = some e ∧ e.field? n = some f ∧
      ∀ B, f.block = some B → ∃ key, f.key = some key ∧
        (r.classify = .partitionBlock ∧ b.IsPartitionBlock e r B key ∨
          r.classify = .valueBlock ∧ b.IsValueBlock e r B key) := by
  have hfit : ∀ r ∈ rules, r.Fit space ts := fun r hr =>
    Rule.fit_of_check hshaped (hrules r hr).1 (hrules r hr).2
  exact (placed_runBuild hmode hschema hsharp hspace hshaped hdims hfit hbuild).coherent hentry

end Whole

/-! ## The block of the days of early orders -/

namespace EarlyOrders

def meanBlock : String := "Mean(Orders.date.YearDay) per date.YearDay(2)"

theorem sharp_schema : schema.Sharp := by
  constructor <;> simp [schema, Field.native, Field.derived]

theorem wellShaped_space : space.WellShaped where
  kept := by simp [space]
  named := by
    intro d hd r hr
    obtain rfl : d = space.dimensions[0] := List.mem_singleton.mp hd
    cases hr
    exact fun part hpart => absurd hpart List.not_mem_nil

theorem over_yearDay : yearDay.Over .default := ⟨by decide +kernel, trivial⟩

theorem over_mean : mean.Over .default :=
  ⟨by decide +kernel, ⟨by decide +kernel, trivial⟩, over_yearDay, trivial⟩

theorem over_space : space.Over .default := by
  intro d hd r hr
  obtain rfl : d = space.dimensions[0] := List.mem_singleton.mp hd
  cases hr
  exact over_yearDay

theorem checked_mean : yearDay.check space = .ok () ∧ mean.check space = .ok () :=
  ⟨eq_ok_of_isOk (by decide +kernel), eq_ok_of_isOk (by decide +kernel)⟩

end EarlyOrders

open EarlyOrders BuildState in
/-- The mean day of the early orders is the member, under the key of the first part, of a block over
the block of all parts. -/
theorem earlyMean_coherent :
    ∃ b r e f, sparseBuild = (.ok (), b) ∧ (r, some meanField) ∈ b.fieldOf.entries ∧
      b.schema.entity? "Customer" = some e ∧ e.field? meanField = some f ∧
      f.block = some meanBlock ∧ f.key = some 1 ∧ b.IsPartitionBlock e r meanBlock 1 := by
  have hok : sparseBuild.1.isOk = true := by decide +kernel
  have hentry : sparseBuild.2.fieldOf.entries.any (fun entry => entry.2 == some meanField &&
      entry.1.className == "Customer" && entry.1.classify == .partitionBlock) = true := by
    decide +kernel
  have hfield : (sparseBuild.2.schema.entity? "Customer").bind (fun e => (e.field? meanField).map
      fun f => (f.block, f.key)) = some (some meanBlock, some 1) := by decide +kernel
  have hbuild : sparseBuild = (.ok (), sparseBuild.2) := run_eq_of_isOk hok
  have hrules : ∀ r ∈ [yearDay, mean], r.check space = .ok () ∧ r.Over .default := by
    simp [checked_mean, over_yearDay, over_mean]
  obtain ⟨⟨r, name⟩, hmem, hr⟩ := List.any_eq_true.mp hentry
  simp only [Bool.and_eq_true, beq_iff_eq] at hr
  obtain ⟨⟨rfl, hclass⟩, hsort⟩ := hr
  obtain ⟨e, f, he, hf, hcoherent⟩ := runBuild_sparse_coherent rfl
    (eq_ok_of_isOk (by decide +kernel)) sharp_schema wellFounded_space wellShaped_space over_space
    hrules hbuild hmem
  rw [hclass] at he
  rw [he, Option.bind_some, hf, Option.map_some] at hfield
  obtain ⟨hblock, hkey⟩ := Prod.mk.inj (Option.some.inj hfield)
  obtain ⟨key, hkey', ⟨-, hpartition⟩ | ⟨hvalue, -⟩⟩ := hcoherent meanBlock hblock
  · obtain rfl : key = 1 := Option.some.inj (hkey'.symm.trans hkey)
    exact ⟨_, r, e, f, hbuild, hmem, he, hf, hblock, hkey, hpartition⟩
  · cases hsort.symm.trans hvalue

/-! ## Two statistics of one name -/

namespace EarlyOrders

/-- The mean, but with the maximum as its statistic of blocks. -/
def maximum : Rule :=
  { mean with
    template := { mean.template with partitionStatistic := some "TablePartitionMax" } }

/-- The mean over the maximum. -/
def ratio : Rule :=
  ⟨{ Template.plain "Ratio" .date [.continuous, .continuous] .continuous with
      valueStatistic := some "BlockRatio" }, "Customer", [.rule mean, .rule maximum], 4, 0⟩

def twinBuild : Except BuildError Unit × BuildState :=
  runBuild .default { Options.default with sparse := true } schema space [ratio] .never

end EarlyOrders

open EarlyOrders in
/-- Where two templates have one name, the ledger has the first of two rules under the field that
the second is the first to be realized by: the mean is named by a member of the block of maxima. -/
theorem twins_incoherent :
    schema.compile = .ok () ∧ schema.Sharp ∧ space.WellFounded ∧ space.WellShaped ∧
      ratio.check space = .ok () ∧ ∃ b r e f, twinBuild = (.ok (), b) ∧
        (r, some meanField) ∈ b.fieldOf.entries ∧ b.schema.entity? r.className = some e ∧
        e.field? meanField = some f ∧ f.block = some meanBlock ∧ r.classify = .partitionBlock ∧
        ∀ key, ¬ b.IsPartitionBlock e r meanBlock key := by
  have hcheck : (ratio.check space).isOk = true := by decide +kernel
  have hok : twinBuild.1.isOk = true := by decide +kernel
  have hentry : twinBuild.2.fieldOf.entries.any (fun entry => entry.2 == some meanField &&
      entry.1.className == "Customer" && entry.1.classify == .partitionBlock &&
        entry.1.template.partitionStatistic == some "TablePartitionMean") = true := by
    decide +kernel
  have hfield : (twinBuild.2.schema.entity? "Customer").bind (fun e =>
      (e.field? meanField).map (·.block)) = some (some meanBlock) := by decide +kernel
  have hblock : (twinBuild.2.schema.entity? "Customer").bind (fun e =>
      (e.block? meanBlock).map (·.formula.name)) = some "TablePartitionMax" := by decide +kernel
  obtain ⟨⟨r, name⟩, hmem, hr⟩ := List.any_eq_true.mp hentry
  simp only [Bool.and_eq_true, beq_iff_eq] at hr
  obtain ⟨⟨⟨rfl, hC⟩, hsort⟩, hstatistic⟩ := hr
  obtain ⟨e, he, hf⟩ := Option.bind_eq_some_iff.mp hfield
  obtain ⟨f, hf, hmember⟩ := Option.map_eq_some_iff.mp hf
  rw [he, Option.bind_some] at hblock
  refine ⟨eq_ok_of_isOk (by decide +kernel), sharp_schema, wellFounded_space, wellShaped_space,
    eq_ok_of_isOk hcheck, _, r, e, f, run_eq_of_isOk hok, hmem, hC ▸ he, hf, hmember, hsort, ?_⟩
  rintro key ⟨operator, part, T, xs, hoperator, -, -, hformula, -⟩
  obtain rfl : operator = "TablePartitionMean" := Option.some.inj (hoperator.symm.trans hstatistic)
  rw [hformula] at hblock
  simp at hblock

end FeatureSynth
