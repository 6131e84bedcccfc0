/-
# The order of fields where blocks are built

After a build with blocks from stored fields alone every class shows the fields it had, and
behind them the created ones by kind: plain fields, then statistics of blocks, then descriptors
and blocks of parts.  The members of every block are consecutive, and those of a block that was
moved are in increasing order of their keys.

Some statistics may not be moved.  The ledger of blocks has one entry for rules that the order of
blocks does not tell apart.  That order compares the rounded costs of the rules themselves, and no
costs of their operands.  But the formula of a block has the names of operands in it, and a name
goes with the costs of what it names.  So two rules of one cost may be given two blocks, the entry
names the one that got a member last, and the other one is left where it was made: in front of the
plain fields, its members in the order they came in.  Where rules of one signature have the same
costs this does not occur.
-/
import FeatureSynth.Proofs.Build.Behind
import FeatureSynth.Proofs.Build.FieldOrder
import FeatureSynth.Proofs.Build.Unfailing

namespace FeatureSynth

/-- The layers of a class after a build with blocks: in front the fields it had, as they were; then
the created ones by kind.  The members of a block are consecutive, and in increasing order of keys
if it is not one of those left in front. -/
structure BuildState.BlockLayers (b : BuildState) (A : Rule → Prop) (e e' : Entity)
    (lost plain statistics links : List Field) : Prop where
  order : e.ProlongedBy e' (lost ++ plain ++ statistics ++ links)
  created : ∀ n, n ∈ (lost ++ plain ++ statistics ++ links).map (·.name) ↔
    ⟨e.name, n⟩ ∈ b.createdFields
  kinds : b.KindLayers A e.name lost plain statistics links
  consecutive : ∀ B, e'.members B <:+: e'.fields
  increasing : ∀ B, (∀ f ∈ lost, f.block ≠ some B) → (e'.members B).Pairwise fun f g =>
    ∃ i j, f.key = some i ∧ g.key = some j ∧ i < j

namespace Entity

variable {e e' : Entity} {B : String}

theorem mem_members {f : Field} : f ∈ e.members B ↔ f ∈ e.fields ∧ f.block = some B := by
  simp [members, Field.isIn]

theorem map_core_members (e : Entity) (B : String) :
    (e.members B).map Field.core = e.cores.filter (·.isIn B) := by
  rw [members, cores, List.filter_map]
  rfl

theorem isSorted_of_member (h : ∀ f ∈ e.fields, f.block = some B → e.IsSorted B) :
    e.IsSorted B := by
  by_cases hB : e.members B = []
  · rw [IsSorted, hB]
    exact .nil
  · obtain ⟨f, hf⟩ := List.exists_mem_of_ne_nil _ hB
    exact h f (mem_members.mp hf).1 (mem_members.mp hf).2

/-- Marks and costs do not matter. -/
theorem IsSorted.of_cores (h : e.IsSorted B) (hcores : e'.cores = e.cores) : e'.IsSorted B := by
  have hmembers : (e'.members B).map Field.core = (e.members B).map Field.core := by
    rw [map_core_members, map_core_members, hcores]
  have hpairs : ((e'.members B).map Field.core).Pairwise (keyLE · ·) := by
    rw [hmembers]
    exact List.pairwise_map.mpr h
  exact List.pairwise_map.mp hpairs

/-- The members of blocks are consecutive, also of blocks that are not there. -/
theorem WellFormed.consecutive (h : e.WellFormed) (B : String) : e.members B <:+: e.fields := by
  by_cases hB : B ∈ e.blocks.map (·.name)
  · obtain ⟨block, hblock, rfl⟩ := List.mem_map.mp hB
    exact (h.blocks block hblock).consecutive
  · have hnone : e.members B = [] := List.eq_nil_iff_forall_not_mem.mpr fun f hf =>
      hB (h.declared f (mem_members.mp hf).1 B (mem_members.mp hf).2)
    rw [hnone]
    exact List.nil_infix

/-- Members in order are in strictly increasing order. -/
theorem WellFormed.increasing (h : e.WellFormed) (hsorted : e.IsSorted B) :
    (e.members B).Pairwise fun f g => ∃ i j, f.key = some i ∧ g.key = some j ∧ i < j := by
  have hkeyed : ∀ f ∈ e.members B, f.key.isSome = true := fun f hf =>
    h.keyed f (mem_members.mp hf).1 (by rw [(mem_members.mp hf).2]; rfl)
  refine increasing_of_sorted hsorted hkeyed ?_
  by_cases hB : B ∈ e.blocks.map (·.name)
  · obtain ⟨block, hblock, rfl⟩ := List.mem_map.mp hB
    exact (h.blocks block hblock).keys
  · have hnone : e.members B = [] := List.eq_nil_iff_forall_not_mem.mpr fun f hf =>
      hB (h.declared f (mem_members.mp hf).1 B (mem_members.mp hf).2)
    rw [hnone]
    exact List.nodup_nil

end Entity

/-- A class with the final costs has the same fields up to marks and costs. -/
theorem Options.exists_annotated (o : Options) {s : Schema} {C : String} {e : Entity}
    (he : s.entity? C = some e) :
    ∃ e', (o.annotate s).entity? C = some e' ∧ e'.cores = e.cores := by
  refine ⟨_, (o.entity?_annotate s C).trans (congrArg _ he), ?_⟩
  rw [Entity.cores, List.map_map]
  exact List.map_congr_left fun f _ => core_annotateField o _ f

namespace Build

open BuildState

variable {o : Options} {schema : Schema} {space : Space} {rules : List Rule}
variable {interrupt : Interrupt} {b : BuildState} {u : Unit}

theorem core_markNew {new laid : NewFields} {b' : BuildState}
    (h : (markNew new).Gives b laid b') : b'.schema.core = b.schema.core := by
  have hchained : Chained fun b b' : BuildState => b'.schema.core = b.schema.core :=
    ⟨fun _ => rfl, fun h h' => h'.trans h⟩
  refine closed_markNew hchained.respects (fun C n _ b u b' hmark => ?_) new h
  obtain ⟨e, he, -, rfl⟩ := gives_markCandidate hmark
  exact Schema.core_setEntity he (congrArg (Entity.mk e.name · e.blocks)
    (e.cores_modifyField n fun _ => rfl))

/-- How a build with blocks goes on from what it gathers, in `b₁`: its new fields are marked, the
fields are arranged, and the final costs given. -/
structure ArrangedFrom (o : Options) (b₁ b₂ b : BuildState) : Prop where
  core : b₂.schema.core = b₁.schema.core
  ledgers : SameLedgers b₁ b₂
  arranged : ∃ paths b₃ b₄, (∀ p ∈ paths, p ∈ b₂.createdFields) ∧
    (arrangeFields paths).Gives b₂ () b₃ ∧ arrangeBlocks.Gives b₃ () b₄ ∧
    b = { b₄ with schema := o.annotate b₄.schema }

namespace ArrangedFrom

variable {s : Space} {A : Rule → Prop} {start b₁ b₂ : BuildState} {C B : String} {e e' : Entity}

/-- Nothing but the schema is changed any more. -/
theorem eq_of_schema (h : ArrangedFrom o b₁ b₂ b) : ∃ t, b = { b₂ with schema := t } := by
  obtain ⟨paths, b₃, b₄, -, hfields, hblocks, rfl⟩ := h.arranged
  simp only [arrangeFields, gives_get_bind] at hfields
  obtain ⟨_, rfl, -⟩ := moveFields_spec hfields
  obtain ⟨_, rfl, -⟩ := arrangeBlocks_spec hblocks
  exact ⟨_, rfl⟩

theorem sameLedgers (h : ArrangedFrom o b₁ b₂ b) :
    b.space = b₁.space ∧ b.blockOf = b₁.blockOf := by
  obtain ⟨t, rfl⟩ := h.eq_of_schema
  exact ⟨h.ledgers.space, h.ledgers.blockOf⟩

theorem orderly (h : ArrangedFrom o b₁ b₂ b) (hb : Orderly s A b₂) : Orderly s A b := by
  obtain ⟨paths, b₃, b₄, -, hfields, hblocks, rfl⟩ := h.arranged
  have h₃ := hb.of_stays ((stays_arrangeFields _).respects hfields)
    (sameLedgers_arrangeFields _ hfields)
  have h₄ := h₃.of_stays (stays_arrangeBlocks.respects hblocks) (sameLedgers_arrangeBlocks hblocks)
  exact h₄.of_stays (grows_annotate o b₄) ⟨rfl, rfl, rfl⟩

/-- The layers that the moves make, with the final costs. -/
theorem movedLayers (h : ArrangedFrom o b₁ b₂ b) (hb : Orderly s A b₂) (hextends : Extends start b₂)
    (he : start.schema.entity? C = some e)
    (hstored : ∀ f ∈ e.fields, f.block = none ∧ f.formula = none) :
    ∃ (e' : Entity) (rest first second third : List Field), b.schema.entity? C = some e' ∧
      e.ProlongedBy e' (rest ++ first ++ second ++ third) ∧
      (∀ n, n ∈ (rest ++ first ++ second ++ third).map (·.name) ↔ ⟨C, n⟩ ∈ b.createdFields) ∧
      b.MovedLayers C rest first second third ∧
      ∀ B, (b.NamesBlock C B ∨ b.Tables C B) → e'.IsSorted B := by
  obtain ⟨t, ht⟩ := h.eq_of_schema
  obtain ⟨paths, b₃, b₄, hpaths, hfields, hblocks, hb₄⟩ := h.arranged
  obtain ⟨e₄, rest, first, second, third, he₄, hprolonged, hcreated, hmoved, hsorted⟩ :=
    moves_arrange hextends hb hpaths he hstored hfields hblocks
  obtain ⟨e', he', hcores⟩ := o.exists_annotated he₄
  have he' : b.schema.entity? C = some e' := by rw [hb₄]; exact he'
  subst ht
  exact ⟨e', rest, first, second, third, he', hprolonged.of_cores hcores, hcreated,
    ⟨hmoved.rest, hmoved.first, hmoved.second, hmoved.third⟩,
    fun B hB => (hsorted B hB).of_cores hcores⟩

/-- The members of a block that is neither named nor one of parts are left in the order they came
in. -/
theorem members_core (h : ArrangedFrom o b₁ b₂ b) (hb : Orderly s A b₂)
    (hextends : Extends start b₂) (hstart : ∃ e₀, start.schema.entity? C = some e₀)
    (he : b₁.schema.entity? C = some e) (hnames : ¬ b.NamesBlock C B) (htables : ¬ b.Tables C B) :
    ∃ e', b.schema.entity? C = some e' ∧
      (e'.members B).map Field.core = (e.members B).map Field.core := by
  obtain ⟨t, ht⟩ := h.eq_of_schema
  obtain ⟨paths, b₃, b₄, -, hfields, hblocks, hb₄⟩ := h.arranged
  obtain ⟨e₂, he₂, hcore₂⟩ := Schema.entity?_of_core h.core he
  obtain ⟨e₀, he₀⟩ := hstart
  obtain ⟨d, tail, hd, hprolonged, -⟩ := hextends C e₀ he₀
  obtain rfl : e₂ = d := Option.some.inj (he₂.symm.trans hd)
  have hnames₂ : ¬ b₂.NamesBlock C B := by rw [ht] at hnames; exact hnames
  have htables₂ : ¬ b₂.Tables C B := by rw [ht] at htables; exact htables
  obtain ⟨e₄, he₄, hmembers⟩ :=
    members_arrange hb he₂ hprolonged.nodup hnames₂ htables₂ hfields hblocks
  obtain ⟨e', he', hcores⟩ := o.exists_annotated he₄
  refine ⟨e', by rw [hb₄]; exact he', ?_⟩
  calc (e'.members B).map Field.core = (e₄.members B).map Field.core := by
        rw [Entity.map_core_members, hcores, ← Entity.map_core_members]
    _ = (e₂.members B).map Field.core := by rw [hmembers]
    _ = (e.members B).map Field.core := by
        rw [Entity.map_core_members, Entity.cores_eq hcore₂, ← Entity.map_core_members]

end ArrangedFrom

end Build

section Whole

open BuildState

variable {o : Options} {schema : Schema} {space : Space} {rules : List Rule}
variable {interrupt : Interrupt} {b : BuildState}

/-- A build with blocks from stored fields alone has its ledgers in order when fields are arranged,
and its created fields behind the others. -/
theorem arrangedFrom_runBuild (hmode : Mode.ofOptions o = .sparse)
    (hschema : schema.compile = .ok ()) (hstored : schema.Stored) (hspace : space.WellFounded)
    (hshaped : space.WellShaped) (hdims : space.Over .default)
    (hrules : ∀ r ∈ rules, r.check space = .ok () ∧ r.Over .default)
    (hbuild : runBuild .default o schema space rules interrupt = (.ok (), b)) :
    ∃ found b₁ b₂, (Build.gather o rules).Gives (start .default o schema space interrupt) found b₁ ∧
      Build.ArrangedFrom o b₁ b₂ b ∧ Orderly space (Rule.Within rules) b₂ ∧
      Extends (start .default o schema space interrupt) b₂ := by
  have hfit : ∀ r ∈ rules, r.Fit space .default := fun r hr =>
    Rule.fit_of_check hshaped (hrules r hr).1 (hrules r hr).2
  have hA : Rule.FitAll space (Rule.Within rules) :=
    ⟨Rule.hereditary_within rules, Rule.of_within (fun _ _ hr => hr.operand) hfit⟩
  obtain ⟨b₄, hlay, hb, -⟩ := runBuild_eq_ok hbuild
  obtain ⟨found, b₁, laid, b₂, hgather, hmark, harrange⟩ := Build.layOut_gather hlay
  obtain ⟨b₀, turns, b', i, hready, hturns, rfl, hbegun, -⟩ := Build.turns_of_gather hgather
  have h₀ : Orderly space (Rule.Within rules) b₀ :=
    Build.orderly_ready hmode hschema hstored hspace hshaped hdims hfit hready
  have h₁ : Orderly space (Rule.Within rules) b' := hturns.orderly hA hmode h₀ fun turn hturn =>
    ⟨turn.1, hbegun.subset (List.mem_map_of_mem hturn), .inl rfl⟩
  have hlooked : Orderly space (Rule.Within rules) { b' with interrupt := i } :=
    h₁.of_stays (.of_eq rfl rfl rfl) ⟨rfl, rfl, rfl⟩
  have hplain : ∀ C e, schema.entity? C = some e → ∀ f ∈ e.fields, f.block = none :=
    fun C e he f hf => hstored.block_eq_none hschema (Schema.mem_of_entity? he) hf
  have hextends : Extends (start .default o schema space interrupt) b' :=
    hturns.extends hplain (Build.prolongs_ready (.start hschema rfl) hready).extends
  have hstill : Extends (start .default o schema space interrupt) { b' with interrupt := i } :=
    hextends.of_eq rfl rfl
  obtain ⟨_, b₃, hfields, hblocks⟩ := Build.gives_bind.mp harrange
  rw [if_pos (by rw [hmode]; rfl)] at hblocks
  have hledgers := Build.sameLedgers_markNew found hmark
  exact ⟨found, _, b₂, hgather, ⟨Build.core_markNew hmark, hledgers, laid.paths, b₃, b₄,
      Build.created_of_laid hturns hmark, hfields, hblocks, hb⟩,
    hlooked.of_stays (Build.stays_markNew found hmark) hledgers,
    Build.extends_markNew hstill hmark⟩

/-- Where blocks are built from stored fields alone, over a well-founded space and on checked rules
of the default catalogue, the fields of every class end up in layers: the fields it had, created
plain fields, statistics of blocks, and last the descriptors and blocks of parts.  Members are
consecutive, and in strictly increasing order.  Only a block that the ledger does not name stays in
front of the created fields, unsorted; and there is none if rules of one signature have the same
costs. -/
theorem runBuild_blockOrder (hmode : Mode.ofOptions o = .sparse) (hschema : schema.compile = .ok ())
    (hstored : schema.Stored) (hspace : space.WellFounded) (hshaped : space.WellShaped)
    (hdims : space.Over .default)
    (hrules : ∀ r ∈ rules, r.check space = .ok () ∧ r.Over .default)
    (hbuild : runBuild .default o schema space rules interrupt = (.ok (), b)) :
    ∀ e ∈ schema.entities, ∃ e' lost plain statistics links, b.schema.entity? e.name = some e' ∧
      b.BlockLayers (Rule.Within rules) e e' lost plain statistics links ∧
      (Rule.SameCosts (Rule.Within rules) → lost = []) := by
  have hmade := made_runBuild hschema hstored hbuild
  obtain ⟨found, b₁, b₂, -, harranged, horderly, hextends⟩ :=
    arrangedFrom_runBuild hmode hschema hstored hspace hshaped hdims hrules hbuild
  intro e he
  have hstill : ∀ f ∈ e.fields, f.block = none ∧ f.formula = none := fun f hf =>
    ⟨hstored.block_eq_none hschema he hf, (hstored e he).2 f hf⟩
  obtain ⟨e', rest, first, second, third, he', hprolonged, hcreated, hmoved, hsorted⟩ :=
    harranged.movedLayers horderly hextends
      (find?_of_nodup Entity.name (Schema.nodup_of_compile hschema).1 he) hstill
  have hwf := ((Schema.compile_eq_ok_iff_wellFormed _).mp hmade.compile).entities e'
    (Schema.mem_of_entity? he')
  obtain ⟨hkinds, hnone⟩ := (harranged.orderly horderly).kindLayers hmade.accounted he' hmoved
    fun f hf => ⟨hprolonged.cores_eq ▸ List.mem_append_right _ hf,
      (hcreated _).mp (List.mem_map_of_mem hf)⟩
  refine ⟨e', rest, first, second, third, he', ⟨hprolonged, hcreated, hkinds, hwf.consecutive,
    fun B hB => hwf.increasing (Entity.isSorted_of_member fun f hf hblock => ?_)⟩, hnone⟩
  -- a member is no stored field
  have hmem : f.core ∈ rest ++ first ++ second ++ third := by
    refine (List.mem_append.mp (hprolonged.cores_eq ▸ Entity.core_mem_cores hf)).resolve_left ?_
    intro hold
    obtain ⟨g, hg, hcore⟩ := Entity.mem_cores.mp hold
    have hnone := (hstill g hg).1
    rw [← Field.core_block, hcore, Field.core_block, hblock] at hnone
    cases hnone
  exact hsorted B (hkinds.named_or_tables hmem hblock fun hlost => hB _ hlost hblock)

end Whole

/-! ## The mean of early orders -/

/-- Whether costs go with signatures can be seen from a list of rules. -/
theorem Rule.sameCosts_within {rules : List Rule}
    (h : ∀ x ∈ rules.flatMap fun r => r :: r.ingredients,
      ∀ y ∈ rules.flatMap fun r => r :: r.ingredients,
        x.signature = y.signature → x.costs = y.costs) : Rule.SameCosts (Rule.Within rules) := by
  have hmem : ∀ x, Rule.Within rules x → x ∈ rules.flatMap fun r => r :: r.ingredients := by
    rintro x ⟨r, hr, hx⟩
    exact List.mem_flatMap.mpr ⟨r, hr, List.mem_cons.mpr hx⟩
  exact fun x y hx hy => h x (hmem x hx) y (hmem y hy)

open EarlyOrders in
/-- The mean of the early orders is a statistic behind no plain field, and in front of the
descriptor and the block of the early orders. -/
theorem earlyMean_blockOrder :
    Mode.ofOptions sparse = .sparse ∧ stored.compile = .ok () ∧ stored.Stored ∧
      space.WellFounded ∧ space.WellShaped ∧ space.Over .default ∧
      (∀ r ∈ [yearDay, mean], r.check space = .ok () ∧ r.Over .default) ∧
      Rule.SameCosts (Rule.Within [yearDay, mean]) ∧ firstBuild.1 = .ok () ∧
      (firstBuild.2.schema.entity? "Customer").map (fun e => e.fields.map (·.name)) =
        some ["Orders", meanField, "Partition(Orders) per date.YearDay(2)", earlyField] ∧
      ∀ e ∈ stored.entities, ∃ e' lost plain statistics links,
        firstBuild.2.schema.entity? e.name = some e' ∧
        firstBuild.2.BlockLayers (Rule.Within [yearDay, mean]) e e' lost plain statistics links ∧
        (Rule.SameCosts (Rule.Within [yearDay, mean]) → lost = []) := by
  have hcompile : stored.compile = .ok () := eq_ok_of_isOk (by decide +kernel)
  have hbuild : firstBuild.1.isOk = true := by decide +kernel
  have hnames : (firstBuild.2.schema.entity? "Customer").map (fun e => e.fields.map (·.name)) =
      some ["Orders", meanField, "Partition(Orders) per date.YearDay(2)", earlyField] := by
    decide +kernel
  have hrules : ∀ r ∈ [yearDay, mean], r.check space = .ok () ∧ r.Over .default := by
    simp [checked_mean, over_yearDay, over_mean]
  have hcosts : Rule.SameCosts (Rule.Within [yearDay, mean]) :=
    Rule.sameCosts_within (by decide +kernel)
  exact ⟨rfl, hcompile, stored_stored, wellFounded_space, wellShaped_space, over_space, hrules,
    hcosts, eq_ok_of_isOk hbuild, hnames, runBuild_blockOrder rfl hcompile stored_stored
      wellFounded_space wellShaped_space over_space hrules (run_eq_of_isOk hbuild)⟩

/-! ## Two costs of one count -/

namespace ItemCounts

/-- Customers, their orders, and the items of these. -/
def schema : Schema :=
  ⟨[ ⟨"Customer", [.native "Orders" (.objectArray "Orders")], []⟩,
     ⟨"Orders", [.native "amount" .continuous, .native "Items" (.objectArray "Items")], []⟩,
     ⟨"Items", [.native "price" .continuous], []⟩ ]⟩

/-- Values up to 4, and above. -/
def halves : Levels := [⟨2, [.interval Scalar.missing 4 0, .interval 4 Scalar.maxValue 1]⟩]

/-- The orders cut along their amount, and the items along their price. -/
def space : Space :=
  { dimensions :=
      [ ⟨"Orders", .field "amount" .continuous, 0, some halves, none⟩,
        ⟨"Items", .field "price" .continuous, 0, some halves, none⟩ ]
    partitions :=
      [ ⟨"Orders", "Customer", "Orders", [⟨0, 2⟩], [([0], ⟨0, 0⟩), ([1], ⟨0, 0⟩)], 0, none, none,
          [.none]⟩,
        ⟨"Items", "Orders", "Items", [⟨1, 2⟩], [([0], ⟨0, 0⟩)], 0, none, none, [.none]⟩ ] }

/-- The number of cheap items of an order, at some cost. -/
def count (cost : Float) : Rule :=
  ⟨.tableCount, "Orders",
    [.rule ⟨.tableSelection, "Orders",
      [.field "Items" (.objectArray "Items"), .part ⟨1, [0]⟩], 0, 0⟩], cost, 0⟩

/-- The mean of these numbers over the orders of a part. -/
def mean (index : Nat) (cost : Float) : Rule :=
  ⟨.statistic "Mean" .continuous .continuous, "Customer",
    [ .rule ⟨.tableSelection, "Customer",
        [.field "Orders" (.objectArray "Orders"), .part ⟨0, [index]⟩], 0, 0⟩,
      .rule (count cost) ], 5, 0⟩

/-- The count, the means of it, and a mean of the same count at another cost. -/
def rules : List Rule := [count 1, mean 1 1, mean 0 1, mean 0 2]

def build : Except BuildError Unit × BuildState :=
  runBuild .default EarlyOrders.sparse schema space rules .never

/-- The state that the build is in once the candidates had their turns. -/
def gathered : BuildState := (Build.gathered .default EarlyOrders.sparse schema space rules).2

/-- The block of the first two means. -/
def meanBlock : String := "Mean(Orders.Count(Items) where price <= 4) per amount(2)"

theorem stored_schema : schema.Stored := by
  simp [Schema.Stored, schema, Field.native]

theorem wellFounded_space : space.WellFounded where
  dimensions_nodup := by simp [space, Dimension.identity]
  partitions_nodup := by simp [space, Partition.identity]
  axis_dimension := by simp [space]
  earlier := by
    intro k d r hd hr
    have hfields : ∀ d ∈ space.dimensions, ∀ r, d.origin ≠ .rule r := by simp [space]
    exact absurd hr (hfields d (List.mem_of_getElem? hd) r)

theorem wellShaped_space : space.WellShaped where
  kept := by decide
  named := by simp [space]

theorem over_space : space.Over .default := by
  simp [Space.Over, space]

theorem over_count (cost : Float) : (count cost).Over .default :=
  ⟨by decide +kernel, ⟨by decide +kernel, trivial⟩, trivial⟩

theorem fieldsIn_count (cost : Float) : (count cost).FieldsIn schema :=
  ⟨⟨⟨"Orders", rfl, rfl⟩, trivial⟩, trivial⟩

theorem over_mean (index : Nat) (cost : Float) : (mean index cost).Over .default :=
  ⟨by decide +kernel, ⟨by decide +kernel, trivial⟩, over_count cost, trivial⟩

theorem fieldsIn_mean (index : Nat) (cost : Float) : (mean index cost).FieldsIn schema :=
  ⟨⟨⟨"Customer", rfl, rfl⟩, trivial⟩, fieldsIn_count cost, trivial⟩

theorem grounded_rules : ∀ r ∈ rules, r.Grounded space schema := by
  have hchecked : (rules.all fun r => (r.check space).isOk) = true := by decide +kernel
  intro r hr
  have hcheck := eq_ok_of_isOk (List.all_eq_true.mp hchecked r hr)
  simp only [rules, List.mem_cons, List.not_mem_nil, or_false] at hr
  rcases hr with rfl | rfl | rfl | rfl
  · exact ⟨over_count 1, hcheck, fieldsIn_count 1⟩
  · exact ⟨over_mean 1 1, hcheck, fieldsIn_mean 1 1⟩
  · exact ⟨over_mean 0 1, hcheck, fieldsIn_mean 0 1⟩
  · exact ⟨over_mean 0 2, hcheck, fieldsIn_mean 0 2⟩

theorem compile_schema : schema.compile = .ok () := eq_ok_of_isOk (by decide +kernel)

/-- The build succeeds, for its rules fit the schema and the space. -/
theorem build_eq : build = (.ok (), build.2) := by
  have hresolves : (rules.all space.resolves) = true := by decide +kernel
  have hfeasible : ∀ r ∈ rules, r.Feasible space schema := by
    intro r hr
    obtain ⟨hover, hcheck, hfields⟩ := grounded_rules r hr
    exact ⟨⟨hover, hcheck, hfields⟩, Space.located_of_resolves wellFounded_space wellShaped_space
      (by simp [space]) (Rule.fit_of_check wellShaped_space hcheck hover).told.shaped
      (List.all_eq_true.mp hresolves r hr)⟩
  have hbuild : (Build.complete EarlyOrders.sparse rules).Ensures
      (.start .default EarlyOrders.sparse schema space .never)
      fun _ b => b.schema.compile = .ok () :=
    ensures_runBuild compile_schema wellFounded_space (by simp [Space.Grounded, space]) (by decide)
      (fun _ => stored_schema.sharp.apart) hfeasible
  rcases hbuild with ⟨hasked, -⟩ | ⟨u, b, hrun, -⟩
  · exact absurd rfl hasked
  · have hbuild : build = (.ok u, b) := hrun
    rw [hbuild]

end ItemCounts

open ItemCounts in
/-- Two means of one count and a third one over the same orders, of the count at another cost, make
two blocks.  The ledger names the second one.  The members of the first stay as they came, with
their keys in decreasing order. -/
theorem meanBlock_unsorted :
    Mode.ofOptions EarlyOrders.sparse = .sparse ∧ schema.compile = .ok () ∧ schema.Stored ∧
      space.WellFounded ∧ space.WellShaped ∧ space.Over .default ∧
      (∀ r ∈ rules, r.check space = .ok () ∧ r.Over .default) ∧ build.1 = .ok () ∧
      ∃ e, build.2.schema.entity? "Customer" = some e ∧
        (e.members meanBlock).map (·.key) = [some 2, some 1] := by
  have hrules : ∀ r ∈ rules, r.check space = .ok () ∧ r.Over .default := fun r hr =>
    ⟨(grounded_rules r hr).checked, (grounded_rules r hr).named⟩
  have hkeys : (gathered.schema.entity? "Customer").map
      (fun e => (e.members meanBlock).map (·.key)) = some [some 2, some 1] := by decide +kernel
  have hnames : (gathered.blockOf.entries.all fun entry => entry.2 != some meanBlock) = true := by
    decide +kernel
  have htables : (gathered.space.partitions.all fun p =>
      p.tableBlock != some meanBlock) = true := by decide +kernel
  refine ⟨rfl, compile_schema, stored_schema, wellFounded_space, wellShaped_space, over_space,
    hrules, congrArg Prod.fst build_eq, ?_⟩
  obtain ⟨found, b₁, b₂, hgather, harranged, horderly, hextends⟩ := arrangedFrom_runBuild rfl
    compile_schema stored_schema wellFounded_space wellShaped_space over_space hrules build_eq
  have hgathered : gathered = b₁ := by
    have hrun : (Build.gather EarlyOrders.sparse rules).run
      (.start .default EarlyOrders.sparse schema space .never) = (.ok found, b₁) := hgather
    rw [gathered, Build.gathered, hrun]
  obtain ⟨hspace, hblockOf⟩ := harranged.sameLedgers
  rw [hgathered] at hkeys hnames htables
  have hunnamed : ¬ build.2.NamesBlock "Customer" meanBlock := by
    rintro ⟨r, hr, -⟩
    rw [hblockOf] at hr
    simpa using List.all_eq_true.mp hnames _ hr
  have huntabled : ¬ build.2.Tables "Customer" meanBlock := by
    rintro ⟨p, hp, -, hT⟩
    rw [hspace] at hp
    simpa [hT] using List.all_eq_true.mp htables p hp
  obtain ⟨e, he, hkeys⟩ := Option.map_eq_some_iff.mp hkeys
  obtain ⟨e', he', hmembers⟩ :=
    harranged.members_core horderly hextends ⟨_, rfl⟩ he hunnamed huntabled
  have hcores := congrArg (List.map Field.key) hmembers
  rw [List.map_map, List.map_map] at hcores
  exact ⟨e', he', hcores.trans hkeys⟩

end FeatureSynth
