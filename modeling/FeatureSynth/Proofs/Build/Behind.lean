/-
# What a build with blocks leaves behind the others

A created field is of one of three kinds.  It is plain, if it is in no block and describes no
partition; it is a statistic, if it is in a block of members for rules; and it is a link, if it
describes a partition or is in the block of parts of its table.  The final moves go by the ledgers
and by the partitions in use, but what they move can be told by kind: plain fields are moved first,
then the statistics of the blocks that the ledger names, then links.  Statistics of other blocks
are not moved at all.
-/
import FeatureSynth.Proofs.Build.Extended
import FeatureSynth.Proofs.Build.Found
import FeatureSynth.Proofs.Build.Orderly

namespace FeatureSynth

namespace BuildState

variable {b b' : BuildState} {s : Space} {A : Rule → Prop} {C B T n : String} {e : Entity}
variable {f : Field} {p q : Partition}

/-! ## Kinds of created fields -/

/-- A field in no block that describes no partition. -/
def IsPlainField (b : BuildState) (C : String) (f : Field) : Prop :=
  f.block = none ∧ ¬ b.Describes C f.name

/-- A member of a block for rules in `A`, which is no block of parts. -/
def IsStatistic (b : BuildState) (A : Rule → Prop) (C : String) (f : Field) : Prop :=
  ∃ B, f.block = some B ∧ b.ServesRule A C B ∧ ¬ b.Tables C B

/-- The descriptor of a partition, or a member of the block of its parts. -/
def IsLink (b : BuildState) (C : String) (f : Field) : Prop :=
  f.block = none ∧ b.Describes C f.name ∨ ∃ B, f.block = some B ∧ b.Tables C B

/-- Layers of created fields by kind.  The statistics in front are of blocks that the ledger does
not name. -/
structure KindLayers (b : BuildState) (A : Rule → Prop) (C : String)
    (lost plain statistics links : List Field) : Prop where
  lost : ∀ f ∈ lost, b.IsStatistic A C f ∧ ∀ B, f.block = some B → ¬ b.NamesBlock C B
  plain : ∀ f ∈ plain, b.IsPlainField C f
  statistics : ∀ f ∈ statistics, b.IsStatistic A C f ∧ ∀ B, f.block = some B → b.NamesBlock C B
  links : ∀ f ∈ links, b.IsLink C f

/-- The block of a field is named or one of parts, if the field is not left in front. -/
theorem KindLayers.named_or_tables {lost plain statistics links : List Field}
    (h : b.KindLayers A C lost plain statistics links)
    (hf : f ∈ lost ++ plain ++ statistics ++ links) (hB : f.block = some B) (hlost : f ∉ lost) :
    b.NamesBlock C B ∨ b.Tables C B := by
  simp only [List.mem_append, or_assoc] at hf
  rcases hf with hf | hf | hf | hf
  · exact absurd hf hlost
  · cases hB.symm.trans (h.plain f hf).1
  · exact .inl ((h.statistics f hf).2 B hB)
  · rcases h.links f hf with ⟨hnone, -⟩ | ⟨B', hB', htables⟩
    · cases hB.symm.trans hnone
    · exact .inr (Option.some.inj (hB.symm.trans hB') ▸ htables)

/-- Layers of created fields by the row of moves that moved them last. -/
structure MovedLayers (b : BuildState) (C : String) (rest first second third : List Field) :
    Prop where
  rest : ∀ f ∈ rest, (f.block = none → ¬ b.NamesField C f.name) ∧ ¬ b.inNamedBlock C f = true ∧
    ¬ b.inUsedPartition C f = true
  first : ∀ f ∈ first, f.block = none ∧ ¬ b.inUsedPartition C f = true
  second : ∀ f ∈ second, b.inNamedBlock C f = true ∧ ¬ b.inUsedPartition C f = true
  third : ∀ f ∈ third, b.inUsedPartition C f = true

/-! ## Partitions in use -/

/-- Partitions with one block of parts have one descriptor. -/
theorem Linked.descriptor_of_table (h : Linked b) (hp : p ∈ b.space.partitions)
    (hq : q ∈ b.space.partitions) (hclass : q.parentClass = p.parentClass)
    (hT : p.tableBlock = some T) (hT' : q.tableBlock = some T) :
    q.descriptorField = p.descriptorField := by
  obtain ⟨i, hi⟩ := List.mem_iff_getElem?.mp hp
  obtain ⟨j, hj⟩ := List.mem_iff_getElem?.mp hq
  obtain ⟨φ, hφ, e, c, he, hc, hknown⟩ := h.tabled i p T hi hT
  obtain ⟨ψ, hψ, e', c', he', hc', hknown'⟩ := h.tabled j q T hj hT'
  rw [hclass] at he' hc'
  obtain rfl : e = e' := Option.some.inj (he.symm.trans he')
  obtain rfl : c = c' := Option.some.inj (hc.symm.trans hc')
  have hindexes := h.indexes _ e c he hc
  -- a block is declared with one formula
  have heq : (⟨T, φ⟩ : Block) = ⟨T, ψ⟩ := List.inj_on_of_nodup_map hindexes.blocks_nodup
    (hindexes.block φ T hknown) (hindexes.block ψ T hknown') rfl
  obtain rfl : φ = ψ := (Block.mk.inj heq).2
  obtain ⟨P, xs, hP, -, rfl⟩ := Space.tableBlockFormula_eq_ok hi hφ
  obtain ⟨Q, ys, hQ, -, hφ'⟩ := Space.tableBlockFormula_eq_ok hj hψ
  injection hφ' with _ hoperands
  injection hoperands with _ hoperands
  injection hoperands with hname
  injection hname with hname
  rw [hP, hQ, hname]

/-- A descriptor is in no block. -/
theorem Sound.block_of_describes {ts : Catalogue} (h : Sound s ts b) (hn : b.Describes C n)
    (he : b.schema.entity? C = some e) (hf : f ∈ e.fields) (hname : f.name = n) :
    f.block = none := by
  obtain ⟨p, hp, rfl, hP⟩ := hn
  obtain ⟨φ, hφ⟩ := h.linked.formula_of_descriptor hp hP he hf hname
  obtain ⟨k, hk⟩ := List.mem_iff_getElem?.mp hp
  obtain ⟨-, -, e', c, he', hc, -⟩ := h.linked.described k p n hk hP
  obtain rfl : e = e' := Option.some.inj (he.symm.trans he')
  have hapart := (h.sharp _ e c he hc).apart f.core (Entity.core_mem_cores hf)
  exact hapart (by rw [Field.core_formula, hφ]; rfl)

/-- What is moved with the partitions in use is what any partition is linked to. -/
theorem Orderly.inUsedPartition_iff (h : Orderly s A b) : b.inUsedPartition C f = true ↔
    b.Describes C f.name ∨ ∃ B, f.block = some B ∧ b.Tables C B := by
  rw [BuildState.inUsedPartition_iff]
  constructor
  · rintro ⟨p, ⟨-, -, rank, -, -, hrank⟩, hclass, hlinks⟩
    have hp := List.mem_of_getElem? hrank
    rw [Partition.linksTo, Bool.or_eq_true, beq_iff_eq, Option.any_eq_true] at hlinks
    rcases hlinks with hdescriptor | ⟨T, hT, hin⟩
    · exact .inl ⟨p, hp, hclass, hdescriptor⟩
    · exact .inr ⟨T, by simpa [Field.isIn] using hin, p, hp, hclass, hT⟩
  · have hused : ∀ p ∈ b.space.partitions, ∀ T, p.tableBlock = some T → ∃ q, b.UsesPartition q ∧
        q.parentClass = p.parentClass ∧ q.tableBlock = some T ∧
          q.descriptorField = p.descriptorField := by
      intro p hp T hT
      obtain ⟨q, hq, hclass, hT'⟩ := h.used.tabled p hp T hT
      obtain ⟨-, -, rank, -, -, hrank⟩ := id hq
      exact ⟨q, hq, hclass, hT', h.placed.sound.linked.descriptor_of_table hp
        (List.mem_of_getElem? hrank) hclass hT hT'⟩
    rintro (⟨p, hp, rfl, hP⟩ | ⟨B, hB, p, hp, rfl, hT⟩)
    · obtain ⟨T, hT⟩ := Option.isSome_iff_exists.mp (h.used.described p hp (by rw [hP]; rfl))
      obtain ⟨q, hq, hclass, -, hQ⟩ := hused p hp T hT
      exact ⟨q, hq, hclass, by simp [Partition.linksTo, hQ, hP]⟩
    · obtain ⟨q, hq, hclass, hT', -⟩ := hused p hp B hT
      exact ⟨q, hq, hclass, by simp [Partition.linksTo, hT', Field.isIn, hB]⟩

theorem not_inNamedBlock (hf : f.block = none) : ¬ b.inNamedBlock C f = true := by
  rw [inNamedBlock_iff]
  rintro ⟨B, hB, -⟩
  cases hB.symm.trans hf

/-- A stored field is linked to no partition. -/
theorem Orderly.not_inUsedPartition (h : Orderly s A b) (he : b.schema.entity? C = some e)
    (hf : f ∈ e.cores) (hblock : f.block = none) (hφ : f.formula = none) :
    ¬ b.inUsedPartition C f = true := by
  rw [h.inUsedPartition_iff]
  rintro (⟨p, hp, rfl, hP⟩ | ⟨B, hB, -⟩)
  · obtain ⟨g, hg, rfl⟩ := Entity.mem_cores.mp hf
    obtain ⟨φ, hφ'⟩ := h.placed.sound.linked.formula_of_descriptor hp hP he hg rfl
    cases hφ'.symm.trans hφ
  · cases hB.symm.trans hblock

/-! ## Created fields -/

/-- Created fields in no block are named or describe a partition; all others are in blocks of parts,
or of members for rules, and these are named if rules in `A` have the same costs where they have one
signature. -/
theorem Orderly.of_created (h : Orderly s A b) (haccounted : b.Accounted)
    (he : b.schema.entity? C = some e) (hf : f ∈ e.cores)
    (hcreated : ⟨C, f.name⟩ ∈ b.createdFields) :
    f.block = none ∧ (b.NamesField C f.name ∨ b.Describes C f.name) ∨
      ∃ B, f.block = some B ∧ (b.Tables C B ∨ b.ServesRule A C B) ∧
        (Rule.SameCosts A → b.Tables C B ∨ b.NamesBlock C B) := by
  obtain ⟨g, hg, rfl⟩ := Entity.mem_cores.mp hf
  obtain ⟨e', c, he', hc, -⟩ := haccounted.createdField C g.name hcreated
  obtain rfl : e = e' := Option.some.inj (he.symm.trans he')
  have hindexes := haccounted.indexes C e c he hc
  have hnodup := hindexes.fields_nodup
  rw [Entity.map_name_cores] at hnodup
  have hfind : e.field? g.name = some g := find?_of_nodup Field.name hnodup hg
  obtain ⟨c', hc', -, hindexed⟩ := haccounted.inStep.indexed_of_created hcreated he hfind
  obtain rfl : c = c' := Option.some.inj (hc.symm.trans hc')
  cases hindexed with
  | derived φ _ block entry =>
    have hknows : b.Knows C φ g.name := ⟨e, c, he, hc, lookup_of_mem hindexes.keys_nodup entry⟩
    exact .inl ⟨block, h.filed.field C φ g.name hknows⟩
  | member φ key B _ block _ _ entry =>
    have hmember : b.KnowsMember C φ key g.name :=
      ⟨e, c, he, hc, lookup_of_mem hindexes.keys_nodup entry⟩
    have hblock : b.KnowsBlock C φ B :=
      h.placed.sound.knowsBlock_of_member hmember ⟨e, c, he, hc, g.core, hf, rfl, block⟩
    exact .inr ⟨B, block, h.filed.block C φ B hblock, fun hsame => h.filed.kept hsame C φ B hblock⟩

/-- What the rows moved can be told by kind; and where costs go with signatures, no statistic stays
in front. -/
theorem Orderly.kindLayers (h : Orderly s A b) (haccounted : b.Accounted)
    (he : b.schema.entity? C = some e) {rest first second third : List Field}
    (hmoved : b.MovedLayers C rest first second third)
    (hcreated : ∀ f ∈ rest ++ first ++ second ++ third,
      f ∈ e.cores ∧ ⟨C, f.name⟩ ∈ b.createdFields) :
    b.KindLayers A C rest first second third ∧ (Rule.SameCosts A → rest = []) := by
  have hsorts := fun f (hf : f ∈ rest ++ first ++ second ++ third) =>
    h.of_created haccounted he (hcreated f hf).1 (hcreated f hf).2
  have hrest : ∀ f ∈ rest, ∃ B, f.block = some B ∧ ¬ b.Tables C B ∧ ¬ b.NamesBlock C B ∧
      b.ServesRule A C B ∧ ¬ Rule.SameCosts A := by
    intro f hf
    obtain ⟨hplain, hblock, hlink⟩ := hmoved.rest f hf
    rw [h.inUsedPartition_iff, not_or] at hlink
    rcases hsorts f (by simp [hf]) with ⟨hnone, hnamed⟩ | ⟨B, hB, hserves, hkept⟩
    · exact absurd hnamed (not_or.mpr ⟨hplain hnone, hlink.1⟩)
    · have htables : ¬ b.Tables C B := fun ht => hlink.2 ⟨B, hB, ht⟩
      have hnames : ¬ b.NamesBlock C B := fun hn => hblock (inNamedBlock_iff.mpr ⟨B, hB, hn⟩)
      exact ⟨B, hB, htables, hnames, hserves.resolve_left htables,
        fun hsame => (hkept hsame).elim htables hnames⟩
  refine ⟨⟨fun f hf => ?_, fun f hf => ?_, fun f hf => ?_, fun f hf => ?_⟩, fun hsame => ?_⟩
  · obtain ⟨B, hB, htables, hnames, hserves, -⟩ := hrest f hf
    exact ⟨⟨B, hB, hserves, htables⟩, fun B' hB' => Option.some.inj (hB.symm.trans hB') ▸ hnames⟩
  · obtain ⟨hnone, hlink⟩ := hmoved.first f hf
    rw [h.inUsedPartition_iff, not_or] at hlink
    exact ⟨hnone, hlink.1⟩
  · obtain ⟨hblock, hlink⟩ := hmoved.second f hf
    obtain ⟨B, hB, hnames⟩ := inNamedBlock_iff.mp hblock
    rw [h.inUsedPartition_iff, not_or] at hlink
    have htables : ¬ b.Tables C B := fun ht => hlink.2 ⟨B, hB, ht⟩
    refine ⟨⟨B, hB, ?_, htables⟩, fun B' hB' => Option.some.inj (hB.symm.trans hB') ▸ hnames⟩
    rcases hsorts f (by simp [hf]) with ⟨hnone, -⟩ | ⟨B', hB', hserves, -⟩
    · cases hB.symm.trans hnone
    · obtain rfl : B = B' := Option.some.inj (hB.symm.trans hB')
      exact hserves.resolve_left htables
  · rcases h.inUsedPartition_iff.mp (hmoved.third f hf) with hdescribes | htables
    · obtain ⟨g, hg, rfl⟩ := Entity.mem_cores.mp (hcreated f (by simp [hf])).1
      have hnone : g.block = none := h.placed.sound.block_of_describes hdescribes he hg rfl
      exact .inl ⟨hnone, hdescribes⟩
    · exact .inr htables
  · refine List.eq_nil_iff_forall_not_mem.mpr fun f hf => ?_
    obtain ⟨B, -, -, -, -, hcosts⟩ := hrest f hf
    exact hcosts hsame

end BuildState

/-! ## Moves -/

namespace Build

open BuildState

variable {b₀ b b' b'' : BuildState} {s : Space} {A : Rule → Prop} {C : String} {e : Entity}
variable {f : Field} {paths : List FieldPath} {u v : Unit}

theorem mem_movedNames (hnodup : (e.fields.map (·.name)).Nodup) (hf : f ∈ e.cores) :
    f.name ∈ movedNames e C [] paths ↔ ⟨C, f.name⟩ ∈ paths ∧ f.block = none := by
  obtain ⟨g, hg, rfl⟩ := Entity.mem_cores.mp hf
  have hfind : e.field? g.name = some g := find?_of_nodup Field.name hnodup hg
  rw [movedNames, List.mem_eraseDups, List.mem_filter, mem_namesIn, Entity.hasPlain,
    Field.core_name, hfind]
  simp

theorem nodup_movedNames (e : Entity) (C : String) (moved paths : List FieldPath) :
    (movedNames e C moved paths).Nodup :=
  nodup_eraseDups _

/-- Fields that were there before are not moved. -/
theorem unmoved_of_stored {e₀ : Entity} {tail : List Field} (h : Orderly s A b)
    (he₀ : b.schema.entity? C = some e₀) (hprolonged : e.ProlongedBy e₀ tail)
    (hcreated : ∀ n, n ∈ tail.map (·.name) ↔ ⟨C, n⟩ ∈ b.createdFields)
    (hpaths : ∀ p ∈ paths, p ∈ b.createdFields)
    (hstored : ∀ f ∈ e.fields, f.block = none ∧ f.formula = none) (hf : f ∈ e.cores) :
    f.name ∉ movedNames e₀ C [] paths ∧ ¬ b.inNamedBlock C f = true ∧
      ¬ b.inUsedPartition C f = true := by
  obtain ⟨g, hg, rfl⟩ := Entity.mem_cores.mp hf
  obtain ⟨hblock, hφ⟩ := hstored g hg
  have hf₀ : g.core ∈ e₀.cores := hprolonged.cores_eq ▸ List.mem_append_left _ hf
  refine ⟨fun hn => ?_, not_inNamedBlock hblock, h.not_inUsedPartition he₀ hf₀ hblock hφ⟩
  have htail := (hcreated _).mpr (hpaths _ ((mem_movedNames hprolonged.nodup hf₀).mp hn).1)
  exact hprolonged.not_mem_tail (List.mem_map_of_mem hg) htail

/-- The three rows of moves in a class, and which blocks are sorted in the end. -/
theorem rows_arrange (h : Orderly s A b) (he : b.schema.entity? C = some e)
    (hnodup : (e.fields.map (·.name)).Nodup) (hfields : (arrangeFields paths).Gives b u b')
    (hblocks : arrangeBlocks.Gives b' v b'') :
    ∃ c d e' : Entity, b''.schema.entity? C = some e' ∧
      MovedBack (fun f => decide (f.name ∈ movedNames e C [] (paths ++ ledgerFields b)))
        e.fields c.fields ∧
      MovedBack (b.inNamedBlock C) c.fields d.fields ∧
      MovedBack (b.inUsedPartition C) d.fields e'.fields ∧
      ∀ B, (b.NamesBlock C B ∨ b.Tables C B) → e'.IsSorted B := by
  have h' : Orderly s A b' := h.of_stays ((stays_arrangeFields _).respects hfields)
    (sameLedgers_arrangeFields _ hfields)
  simp only [arrangeFields, gives_get_bind] at hfields
  obtain ⟨s', rfl, hs'⟩ := moveFields_spec hfields
  have hc := hs' C e he hnodup
  have hperm := e.moveAll_perm (movedNames e C [] (paths ++ ledgerFields b))
  obtain ⟨d, e', he', hmoved, hmoved', hsorted⟩ := arrangeBlocks_moves hblocks hc
    (((hperm.map _).nodup_iff).mpr hnodup) fun p hp hC n hn f hf hname =>
      h'.placed.sound.block_of_describes ⟨p, hp, hC, hn⟩ hc hf hname
  refine ⟨_, d, e', he', Entity.movedBack_moveAll hnodup (nodup_movedNames e C _ _), hmoved,
    hmoved', fun B hB => hsorted B (hB.imp_right ?_)⟩
  rintro ⟨p, hp, rfl, hT⟩
  exact h.used.tabled p hp B hT

/-- What is behind the fields that were there, once all rows of moves are done. -/
theorem moves_arrange (hextends : Extends b₀ b) (h : Orderly s A b)
    (hpaths : ∀ p ∈ paths, p ∈ b.createdFields) (he : b₀.schema.entity? C = some e)
    (hstored : ∀ f ∈ e.fields, f.block = none ∧ f.formula = none)
    (hfields : (arrangeFields paths).Gives b u b') (hblocks : arrangeBlocks.Gives b' v b'') :
    ∃ (e' : Entity) (rest first second third : List Field), b''.schema.entity? C = some e' ∧
      e.ProlongedBy e' (rest ++ first ++ second ++ third) ∧
      (∀ n, n ∈ (rest ++ first ++ second ++ third).map (·.name) ↔ ⟨C, n⟩ ∈ b.createdFields) ∧
      b.MovedLayers C rest first second third ∧
      ∀ B, (b.NamesBlock C B ∨ b.Tables C B) → e'.IsSorted B := by
  obtain ⟨e₀, tail, he₀, hprolonged, hcreated⟩ := hextends C e he
  have hnodup := hprolonged.nodup
  obtain ⟨c, d, e', he', hmoved₁, hmoved₂, hmoved₃, hsorted⟩ :=
    rows_arrange h he₀ hnodup hfields hblocks
  have hmovable : ∀ p ∈ paths ++ ledgerFields b, p ∈ b.createdFields := fun p hp =>
    (List.mem_append.mp hp).elim (hpaths p) mem_ledgerFields
  have hmem : ∀ f ∈ e₀.cores, f.name ∈ movedNames e₀ C [] (paths ++ ledgerFields b) ↔
      ⟨C, f.name⟩ ∈ paths ++ ledgerFields b ∧ f.block = none :=
    fun f hf => mem_movedNames hnodup hf
  have hunmoved : ∀ f ∈ e.cores, _ := fun f hf =>
    unmoved_of_stored h he₀ hprolonged hcreated hmovable hstored hf
  generalize movedNames e₀ C [] (paths ++ ledgerFields b) = names at hmoved₁ hmem hunmoved
  have hfront : ∀ f ∈ e.cores, decide (f.name ∈ names) = false ∧ b.inNamedBlock C f = false ∧
      b.inUsedPartition C f = false := by
    intro f hf
    obtain ⟨hn, hblock, hlink⟩ := hunmoved f hf
    exact ⟨decide_eq_false hn, Bool.eq_false_iff.mpr hblock, Bool.eq_false_iff.mpr hlink⟩
  have hnodup' : (e'.fields.map (·.name)).Nodup :=
    ((((hmoved₃.perm.trans hmoved₂.perm).trans hmoved₁.perm).map _).nodup_iff).mpr hnodup
  have hcores₁ := hmoved₁.map (f := Field.core) (p := fun f => decide (f.name ∈ names))
  rw [← Entity.cores, hprolonged.cores_eq] at hcores₁
  obtain ⟨rest, first, second, third, hcores, htail, hrest, hfirst, hsecond, hthird⟩ :=
    hcores₁.layers_behind (hmoved₂.map (f := Field.core)) (hmoved₃.map (f := Field.core)) hfront
  have hof : ∀ f ∈ rest ++ first ++ second ++ third,
      f ∈ e₀.cores ∧ ⟨C, f.name⟩ ∈ b.createdFields := by
    intro f hf
    have hf := htail.mem_iff.mp hf
    exact ⟨hprolonged.cores_eq ▸ List.mem_append_right _ hf,
      (hcreated _).mp (List.mem_map_of_mem hf)⟩
  refine ⟨e', rest, first, second, third, he', ⟨hcores, hnodup'⟩, fun n => ?_,
    ⟨fun f hf => ?_, fun f hf => ?_, fun f hf => ?_, hthird⟩, hsorted⟩
  · rw [← hcreated n, (htail.map _).mem_iff]
  · obtain ⟨hn, hblock, hused⟩ := hrest f hf
    obtain ⟨hf₀, hmade⟩ := hof f (by simp [hf])
    refine ⟨fun hplain hentry => ?_, by simp [hblock], by simp [hused]⟩
    obtain ⟨r, hr, rfl⟩ := hentry
    have hledger := List.mem_append_right paths (mem_ledgerFields_of_entry hr hmade)
    exact of_decide_eq_false hn ((hmem f hf₀).mpr ⟨hledger, hplain⟩)
  · obtain ⟨hn, -, hused⟩ := hfirst f hf
    obtain ⟨hf₀, -⟩ := hof f (by simp [hf])
    exact ⟨((hmem f hf₀).mp (of_decide_eq_true hn)).2, by simp [hused]⟩
  · obtain ⟨hblock, hused⟩ := hsecond f hf
    exact ⟨hblock, by simp [hused]⟩

/-- The members of a block that is neither named nor one of parts are left in the order they were
in. -/
theorem members_arrange {B : String} (h : Orderly s A b) (he : b.schema.entity? C = some e)
    (hnodup : (e.fields.map (·.name)).Nodup) (hnames : ¬ b.NamesBlock C B)
    (htables : ¬ b.Tables C B) (hfields : (arrangeFields paths).Gives b u b')
    (hblocks : arrangeBlocks.Gives b' v b'') :
    ∃ e', b''.schema.entity? C = some e' ∧ e'.members B = e.members B := by
  obtain ⟨c, d, e', he', hmoved₁, hmoved₂, hmoved₃, -⟩ := rows_arrange h he hnodup hfields hblocks
  have hunmoved : ∀ f ∈ e.fields, f.isIn B = true →
      ¬ f.name ∈ movedNames e C [] (paths ++ ledgerFields b) ∧ ¬ b.inNamedBlock C f = true ∧
        ¬ b.inUsedPartition C f = true := by
    intro f hf hin
    have hB : f.block = some B := by simpa [Field.isIn] using hin
    refine ⟨fun hn => ?_, ?_, ?_⟩
    · cases hB.symm.trans ((mem_movedNames hnodup (Entity.core_mem_cores hf)).mp hn).2
    · rw [inNamedBlock_iff]
      rintro ⟨B', hB', hnamed⟩
      exact hnames (Option.some.inj (hB.symm.trans hB') ▸ hnamed)
    · rw [h.inUsedPartition_iff]
      rintro (hdescribes | ⟨B', hB', htabled⟩)
      · cases hB.symm.trans (h.placed.sound.block_of_describes hdescribes he hf rfl)
      · exact htables (Option.some.inj (hB.symm.trans hB') ▸ htabled)
  have hperm := hmoved₂.perm.trans hmoved₁.perm
  refine ⟨e', he', ?_⟩
  calc e'.members B = d.members B := hmoved₃.filter_eq fun f hf hin =>
        Bool.eq_false_iff.mpr (hunmoved f (hperm.mem_iff.mp hf) hin).2.2
    _ = c.members B := hmoved₂.filter_eq fun f hf hin =>
        Bool.eq_false_iff.mpr (hunmoved f (hmoved₁.perm.mem_iff.mp hf) hin).2.1
    _ = e.members B := hmoved₁.filter_eq fun f hf hin => decide_eq_false (hunmoved f hf hin).1

end Build

end FeatureSynth
