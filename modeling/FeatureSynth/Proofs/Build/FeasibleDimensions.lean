/-
# Dimensions get their fields

The dimensions in use are bound to fields first, while no partition is linked yet.  A dimension
that is a field is bound to that one.  For one that is a rule the field of the rule is made,
and the rule has to be feasible: it is checked, and the parts that it names are located.

Whether they are depends on the levels that former analyses left, for the dimensions of an
analysis are bound before any of them is sampled.  Given this, nothing else can fail.  Fields
that were created for dimensions go to the tail of their classes, where they are.
-/
import FeatureSynth.Proofs.Build.Direct
import FeatureSynth.Proofs.Build.Feasible
import FeatureSynth.Proofs.Build.Kept
import FeatureSynth.Proofs.Build.Loaded

namespace FeatureSynth

namespace BuildState

variable {schema : Schema} {b : BuildState}

/-- A build starts from a steady state if its schema is well formed and has the classes of
dimensions and partitions. -/
theorem steady_start (catalogue : Catalogue) (o : Options) {space : Space} (interrupt : Interrupt)
    (hschema : schema.compile = .ok ()) (hdims : space.Grounded schema)
    (htables : ∀ p ∈ space.partitions, p.parentClass ∈ schema.entities.map (·.name) ∧
      p.className ∈ schema.entities.map (·.name)) :
    (start catalogue o schema space interrupt).Steady schema where
  start := hschema
  accounted := accounted_start catalogue o space interrupt hschema
  linked := by
    have haccounted := accounted_start catalogue o space interrupt hschema
    exact linked_of_unlinked (fun _ _ => haccounted.entity_of_class) haccounted.indexes
      (Space.unlinked_clearLinks space)
  compile := hschema
  classes := rfl
  tight := by
    intro hapart C e c he hc
    rw [class?_start, show schema.entity? C = some e from he] at hc
    cases hc
    have hmem := Schema.mem_of_entity? he
    exact tight_collect catalogue schema ((Schema.nodup_of_compile hschema).2 e hmem)
      (hapart e hmem)
  noted := fun _ _ hn => absurd hn List.not_mem_nil
  blocks := fun _ hentry => absurd hentry List.not_mem_nil
  dimensions := hdims.of_sameCuts (Space.sameCuts_clearLinks space)
  tables := by
    intro p hp
    obtain ⟨q, hq, rfl⟩ := List.mem_map.mp hp
    exact htables q hq

namespace Steady

/-- Another space with the same cuts, while no partition is linked. -/
theorem of_space (h : b.Steady schema) {space : Space} (hcuts : b.space.SameCuts space)
    (hclear : space.Unlinked) : Steady schema { b with space } where
  start := h.start
  accounted := h.accounted.of_stays (.of_eq rfl rfl rfl)
  linked := linked_of_unlinked h.linked.entity_of_class h.linked.indexes hclear
  compile := h.compile
  classes := h.classes
  tight := h.tight
  noted := h.noted
  blocks := h.blocks
  dimensions := h.dimensions.of_sameCuts hcuts
  tables := by
    intro p' hp'
    obtain ⟨k, hk⟩ := List.mem_iff_getElem?.mp hp'
    rcases hcuts.partition? k with ⟨-, hnone⟩ | ⟨p, q, hp, hq, hcut, -⟩
    · cases hnone.symm.trans hk
    · obtain rfl : p' = q := Option.some.inj (hk.symm.trans hq)
      simp only [Partition.cut, Prod.mk.injEq] at hcut
      rw [hcut.1, hcut.2.1]
      exact h.tables p (List.mem_of_getElem? hp)

theorem class_of_created (h : b.Steady schema) {p : FieldPath} (hp : p ∈ b.createdFields) :
    p.className ∈ schema.entities.map (·.name) := by
  obtain ⟨e, -, he, -⟩ := h.accounted.createdField p.className p.name hp
  exact h.class_of_entity? he

end Steady

/-- A steady state of the time when dimensions are bound: no partition is linked, and the space
differs from the one at the start in links of dimensions. -/
structure Binding (schema : Schema) (s : Space) (b : BuildState) : Prop where
  steady : b.Steady schema
  unlinked : b.space.Unlinked
  levels : s.SameLevels b.space

namespace Binding

variable {s : Space} {b' : BuildState}

theorem proceeds (h : Binding schema s b) (hp : Proceeds schema b b')
    (hspace : b'.space = b.space) : Binding schema s b' :=
  ⟨hp.steady, hspace ▸ h.unlinked, hspace ▸ h.levels⟩

/-- A dimension is bound to a field. -/
theorem bindTo (h : Binding schema s b) (k : Nat) (name : String) : Binding schema s { b with
    space := b.space.modifyDimension k fun d => { d with selectionField := some name } } := by
  have hlevels : b.space.SameLevels (b.space.modifyDimension k
      fun d => { d with selectionField := some name }) :=
    .of_modifyDimension _ _ fun _ => ⟨rfl, rfl, rfl⟩
  exact ⟨h.steady.of_space hlevels.toSameCuts h.unlinked, h.unlinked, h.levels.trans hlevels⟩

/-- The rule of a dimension is feasible if its parts were located at the start. -/
theorem feasible (h : Binding schema s b) {k : Nat} {d : Dimension} {r : Rule}
    (hk : ∀ d r, s.dimensions[k]? = some d → d.origin = .rule r → r.PartsIn s.Located)
    (hd : b.space.dimensions[k]? = some d) (hr : d.origin = .rule r) :
    r.Feasible b.space schema := by
  obtain ⟨d₀, hd₀, -, horigin, -⟩ := h.levels.symm.dimension hd
  refine ⟨h.steady.dimensions d (List.mem_of_getElem? hd) r hr, fun part hpart => ?_⟩
  exact (hk d₀ r hd₀ (horigin.trans hr) part hpart).of_sameLevels h.levels

end Binding

end BuildState

/-- Of a rule with a formula a record can tell whether it knows it. -/
theorem ClassRecord.exists_lookupRule (c : ClassRecord) {s : Space} {r : Rule} {φ : Formula}
    (hφ : s.formula r = .ok φ) : ∃ y, c.lookupRule s r = .ok y := by
  unfold lookupRule
  rw [hφ]
  dsimp only
  (repeat' split) <;> exact ⟨_, rfl⟩

namespace Build

open BuildState

variable {schema : Schema} {b b' : BuildState} {r : Rule} {o : Options} {s : Space} {n : String}

/-! ## Fields of whole formulas -/

/-- A feasible rule gets a field with its whole formula. -/
theorem ensures_directField (h : b.Steady schema) (hr : r.Feasible b.space schema) :
    (directField r).Ensures b fun _ => Proceeds schema b := by
  obtain ⟨e, c, he, hc⟩ := h.exists_class hr.className_mem
  obtain ⟨φ, hφ⟩ := Space.Located.exists_formula hr.located
  obtain ⟨⟨existing, c'⟩, hlookup⟩ := c.exists_lookupRule hφ
  obtain ⟨hname, hfields, hblocks⟩ := ClassRecord.lookupRule_keeps hlookup
  have hset : (setRecord r.className c').Gives b ()
      { b with registry := b.registry.set r.className c' } := gives_setRecord.mpr rfl
  have hp := h.of_stays (stays_setRecord hset hc hname hfields hblocks) ⟨rfl, rfl, rfl⟩ h.compile
  unfold directField
  refine .record_bind hc (.get_bind (.lift_bind hlookup (.bind (.of_gives hset rfl ?_))))
  cases existing with
  | some name =>
    exact .of_gives (gives_reuse.mpr ⟨rfl, rfl⟩) rfl
      (hp.trans (proceeds_of_eq hp.steady rfl rfl rfl ⟨rfl, rfl, rfl⟩))
  | none =>
    obtain ⟨t, htype, hclass⟩ := hr.exists_resultType h.start
    refine .get_bind (.lift_bind hφ ?_)
    exact (ensures_fieldFor hp.steady hr.className_mem htype hclass
      (exists_ofRule b.names h.dimensions hr.toGrounded hr.located false)).mono
        fun _ _ _ hfield => hp.trans hfield.1

/-! ## Moves -/

/-- Fields of the classes of the schema can be moved, as far as they are no members. -/
theorem ensures_moveFields (paths moved : List FieldPath) {b : BuildState} (h : b.Steady schema)
    (hpaths : ∀ p ∈ paths, p.className ∈ schema.entities.map (·.name)) :
    (moveFields moved paths).Ensures b fun _ b' => Proceeds schema b b' ∧ SameLedgers b b' := by
  induction paths generalizing moved b with
  | nil => exact .ret ⟨h.refl, .refl b⟩
  | cons p rest ih =>
    have hrest : ∀ q ∈ rest, q.className ∈ schema.entities.map (·.name) :=
      fun q hq => hpaths q (List.mem_cons_of_mem _ hq)
    have hclass := hpaths p List.mem_cons_self
    obtain ⟨e, -, he, -⟩ := h.exists_class hclass
    unfold moveFields
    refine .entity_bind he ?_
    dsimp only
    split
    · exact ih moved h hrest
    · rename_i hmoves
      have hplain : ∀ e' f, b.schema.entity? p.className = some e' → e'.field? p.name = some f →
          f.block = none := by
        intro e' f he' hf
        obtain rfl : e = e' := Option.some.inj (he.symm.trans he')
        simpa [hf] using (not_or.mp (mt (Bool.or_eq_true _ _).mpr hmoves)).1
      refine .bind_of (ensures_moveField h hclass hplain) fun _ b₁ _ hmoved => ?_
      obtain ⟨hp, hsame⟩ := hmoved
      exact (ih (p :: moved) hp.steady hrest).mono
        fun _ _ _ hlast => ⟨hp.trans hlast.1, hsame.trans hlast.2⟩

/-- Created fields can be moved, and whatever else is given of the classes of the schema. -/
theorem ensures_arrangeFields (h : b.Steady schema) {new : List FieldPath}
    (hnew : ∀ p ∈ new, p.className ∈ schema.entities.map (·.name)) :
    (arrangeFields new).Ensures b fun _ b' => Proceeds schema b b' ∧ SameLedgers b b' := by
  refine .get_bind (ensures_moveFields _ _ h fun p hp => ?_)
  exact (List.mem_append.mp hp).elim (hnew p) fun hledger =>
    h.class_of_created (mem_ledgerFields hledger)

/-! ## Dimensions -/

/-- A dimension whose rule is feasible, if it has one, has a field or gets one. -/
theorem ensures_dimensionField (h : b.Steady schema) {d : Dimension}
    (hd : ∀ r, d.origin = .rule r → r.Feasible b.space schema) :
    (dimensionField o d).Ensures b fun _ => Proceeds schema b := by
  unfold dimensionField
  split
  · exact .ret h.refl
  · rename_i r horigin
    split
    · refine .bind_of (ensures_collectFields h r) fun _ b₁ _ ⟨hp, hspace⟩ => ?_
      exact (ensures_sharedField r hp.steady (hspace ▸ hd r horigin)).mono
        fun _ _ _ hfield => hp.trans hfield.1
    · exact ensures_directField h (hd r horigin)

theorem ensures_bindDimension (h : Binding schema s b) {k : Nat}
    (hk : ∀ d r, s.dimensions[k]? = some d → d.origin = .rule r → r.PartsIn s.Located) :
    (bindDimension o k).Ensures b fun _ => Binding schema s := by
  have h₁ : Binding schema s { b with interrupt := b.interrupt.look.2 } :=
    h.proceeds (proceeds_of_eq h.steady rfl rfl rfl ⟨rfl, rfl, rfl⟩) rfl
  unfold bindDimension
  refine .checkInterrupt_bind (.get_bind ?_)
  cases hd : b.space.dimensions[k]? with
  | none => exact .ret h₁
  | some d =>
    have hfield := ensures_dimensionField (o := o) h₁.steady fun r hr => h₁.feasible hk hd hr
    refine .bind_of hfield fun name b₂ hrun hp => ?_
    have h₂ := h₁.proceeds hp (sameSpace_dimensionField hrun).1
    exact .change rfl (h₂.bindTo k name)

/-- The dimensions in use can be bound if the parts that their rules name are located. -/
theorem ensures_bindDimensions (h : b.Steady schema) (hclear : b.space.Unlinked)
    (hused : ∀ k, b.space.Used k → ∀ d r, b.space.dimensions[k]? = some d →
      d.origin = .rule r → r.PartsIn b.space.Located) :
    (bindDimensions o).Ensures b fun _ => Binding schema b.space := by
  refine .get_bind (.bind_of (Ensures.forM (I := Binding schema b.space) (fun k hk b₁ h₁ =>
    ensures_bindDimension h₁ (hused k (Space.mem_usedDimensions.mp hk)))
    ⟨h, hclear, .refl _⟩) fun _ b₁ _ h₁ => .get_bind ?_)
  refine (ensures_arrangeFields h₁.steady fun p hp =>
    h₁.steady.class_of_created (List.mem_of_mem_drop hp)).mono fun _ b' _ ⟨hp, hsame⟩ => ?_
  exact h₁.proceeds hp hsame.space

end Build

end FeatureSynth
