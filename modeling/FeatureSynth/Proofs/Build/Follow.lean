/-
# A run that follows another

A build is repeated on the schema it left.  Wherever the first run creates a field, a
member or a block, or finds one, the second run finds the same under the same name.  So
the second run goes through the same steps, with the same results, and creates nothing.

`Follows` says where the second run is when the first one is in a given state: the
spaces are twins, the ledgers of fields are equal, and so are those of blocks up to the
names of blocks, which only their creation notes.  The second run's schema is the last
one of the first run, up to marks and costs.

That the second run finds something depends on the operators of its class.  They are
usable because the operands of a rule are realized before the rule is, and the first one
fills the first slot of its template.  `Typed` keeps this for the first run: whatever is
known by a formula, or noted in the ledger, is held by a field that fills slots for it.
-/
import FeatureSynth.Proofs.Build.Found
import FeatureSynth.Proofs.Build.Noted
import FeatureSynth.Proofs.Rule.Grounded
import FeatureSynth.Proofs.Schema.Core
import FeatureSynth.Proofs.Space.Twin

namespace FeatureSynth

/-- A formula known after a step was known before, or was added. -/
theorem Grows.knows_before {added : String → List Addition} {blocks : String → List Block}
    {b b' : BuildState} (h : Grows added blocks b b') (hb : b.Linked) {C : String} {φ : Formula}
    {n : String} (hn : b'.Knows C φ n) : b.Knows C φ n ∨ ∃ a ∈ added C, a.key = (φ, none) := by
  obtain ⟨e', c', he', hc', hn⟩ := hn
  obtain ⟨c, hc⟩ := h.class_before hc'
  obtain ⟨e, he⟩ := hb.entity_of_class C c hc
  obtain ⟨e₁, c₁, -, hc₁, hclass⟩ := h.grows C e c he hc
  obtain rfl : c' = c₁ := Option.some.inj (hc'.symm.trans hc₁)
  rcases hclass.lookup_eq_some hn with hold | ⟨a, ha, hkey, -⟩
  · exact .inl ⟨e, c, he, hc, hold⟩
  · exact .inr ⟨a, ha, hkey⟩

namespace BuildState

/-- A name is that of a field of the class of a rule, and the last schema has a field that fills
slots for the rule. -/
def Held (last b : BuildState) (r : Rule) (n : String) : Prop :=
  b.HasCore r.className (·.name = n) ∧ last.schema.Yields r.className r.template.name

/-- What is kept of the first run, which starts from a space and ends in a last state. -/
structure Typed (s : Space) (last b : BuildState) : Prop where
  linked : Linked b
  cuts : s.SameCuts b.space
  levels : b.space.dimensions.map (·.levels) = s.dimensions.map (·.levels)
  known : ∀ C φ n, b.Knows C φ n → last.schema.Yields C φ.name
  noted : ∀ x n, (x, some n) ∈ b.fieldOf.entries → last.Held b x n

/-- The second run is where the first one is. -/
structure Follows (last b c : BuildState) : Prop where
  space : b.space.Twin c.space
  registry : c.registry = .collect .default last.schema
  schema : c.schema.core = last.schema.core
  fieldOf : c.fieldOf = b.fieldOf
  blockOf : c.blockOf.entries = b.blockOf.entries.map fun entry => (entry.1, none)
  fields : c.createdFields = []
  blocks : c.createdBlocks = []
  interrupt : c.interrupt = .never

variable {s : Space} {last b b' c : BuildState} {r x : Rule} {n : String}

theorem Held.mono (h : last.Held b r n) (hg : Grew b b') : last.Held b' r n :=
  ⟨hg.hasCore h.1, h.2⟩

/-- What holds of a rule holds of those of its signature. -/
theorem Held.congr (h : last.Held b x n) (hsignature : x.signature = r.signature) :
    last.Held b r n := by
  have hname : x.template.name = r.template.name := by
    obtain ⟨t, C, xs, cost, tie⟩ := x
    obtain ⟨u, D, ys, cost', tie'⟩ := r
    exact congrArg Signature.name hsignature
  rw [Held, ← Rule.className_eq_of_signature hsignature, ← hname]
  exact h

namespace Typed

theorem of_links (h : Typed s last b) (hlinks : Links b b')
    (hknown : ∀ C φ n, b'.Knows C φ n → last.schema.Yields C φ.name) : Typed s last b' where
  linked := hlinks.linked
  cuts := h.cuts.trans hlinks.settles.sameCuts
  levels := by rw [hlinks.settles.dimensions]; exact h.levels
  known := hknown
  noted := fun x n hx => (h.noted x n (hlinks.fieldOf ▸ hx)).mono hlinks.grew

/-- Steps that only mark and move. -/
theorem of_stays (h : Typed s last b) (hg : Stays b b') (hspace : b'.space = b.space)
    (hfieldOf : b'.fieldOf = b.fieldOf) : Typed s last b' := by
  refine h.of_links (.of_stays h.linked hg hspace hfieldOf) fun C φ n hn => ?_
  rcases hg.knows_before h.linked hn with hn | ⟨a, ha, -⟩
  · exact h.known C φ n hn
  · exact absurd ha List.not_mem_nil

/-- Another ledger. -/
theorem note (h : Typed s last b) {l : Ledger}
    (hl : ∀ x n, (x, some n) ∈ l.entries → last.Held b x n) :
    Typed s last { b with fieldOf := l } where
  linked := ⟨h.linked.entity_of_class, h.linked.indexes, h.linked.described, h.linked.tabled⟩
  cuts := h.cuts
  levels := h.levels
  known := h.known
  noted := hl

/-- While nothing is linked the space may change in what a rule is not ordered by. -/
theorem of_space (h : Typed s last b) {space : Space} (hcuts : b.space.SameCuts space)
    (hlevels : space.dimensions.map (·.levels) = b.space.dimensions.map (·.levels))
    (hclear : space.Unlinked) : Typed s last { b with space } where
  linked := linked_of_unlinked h.linked.entity_of_class h.linked.indexes hclear
  cuts := h.cuts.trans hcuts
  levels := hlevels.trans h.levels
  known := h.known
  noted := h.noted

/-- Of a rule with a name in the ledger a field is held. -/
theorem held_of_fieldOf? (h : Typed s last b) (hs : s.WellFounded) (hn : b.fieldOf? r = some n) :
    last.Held b r n := by
  obtain ⟨x, hx, horder⟩ := Ledger.of_name? hn
  rw [h.cuts.compareCostName] at horder
  exact (h.noted x n hx).congr ((Space.compareCostName_eq_iff hs).mp horder).signature

end Typed

theorem Follows.fieldOf? (h : Follows last b c) (r : Rule) : c.fieldOf? r = b.fieldOf? r := by
  rw [BuildState.fieldOf?, BuildState.fieldOf?, h.fieldOf, h.space.compareCostName]

end BuildState

namespace Build

open BuildState

variable {α β : Type} {s : Space} {last b b' b₁ c : BuildState} {r : Rule} {n : String}

/-! ## Steps taken again -/

/-- A step of the first run, from one state to another, is taken again by the second. -/
structure Again (s : Space) (last : BuildState) (m : Build α) (b : BuildState) (a : α)
    (b' : BuildState) : Prop where
  typed : Typed s last b'
  again : ∀ c, Follows last b c → ∃ c', m.Gives c a c' ∧ Follows last b' c'

namespace Again

theorem bind {m : Build α} {f : α → Build β} {a : α} {x : β} (h : Again s last m b a b₁)
    (h' : Again s last (f a) b₁ x b') : Again s last (m >>= f) b x b' where
  typed := h'.typed
  again := by
    intro c hc
    obtain ⟨c₁, hm, hc₁⟩ := h.again c hc
    obtain ⟨c', hf, hc'⟩ := h'.again c₁ hc₁
    exact ⟨c', gives_bind.mpr ⟨a, c₁, hm, hf⟩, hc'⟩

protected theorem pure (h : Typed s last b) (a : α) : Again s last (pure a) b a b where
  typed := h
  again := fun c hc => ⟨c, gives_pure.mpr ⟨rfl, rfl⟩, hc⟩

/-- A step that goes by what both runs see alike. -/
theorem get_bind {f : BuildState → Build β} {x : β} (h : Again s last (f b) b x b')
    (hf : ∀ c, Follows last b c → f c = f b) :
    Again s last ((get : Build BuildState) >>= f) b x b' where
  typed := h.typed
  again := by
    intro c hc
    obtain ⟨c', hgives, hc'⟩ := h.again c hc
    exact ⟨c', gives_get_bind.mpr (hf c hc ▸ hgives), hc'⟩

theorem lift_bind {f : α → Build β} {y : Except BuildError α} {a : α} {x : β} (hy : y = .ok a)
    (h : Again s last (f a) b x b') : Again s last (lift y >>= f) b x b' := by
  subst hy
  exact h

end Again

/-! ## Fields for formulas -/

/-- The field for a formula is found again under the name it has. -/
theorem again_fieldFor (hfound : last.Found) (h : Typed s last b) {C : String} {φ : Formula}
    {type : Except BuildError FieldType} {make : Naming} (hlast : Grew b' last)
    (husable : last.schema.Usable C φ.name)
    (hyields : ∀ t, type = .ok t → (last.HasCore C fun f => f.type = t) →
      last.schema.Yields C φ.name)
    (hrun : (fieldFor C φ type make).Gives b n b') :
    Again s last (fieldFor C φ type make) b n b' ∧ b'.HasCore C (·.name = n) ∧
      last.schema.Yields C φ.name := by
  obtain ⟨hlinks, hknows⟩ := links_fieldFor h.linked hrun
  obtain ⟨hsame, c₀, hc₀, hcases⟩ := fieldFor_cases hrun
  have hholds : b'.HasCore C (·.name = n) := by
    obtain ⟨e, c, he, hc, hn⟩ := hknows
    obtain ⟨f, hf, hname, -⟩ := (hlinks.linked.indexes C e c he hc).derived φ n hn
    exact ⟨e, c, he, hc, f, hf, hname⟩
  obtain ⟨hknown, hyields⟩ : (∀ D ψ m, b'.Knows D ψ m → last.schema.Yields D ψ.name) ∧
      last.schema.Yields C φ.name := by
    rcases hcases with ⟨hn, rfl⟩ | ⟨-, t, ht, hg⟩
    · exact ⟨h.known, h.known C φ n hknows⟩
    · have hnew : last.schema.Yields C φ.name := by
        refine hyields t ht (hlast.hasCore ?_)
        obtain ⟨e, he⟩ := h.linked.entity_of_class C c₀ hc₀
        obtain ⟨e', c', he', hc', hclass⟩ := hg.grows C e c₀ he hc₀
        have hmem : (⟨(Field.derived n t φ).core, (φ, none)⟩ : Addition) ∈
            only C [⟨(Field.derived n t φ).core, (φ, none)⟩] C := by simp [only]
        exact ⟨e', c', he', hc', _, hclass.added_mem hmem, rfl⟩
      refine ⟨fun D ψ m hm => ?_, hnew⟩
      rcases hg.knows_before h.linked hm with hm | ⟨a, ha, hkey⟩
      · exact h.known D ψ m hm
      · obtain ⟨rfl, rfl⟩ := mem_only ha
        cases hkey
        exact hnew
  refine ⟨⟨h.of_links hlinks hknown, fun c hc => ?_⟩, hholds, hyields⟩
  obtain ⟨rec, hrec, hfield⟩ := hfound.field C φ n (hlast.knows hknows) husable
  refine ⟨{ c with reused := c.reused + 1 }, ?_, ?_⟩
  · rw [fieldFor, gives_record_bind]
    refine ⟨rec, hc.registry ▸ hrec, ?_⟩
    rw [hfield]
    exact gives_reuse.mpr ⟨rfl, rfl⟩
  · exact ⟨by rw [hsame.space]; exact hc.space, hc.registry, hc.schema,
      by rw [hsame.fieldOf]; exact hc.fieldOf, by rw [hsame.blockOf]; exact hc.blockOf, hc.fields,
      hc.blocks, hc.interrupt⟩

/-- A name is noted again. -/
theorem again_recordField (hs : s.WellFounded) (h : Typed s last b) (hr : last.Held b r n)
    (hrun : (recordField r n).Gives b () b') :
    Again s last (recordField r n) b () b' ∧ last.Held b' r n := by
  rw [recordField, gives_modify] at hrun
  subst hrun
  refine ⟨⟨h.note fun x m hx => ?_, fun c hc => ⟨_, gives_modify.mpr rfl, ?_⟩⟩, hr⟩
  · rcases Ledger.mem_record hx with hold | ⟨rfl, horder | rfl⟩
    · exact h.noted x m hold
    · rw [h.cuts.compareCostName] at horder
      exact hr.congr ((Space.compareCostName_eq_iff hs).mp horder).signature.symm
    · exact hr
  · refine ⟨hc.space, hc.registry, hc.schema, ?_, hc.blockOf, hc.fields, hc.blocks, hc.interrupt⟩
    rw [hc.fieldOf, hc.space.compareCostName]

/-! ## Fields for rules -/

/-- A rule whose template applies gets the same field again. -/
theorem again_formulaField (hs : s.WellFounded) (hmade : last.Made) (h : Typed s last b)
    (hr : r.Grounded s last.schema)
    (happlies : ∃ k, r.template.slots.head? = some k ∧ last.schema.Provides r.className k)
    {xs : List Operand} (hlast : Grew b' last)
    (hrun : (formulaField r (r.template.formula xs)).Gives b n b') :
    Again s last (formulaField r (r.template.formula xs)) b n b' ∧ last.Held b' r n := by
  obtain ⟨name, b₁, hfield, hrun⟩ := gives_bind.mp hrun
  obtain ⟨_, b₂, hrecord, hpure⟩ := gives_bind.mp hrun
  obtain ⟨rfl, rfl⟩ := gives_pure.mp hpure
  have hlast₁ : Grew b₁ last := (closed_recordField parts_grew r _ hrecord).trans hlast
  obtain ⟨hagain, hholds, hyields⟩ := again_fieldFor hmade.found h hlast₁
    (Rule.usable_of_applies hr.named happlies List.mem_cons_self)
    (fun t ht ⟨e, c, he, _, f, hf, htype⟩ =>
      Rule.yields_of_field hmade.compile hr.named happlies fun type hresult => by
        obtain ⟨g, hg, rfl⟩ := Entity.mem_cores.mp hf
        exact ⟨e, he, g, hg, htype.trans (Except.ok.inj (ht.symm.trans hresult))⟩) hfield
  obtain ⟨hagain', hheld⟩ := again_recordField hs hagain.typed ⟨hholds, hyields⟩ hrecord
  exact ⟨hagain.bind (hagain'.bind (.pure hagain'.typed _)), hheld⟩

/-- A rule gets the same field again if its operands do. -/
theorem again_fieldOverOperands (hs : s.WellFounded) (hmade : last.Made)
    (hr : r.Grounded s last.schema) {m : Build (List Operand)}
    (hm : ∀ xs b₁, m.Gives b xs b₁ → Grew b₁ last → Again s last m b xs b₁ ∧
      ∀ inner, .rule inner ∈ r.operands → last.schema.Yields inner.className inner.template.name)
    (hlast : Grew b' last)
    (hrun : (do formulaField r (r.template.formula (← m))).Gives b n b') :
    Again s last (do formulaField r (r.template.formula (← m))) b n b' ∧ last.Held b' r n := by
  obtain ⟨xs, b₁, hoperands, hfield⟩ := gives_bind.mp hrun
  have hlast₁ : Grew b₁ last := (parts_grew.formula _ _ hfield).trans hlast
  obtain ⟨hagain, hyields⟩ := hm xs b₁ hoperands hlast₁
  have happlies := Rule.applies hmade.compile hr.named hr.checked hr.fields
    fun inner hinner => hyields inner (List.mem_of_mem_head? hinner)
  obtain ⟨hagain', hheld⟩ := again_formulaField hs hmade hagain.typed hr happlies hlast hfield
  exact ⟨hagain.bind hagain', hheld⟩

mutual

/-- The shared field of a rule is found again. -/
theorem again_sharedField (hs : s.WellFounded) (hmade : last.Made) : ∀ (r : Rule)
    (b b' : BuildState) (n : String), Typed s last b → r.Grounded s last.schema → Grew b' last →
    (sharedField r).Gives b n b' →
      Again s last (sharedField r) b n b' ∧ last.Held b' r n
  | ⟨template, className, operands, cost, tieBreak⟩, b, b', n, h, hr, hlast, hrun => by
      rw [sharedField, gives_get_bind] at hrun
      rw [sharedField]
      suffices hsuffices : Again s last _ b n b' ∧ last.Held b' _ n from
        ⟨.get_bind hsuffices.1 fun c hc => by rw [hc.fieldOf?], hsuffices.2⟩
      cases hname : b.fieldOf? ⟨template, className, operands, cost, tieBreak⟩ with
      | some name =>
        rw [hname] at hrun
        obtain ⟨rfl, rfl⟩ := gives_pure.mp hrun
        exact ⟨.pure h _, h.held_of_fieldOf? hs hname⟩
      | none =>
        rw [hname] at hrun
        exact again_fieldOverOperands hs hmade hr (fun xs b₁ hoperands hlast₁ =>
          again_sharedOperands hs hmade operands b b₁ xs h (fun inner => hr.operand) hlast₁
            hoperands) hlast hrun

/-- The operands of a rule over shared fields are found again, and the rules among them are held. -/
theorem again_sharedOperands (hs : s.WellFounded) (hmade : last.Made) :
    ∀ (operands : List (RuleOperand Rule)) (b b' : BuildState) (xs : List Operand), Typed s last b →
    (∀ inner, .rule inner ∈ operands → inner.Grounded s last.schema) → Grew b' last →
    (sharedOperands operands).Gives b xs b' → Again s last (sharedOperands operands) b xs b' ∧
      ∀ inner, .rule inner ∈ operands →
        last.schema.Yields inner.className inner.template.name
  | [], b, b', xs, h, _, _, hrun => by
      rw [sharedOperands, gives_pure] at hrun
      obtain ⟨rfl, rfl⟩ := hrun
      rw [sharedOperands]
      exact ⟨.pure h _, fun _ hinner => absurd hinner List.not_mem_nil⟩
  | .field name type :: rest, b, b', xs, h, hrest, hlast, hrun => by
      rw [sharedOperands] at hrun ⊢
      obtain ⟨ys, b₁, hrun, hpure⟩ := gives_bind.mp hrun
      obtain ⟨rfl, rfl⟩ := gives_pure.mp hpure
      obtain ⟨hagain, hyields⟩ := again_sharedOperands hs hmade rest b b' ys h
        (fun inner hinner => hrest inner (List.mem_cons_of_mem _ hinner)) hlast hrun
      refine ⟨hagain.bind (.pure hagain.typed _), fun inner hinner => ?_⟩
      rcases List.mem_cons.mp hinner with heq | hinner
      · cases heq
      · exact hyields inner hinner
  | .rule inner :: rest, b, b', xs, h, hrest, hlast, hrun => by
      rw [sharedOperands] at hrun ⊢
      obtain ⟨name, b₁, hfield, hrun⟩ := gives_bind.mp hrun
      obtain ⟨ys, b₂, hrun, hpure⟩ := gives_bind.mp hrun
      obtain ⟨rfl, rfl⟩ := gives_pure.mp hpure
      have hlast₁ : Grew b₁ last := (closed_sharedOperands parts_grew rest hrun).trans hlast
      obtain ⟨hagain, hheld⟩ :=
        again_sharedField hs hmade inner b b₁ name h (hrest inner List.mem_cons_self) hlast₁ hfield
      obtain ⟨hagain', hyields⟩ := again_sharedOperands hs hmade rest b₁ b' ys hagain.typed
        (fun x hx => hrest x (List.mem_cons_of_mem _ hx)) hlast hrun
      refine ⟨hagain.bind (hagain'.bind (.pure hagain'.typed _)), fun x hx => ?_⟩
      rcases List.mem_cons.mp hx with heq | hx
      · cases heq
        exact hheld.2
      · exact hyields x hx
  | .part part :: rest, b, b', xs, h, hrest, hlast, hrun => by
      simp only [sharedOperands, gives_get_bind, gives_lift_bind] at hrun
      obtain ⟨f, hf, hrun⟩ := hrun
      obtain ⟨ys, b₁, hrun, hpure⟩ := gives_bind.mp hrun
      obtain ⟨rfl, rfl⟩ := gives_pure.mp hpure
      obtain ⟨hagain, hyields⟩ := again_sharedOperands hs hmade rest b b' ys h
        (fun inner hinner => hrest inner (List.mem_cons_of_mem _ hinner)) hlast hrun
      refine ⟨?_, fun inner hinner => ?_⟩
      · rw [sharedOperands]
        exact .get_bind (.lift_bind hf (hagain.bind (.pure hagain.typed _)))
          fun c hc => by rw [hc.space.partFormula]
      · rcases List.mem_cons.mp hinner with heq | hinner
        · cases heq
        · exact hyields inner hinner

end

end Build

end FeatureSynth
