/-
# Dimensions are bound in time

Before the candidates, the dimensions in use are bound, in order of registration.
The rule of a dimension only selects on dimensions registered before it, and these
are in use as well, so they are bound by the time its field is made.  After the
last one every candidate is cut along bound dimensions only.
-/
import FeatureSynth.Proofs.Build.Shared

namespace FeatureSynth

/-- Without links no dimension is bound. -/
theorem Space.selectionField_of_clearLinks (s : Space) {k : Nat} {d : Dimension}
    (hd : s.clearLinks.dimensions[k]? = some d) : d.selectionField = none := by
  simp only [clearLinks, List.getElem?_map, Option.map_eq_some_iff] at hd
  obtain ⟨_, -, rfl⟩ := hd
  rfl

namespace Build

open BuildState

variable {o : Options} {b₀ b b' : BuildState} {u : Unit}

/-- To collect rules names none. -/
theorem shares_collectFields {r : Rule} (h : SharesRules b₀ b)
    (hrun : (collectFields r).Gives b u b') : SharesRules b₀ b' ∧ b'.space = b.space := by
  rw [collectFields, gives_modify] at hrun
  subst hrun
  exact ⟨h.keep (.of_eq rfl rfl rfl) (.refl _) fun _ _ => Ledger.mem_foldl_enter _ _, rfl⟩

theorem shares_checkInterrupt (h : SharesRules b₀ b) (hrun : checkInterrupt.Gives b u b') :
    SharesRules b₀ b' ∧ b'.space = b.space := by
  obtain ⟨-, rfl⟩ := gives_checkInterrupt.mp hrun
  exact ⟨h.keep (.of_eq rfl rfl rfl) (.refl _) fun _ _ => Iff.rfl, rfl⟩

/-! ## One dimension -/

theorem shares_dimensionField (h₀ : b₀.Untouched) (ho : o.shareRules = true) {d : Dimension}
    {n : String} (h : SharesRules b₀ b) (hrule : ∀ r, d.origin = .rule r → b.space.RuleBound r)
    (hrun : (dimensionField o d).Gives b n b') : SharesRules b₀ b' ∧ b'.space = b.space := by
  unfold dimensionField at hrun
  split at hrun
  · obtain ⟨-, rfl⟩ := gives_pure.mp hrun
    exact ⟨h, rfl⟩
  · rename_i r hr
    rw [if_pos ho] at hrun
    obtain ⟨_, b₁, hcollect, hfield⟩ := gives_bind.mp hrun
    obtain ⟨h₁, hspace⟩ := shares_collectFields h hcollect
    obtain ⟨hshares, -⟩ := shares_sharedField h₀ r b₁ b' n h₁ (by rw [hspace]; exact hrule r hr) hfield
    exact ⟨hshares.sound, hshares.space.trans hspace⟩

/-- A dimension without a field is bound, once the dimensions its rule selects on are. -/
theorem shares_bindDimension (h₀ : b₀.Untouched) (ho : o.shareRules = true) {k : Nat}
    (h : SharesRules b₀ b)
    (hfree : ∀ d, b.space.dimensions[k]? = some d → d.selectionField = none)
    (hrule : ∀ d r, b.space.dimensions[k]? = some d → d.origin = .rule r → b.space.RuleBound r)
    (hrun : (bindDimension o k).Gives b u b') :
    SharesRules b₀ b' ∧ b.space.Binds b'.space ∧ b'.space.BoundAt k ∧
      ∀ j, j ≠ k → b'.space.dimensions[j]? = b.space.dimensions[j]? := by
  obtain ⟨_, b₁, hcheck, hrun⟩ := gives_bind.mp hrun
  obtain ⟨h₁, hspace₁⟩ := shares_checkInterrupt h hcheck
  rw [gives_get_bind, hspace₁] at hrun
  cases hd : b.space.dimensions[k]? with
  | none =>
    rw [hd] at hrun
    obtain ⟨-, rfl⟩ := gives_pure.mp hrun
    rw [hspace₁]
    refine ⟨h₁, .refl _, fun d hd' => ?_, fun _ _ => rfl⟩
    cases hd.symm.trans hd'
  | some d =>
    rw [hd] at hrun
    obtain ⟨name, b₂, hfield, hbind⟩ := gives_bind.mp hrun
    rw [gives_modify] at hbind
    subst hbind
    obtain ⟨h₂, hspace₂⟩ := shares_dimensionField h₀ ho h₁
      (fun r hr => by rw [hspace₁]; exact hrule d r hd hr) hfield
    have hspace : b₂.space = b.space := hspace₂.trans hspace₁
    have hbinds : b₂.space.Binds (b₂.space.modifyDimension k fun d =>
        { d with selectionField := some name }) :=
      .of_modify (by rw [hspace]; exact hfree)
    refine ⟨h₂.keep (.of_eq rfl rfl rfl) hbinds fun _ _ => Iff.rfl, ?_, ?_, ?_⟩
    · rw [hspace] at hbinds
      simpa only [hspace] using hbinds
    · intro d' hd'
      simp only [Space.modifyDimension, hspace, List.getElem?_modify_eq, hd] at hd'
      cases hd'
      exact .inr rfl
    · intro j hj
      simp only [Space.modifyDimension, hspace]
      exact List.getElem?_modify_ne _ _ fun h => hj h.symm

/-! ## All dimensions in use -/

/-- The ranks still to be bound, in order; all others in use are bound. -/
structure Unbound (s : Space) (ranks : List Nat) (b : BuildState) : Prop where
  binds : s.Binds b.space
  sorted : ranks.Pairwise (· < ·)
  used : ∀ k ∈ ranks, s.Used k
  free : ∀ k ∈ ranks, ∀ d, b.space.dimensions[k]? = some d → d.selectionField = none
  bound : ∀ k, s.Used k → b.space.BoundAt k ∨ k ∈ ranks

variable {s : Space} {rules : List Rule} {k : Nat} {ranks : List Nat}

/-- What the rule of the next dimension selects on comes before it, and is bound. -/
theorem Unbound.ruleBound (h : Unbound s (k :: ranks) b) (hw : b.space.WellFounded)
    (hclosed : s.UsesClosed rules) {d : Dimension} {r : Rule}
    (hd : b.space.dimensions[k]? = some d) (hr : d.origin = .rule r) : b.space.RuleBound r := by
  intro part hpart p hp a ha
  have hlt : a.dimension < k := by
    obtain ⟨q, hq, hlt⟩ := hw.earlier k d r hd hr part hpart
    obtain rfl : p = q := Option.some.inj (hp.symm.trans hq)
    exact hlt a ha
  have hused : s.Used a.dimension := by
    obtain ⟨d', hd', -, ho⟩ := Space.dimension_of_frame h.binds.frame.symm hd
    have hpartUsed := hclosed.selected k d' r (h.used k List.mem_cons_self) hd' (ho.trans hr) part hpart
    obtain ⟨p', hp', -, haxes⟩ := Space.partition_of_frame h.binds.frame.symm hp
    exact hpartUsed p' hp' a (haxes ▸ ha)
  rcases h.bound a.dimension hused with hbound | hmem
  · exact hbound
  · rcases List.mem_cons.mp hmem with heq | hmem
    · omega
    · have := (List.pairwise_cons.mp h.sorted).1 a.dimension hmem
      omega

theorem Unbound.step (h : Unbound s (k :: ranks) b) (hbinds : b.space.Binds b'.space)
    (hk : b'.space.BoundAt k)
    (hothers : ∀ j, j ≠ k → b'.space.dimensions[j]? = b.space.dimensions[j]?) :
    Unbound s ranks b' where
  binds := h.binds.trans hbinds
  sorted := (List.pairwise_cons.mp h.sorted).2
  used := fun j hj => h.used j (List.mem_cons_of_mem _ hj)
  free := by
    intro j hj d hd
    have hlt := (List.pairwise_cons.mp h.sorted).1 j hj
    rw [hothers j (by omega)] at hd
    exact h.free j (List.mem_cons_of_mem _ hj) d hd
  bound := by
    intro j hj
    rcases h.bound j hj with hbound | hmem
    · exact .inl (hbinds.boundAt hbound)
    · rcases List.mem_cons.mp hmem with rfl | hmem
      · exact .inl hk
      · exact .inr hmem

/-- When uses have been counted and nothing is bound yet, all dimensions in use are to be bound. -/
theorem Unbound.counted
    (hfree : ∀ (k : Nat) (d : Dimension), b.space.dimensions[k]? = some d → d.selectionField = none) :
    Unbound (b.space.countUses rules) (b.space.countUses rules).usedDimensions
      { b with space := b.space.countUses rules } where
  binds := .refl _
  sorted := Space.pairwise_usedDimensions _
  used := fun k hk => Space.mem_usedDimensions.mp hk
  free := by
    intro k _ d hd
    obtain ⟨d', hd', hfield⟩ :=
      Space.selectionField_of_reset (Space.resetUses_countUses b.space rules) hd
    rw [hfield, hfree k d' hd']
  bound := fun k hk => .inr (Space.mem_usedDimensions.mpr hk)

theorem shares_bindAll (h₀ : b₀.Untouched) (ho : o.shareRules = true)
    (hclosed : s.UsesClosed rules) : ∀ (ranks : List Nat) (b b' : BuildState) (u : Unit),
      SharesRules b₀ b → Unbound s ranks b → (forM ranks (bindDimension o)).Gives b u b' →
        SharesRules b₀ b' ∧ Unbound s [] b'
  | [], b, b', u, h, hu, hrun => by
      rw [gives_forM_nil.mp hrun]
      exact ⟨h, hu⟩
  | k :: ranks, b, b', u, h, hu, hrun => by
      obtain ⟨b₁, hone, hrest⟩ := gives_forM_cons.mp hrun
      obtain ⟨h₁, hbinds, hk, hothers⟩ := shares_bindDimension h₀ ho h (hu.free k List.mem_cons_self)
        (fun d r hd hr => hu.ruleBound h.wellFounded hclosed hd hr) hone
      exact shares_bindAll h₀ ho hclosed ranks b₁ b' u h₁ (hu.step hbinds hk hothers) hrest

/-! ## Before the candidates -/

/-- A ledger without names names nothing wrong. -/
theorem sharesRules_of_empty (hw : b.space.WellFounded) (hg : Grew b₀ b)
    (hempty : b.fieldOf = .empty) : SharesRules b₀ b := by
  refine ⟨hw, hg, fun r n hr => ?_⟩
  rw [hempty] at hr
  cases hr

/-- When the candidates' turn comes, they are cut along bound dimensions only. -/
theorem shares_prepare (h₀ : b₀.Untouched) (hw : b₀.space.WellFounded)
    (hfree : ∀ (k : Nat) (d : Dimension), b₀.space.dimensions[k]? = some d → d.selectionField = none)
    (hempty : b₀.fieldOf = .empty) (ho : o.shareRules = true)
    (hrun : (prepare o .optimized rules).Gives b₀ u b') :
    SharesRules b₀ b' ∧ ∀ r ∈ rules, b'.space.RuleBound r := by
  simp only [prepare, gives_modify_bind] at hrun
  have hreset := Space.resetUses_countUses b₀.space rules
  have hclosed := Space.usesClosed_countUses hw rules
  have hw' : (b₀.space.countUses rules).WellFounded := hw.of_frame (Space.frame_of_reset hreset)
  have h : SharesRules b₀ { b₀ with space := b₀.space.countUses rules } :=
    sharesRules_of_empty hw' (.of_eq rfl rfl rfl) hempty
  have hunbound : Unbound (b₀.space.countUses rules) _ _ := .counted hfree
  obtain ⟨_, b₂, hbind, hcollect⟩ := gives_bind.mp hrun
  simp only [bindDimensions, gives_get_bind] at hbind
  obtain ⟨_, b₁, hall, harrange⟩ := gives_bind.mp hbind
  obtain ⟨h₁, hu⟩ := shares_bindAll h₀ ho hclosed _ _ b₁ _ h hunbound hall
  rw [gives_get_bind] at harrange
  have h₂ := shares_of_same h₁ ((stays_arrangeFields _).respects.imp Stays.grew harrange)
    (sameLedgers_arrangeFields _ harrange)
  have hbound : ∀ r ∈ rules, b₂.space.RuleBound r := by
    intro r hr part hpart p hp a ha
    rw [h₂.space] at hp ⊢
    obtain ⟨p', hp', -, haxes⟩ := Space.partition_of_frame hu.binds.frame.symm hp
    have hused := hclosed.named r hr part hpart p' hp' a (haxes ▸ ha)
    exact (hu.bound a.dimension hused).resolve_right List.not_mem_nil
  refine gives_forM_induct (fun b => SharesRules b₀ b ∧ ∀ r ∈ rules, b.space.RuleBound r)
    (fun r _ b b' hb hrun => ?_) ⟨h₂.sound, hbound⟩ hcollect
  obtain ⟨_, b₃, hfields, hpure⟩ := gives_bind.mp hrun
  obtain ⟨-, rfl⟩ := gives_pure.mp hpure
  obtain ⟨h₃, hspace⟩ := shares_collectFields hb.1 hfields
  rw [hspace]
  exact ⟨h₃, hb.2⟩

/-! ## Candidates -/

theorem shares_sharedCandidate (h₀ : b₀.Untouched) {new new' : NewFields} {r : Rule}
    (h : SharesRules b₀ b) (hr : b.space.RuleBound r)
    (hrun : (sharedCandidate o .optimized new r).Gives b new' b') : Shares b₀ b b' := by
  simp only [sharedCandidate, gives_get_bind] at hrun
  obtain ⟨name, b₁, hfield, hrun⟩ := gives_bind.mp hrun
  obtain ⟨hshares, -⟩ := shares_sharedField h₀ r b b₁ name h hr hfield
  rw [gives_get_bind] at hrun
  split at hrun
  · obtain ⟨-, rfl⟩ := gives_pure.mp hrun
    exact hshares
  · obtain ⟨_, b₂, hmark, hpure⟩ := gives_bind.mp hrun
    obtain ⟨-, rfl⟩ := gives_pure.mp hpure
    exact hshares.trans (shares_of_same hshares.sound ((stays_markCandidate _ _ _).respects.imp Stays.grew hmark)
      (sameLedgers_edit _ _ hmark))

theorem shares_layOut (h₀ : b₀.Untouched) (hw : b₀.space.WellFounded)
    (hfree : ∀ (k : Nat) (d : Dimension), b₀.space.dimensions[k]? = some d → d.selectionField = none)
    (hempty : b₀.fieldOf = .empty) (hmode : Mode.ofOptions o = .optimized)
    (hrun : (layOut o rules).Gives b₀ u b') : SharesRules b₀ b' := by
  have ho := shareRules_of_mode (o := o) (by rw [hmode]; decide)
  simp only [layOut, realize, hmode] at hrun
  obtain ⟨new, b₃, hrealize, harrange⟩ := gives_bind.mp hrun
  obtain ⟨_, b₁, hprepare, hrealize⟩ := gives_bind.mp hrealize
  obtain ⟨found, b₂, hcandidates, hmarks⟩ := gives_bind.mp hrealize
  have hcheck : ∀ b u b', (SharesRules b₀ b ∧ ∀ r ∈ rules, b.space.RuleBound r) →
      checkInterrupt.Gives b u b' → SharesRules b₀ b' ∧ ∀ r ∈ rules, b'.space.RuleBound r := by
    intro b u b' h hrun
    obtain ⟨h', hspace⟩ := shares_checkInterrupt h.1 hrun
    rw [hspace]
    exact ⟨h', h.2⟩
  have hcandidate : ∀ r ∈ rules, ∀ new new' b b',
      (SharesRules b₀ b ∧ ∀ r ∈ rules, b.space.RuleBound r) →
      (sharedCandidate o .optimized new r).Gives b new' b' →
        SharesRules b₀ b' ∧ ∀ r ∈ rules, b'.space.RuleBound r := by
    intro r hr new new' b b' h hrun
    have hshares := shares_sharedCandidate h₀ h.1 (h.2 r hr) hrun
    exact ⟨hshares.sound, fun x hx => hshares.ruleBound (h.2 x hx)⟩
  obtain ⟨h₂, -⟩ := gives_candidates_induct _ hcheck rules [] found b₁ b₂ hcandidate
    (shares_prepare h₀ hw hfree hempty ho hprepare) hcandidates
  have h₃ := shares_of_same h₂ (grew_markNew _ hmarks) (sameLedgers_markNew _ hmarks)
  obtain ⟨_, b₄, harrange, hpure⟩ := gives_bind.mp harrange
  obtain ⟨-, rfl⟩ := gives_pure.mp hpure
  exact (shares_of_same h₃.sound ((stays_arrangeFields _).respects.imp Stays.grew harrange)
    (sameLedgers_arrangeFields _ harrange)).sound

end Build

end FeatureSynth
