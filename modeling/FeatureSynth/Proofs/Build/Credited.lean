/-
# Created fields are new or in the ledger

Without blocks there are two ways for a field to come about.  Where fields are not shared,
it is the field of the candidate that has its turn, and counted.  Where they are, it is
the shared field of some rule, and the ledger has it for the rule ever after; the rule may
be an operand of a candidate, or belong to a dimension.  So once the new fields and those of
the ledger are moved, no created field is left where it was made.
-/
import FeatureSynth.Proofs.Build.Bind
import FeatureSynth.Proofs.Build.Cap
import FeatureSynth.Proofs.Build.Prolonged

namespace FeatureSynth

namespace BuildState

variable {b₀ b b' b'' : BuildState} {p : FieldPath}

/-- A field is the shared one of some rule of its class that the ledger has a name for. -/
def Credited (b : BuildState) (p : FieldPath) : Prop :=
  ∃ r, b.Named r ∧ b.Holds r p.name ∧ r.className = p.className

/-- Fields created on the way are credited at its end. -/
def Credits (b b' : BuildState) : Prop := ∀ p ∈ b'.createdFields, p ∈ b.createdFields ∨ b'.Credited p

/-- All created fields are credited. -/
def AllCredited (b : BuildState) : Prop := ∀ p ∈ b.createdFields, b.Credited p

theorem Shares.credited (h : Shares b₀ b b') (hp : b.Credited p) : b'.Credited p := by
  obtain ⟨r, hnamed, hholds, hclass⟩ := hp
  exact ⟨r, h.named r hnamed, h.holds hholds, hclass⟩

theorem Credits.of_eq (h : b'.createdFields = b.createdFields) : Credits b b' :=
  fun _ hp => .inl (h ▸ hp)

theorem Credits.trans (h : Credits b b') (hshares : Shares b₀ b' b'') (h' : Credits b' b'') :
    Credits b b'' := by
  intro p hp
  rcases h' p hp with hold | hnew
  · exact (h p hold).imp id hshares.credited
  · exact .inr hnew

namespace AllCredited

theorem of_credits (h : b.AllCredited) (hshares : Shares b₀ b b') (hcredits : Credits b b') :
    b'.AllCredited :=
  fun p hp => (hcredits p hp).elim (fun hold => hshares.credited (h p hold)) id

/-- A step that names no rule and makes nothing. -/
theorem keep (h : b.AllCredited) (hg : Grew b b') (hs : b.space.Binds b'.space)
    (hentries : ∀ r n, (r, some n) ∈ b'.fieldOf.entries ↔ (r, some n) ∈ b.fieldOf.entries)
    (hfields : b'.createdFields = b.createdFields) : b'.AllCredited := by
  have hnamed : ∀ x, b.Named x → b'.Named x := by
    rintro x ⟨y, m, hy, halike⟩
    exact ⟨y, m, (hentries y m).mpr hy, halike⟩
  intro p hp
  obtain ⟨r, hr, hholds, hclass⟩ := h p (hfields ▸ hp)
  exact ⟨r, hnamed r hr, hholds.mono hg hs hnamed, hclass⟩

end AllCredited

end BuildState

namespace Build

open BuildState

variable {o : Options} {b₀ b₁ b b' : BuildState} {r : Rule} {n : String} {u : Unit}
variable {rules : List Rule} {new : NewFields} {turns : List (Rule × String)} {p : FieldPath}

/-! ## Shared fields -/

theorem credits_formulaField (h₀ : b₀.Untouched) (h : SharesRules b₀ b) {xs : List Operand}
    (hbound : b.space.RuleBound r) (hxs : b.sharedOperands? r.operands = some xs)
    (hoperands : ∀ inner, .rule inner ∈ r.operands → b.Named inner)
    (hrun : (formulaField r (r.template.formula xs)).Gives b n b') : Credits b b' := by
  obtain ⟨-, hholds, hnamed⟩ := shares_formulaField h₀ h hbound hxs hoperands hrun
  intro p hp
  rcases (derives_formulaField hrun).mem_created hp with hold | rfl
  · exact .inl hold
  · exact .inr ⟨r, hnamed, hholds, rfl⟩

mutual

/-- What is made on the way to a shared field is credited. -/
theorem credits_sharedField (h₀ : b₀.Untouched) : ∀ (r : Rule) (b b' : BuildState) (n : String),
    SharesRules b₀ b → b.space.RuleBound r → (sharedField r).Gives b n b' → Credits b b'
  | ⟨template, className, operands, cost, tieBreak⟩, b, b', n, h, hbound, hrun => by
      rw [sharedField, gives_get_bind] at hrun
      split at hrun
      · obtain ⟨-, rfl⟩ := gives_pure.mp hrun
        exact .of_eq rfl
      · obtain ⟨xs, b₁, hxs, hrun⟩ := gives_bind.mp hrun
        have hcredits := credits_sharedOperands h₀ operands b b₁ xs h hbound hxs
        obtain ⟨hshares, hxs, hoperands⟩ :=
          shares_sharedOperands h₀ operands b b₁ xs h hbound hxs
        have hbound₁ := hshares.ruleBound hbound
        obtain ⟨hshares', -⟩ := shares_formulaField h₀ hshares.sound hbound₁ hxs hoperands hrun
        exact hcredits.trans hshares'
          (credits_formulaField h₀ hshares.sound hbound₁ hxs hoperands hrun)

theorem credits_sharedOperands (h₀ : b₀.Untouched) :
    ∀ (operands : List (RuleOperand Rule)) (b b' : BuildState) (xs : List Operand),
      SharesRules b₀ b → (∀ p ∈ Rule.partsList operands, b.space.PartBound p) →
      (sharedOperands operands).Gives b xs b' → Credits b b'
  | [], b, b', xs, h, _, hrun => by
      rw [sharedOperands, gives_pure] at hrun
      exact .of_eq (congrArg _ hrun.2)
  | .field name type :: rest, b, b', xs, h, hbound, hrun => by
      rw [sharedOperands, gives_bind] at hrun
      obtain ⟨ys, b₁, hrest, hpure⟩ := hrun
      obtain ⟨-, rfl⟩ := gives_pure.mp hpure
      exact credits_sharedOperands h₀ rest b _ ys h hbound hrest
  | .rule inner :: rest, b, b', xs, h, hbound, hrun => by
      rw [sharedOperands, gives_bind] at hrun
      obtain ⟨name, b₁, hfield, hrun⟩ := hrun
      obtain ⟨ys, b₂, hrest, hpure⟩ := gives_bind.mp hrun
      obtain ⟨-, rfl⟩ := gives_pure.mp hpure
      have hinner : b.space.RuleBound inner := fun p hp => hbound p (List.mem_append_left _ hp)
      obtain ⟨hshares, -⟩ := shares_sharedField h₀ inner b b₁ name h hinner hfield
      have hbound₁ : ∀ p ∈ Rule.partsList rest, b₁.space.PartBound p := fun p hp => by
        rw [hshares.space]
        exact hbound p (List.mem_append_right _ hp)
      obtain ⟨hshares', -⟩ := shares_sharedOperands h₀ rest b₁ _ ys hshares.sound hbound₁ hrest
      exact (credits_sharedField h₀ inner b b₁ name h hinner hfield).trans hshares'
        (credits_sharedOperands h₀ rest b₁ _ ys hshares.sound hbound₁ hrest)
  | .part part :: rest, b, b', xs, h, hbound, hrun => by
      rw [sharedOperands, gives_get_bind, gives_lift_bind] at hrun
      obtain ⟨f, hf, hrun⟩ := hrun
      obtain ⟨ys, b₁, hrest, hpure⟩ := gives_bind.mp hrun
      obtain ⟨-, rfl⟩ := gives_pure.mp hpure
      exact credits_sharedOperands h₀ rest b _ ys h
        (fun p hp => hbound p (List.mem_cons_of_mem _ hp)) hrest

end

/-! ## Before the candidates -/

theorem credited_collectFields (h : b.AllCredited) (hrun : (collectFields r).Gives b u b') :
    b'.AllCredited := by
  rw [collectFields, gives_modify] at hrun
  subst hrun
  exact h.keep (.of_eq rfl rfl rfl) (.refl _) (fun _ _ => Ledger.mem_foldl_enter _ _) rfl

theorem credited_dimensionField (h₀ : b₀.Untouched) (ho : o.shareRules = true) {d : Dimension}
    (h : SharesRules b₀ b) (hall : b.AllCredited)
    (hrule : ∀ r, d.origin = .rule r → b.space.RuleBound r)
    (hrun : (dimensionField o d).Gives b n b') : b'.AllCredited := by
  unfold dimensionField at hrun
  split at hrun
  · obtain ⟨-, rfl⟩ := gives_pure.mp hrun
    exact hall
  · rename_i r hr
    rw [if_pos ho] at hrun
    obtain ⟨_, b₁, hcollect, hfield⟩ := gives_bind.mp hrun
    obtain ⟨h₁, hspace⟩ := shares_collectFields h hcollect
    have hbound : b₁.space.RuleBound r := by
      rw [hspace]
      exact hrule r hr
    obtain ⟨hshares, -⟩ := shares_sharedField h₀ r b₁ b' n h₁ hbound hfield
    exact (credited_collectFields hall hcollect).of_credits hshares
      (credits_sharedField h₀ r b₁ b' n h₁ hbound hfield)

theorem credited_bindDimension (h₀ : b₀.Untouched) (ho : o.shareRules = true) {k : Nat}
    (h : SharesRules b₀ b) (hall : b.AllCredited)
    (hfree : ∀ d, b.space.dimensions[k]? = some d → d.selectionField = none)
    (hrule : ∀ d r, b.space.dimensions[k]? = some d → d.origin = .rule r → b.space.RuleBound r)
    (hrun : (bindDimension o k).Gives b u b') : b'.AllCredited := by
  obtain ⟨_, b₁, hcheck, hrun⟩ := gives_bind.mp hrun
  obtain ⟨h₁, hspace₁⟩ := shares_checkInterrupt h hcheck
  obtain ⟨-, rfl⟩ := gives_checkInterrupt.mp hcheck
  have hall₁ : AllCredited { b with interrupt := b.interrupt.look.2 } :=
    hall.keep (.of_eq rfl rfl rfl) (.refl _) (fun _ _ => Iff.rfl) rfl
  rw [gives_get_bind] at hrun
  split at hrun
  · rw [(gives_pure.mp hrun).2]
    exact hall₁
  · rename_i d hd
    obtain ⟨name, b₂, hfield, hbind⟩ := gives_bind.mp hrun
    rw [gives_modify] at hbind
    subst hbind
    have hrule₁ := fun r hr => hrule d r hd hr
    obtain ⟨-, hspace₂⟩ := shares_dimensionField h₀ ho h₁ hrule₁ hfield
    refine (credited_dimensionField h₀ ho h₁ hall₁ hrule₁ hfield).keep (.of_eq rfl rfl rfl)
      (.of_modify ?_) (fun _ _ => Iff.rfl) rfl
    rw [hspace₂]
    exact hfree

theorem credited_bindAll (h₀ : b₀.Untouched) (ho : o.shareRules = true) {s : Space}
    (hclosed : s.UsesClosed rules) : ∀ (ranks : List Nat) (b b' : BuildState) (u : Unit),
      SharesRules b₀ b → b.AllCredited → Unbound s ranks b →
      (forM ranks (bindDimension o)).Gives b u b' → b'.AllCredited
  | [], b, b', u, _, hall, _, hrun => by
      rw [gives_forM_nil.mp hrun]
      exact hall
  | k :: ranks, b, b', u, h, hall, hu, hrun => by
      obtain ⟨b₁, hone, hrest⟩ := gives_forM_cons.mp hrun
      have hfree := hu.free k List.mem_cons_self
      have hrule := fun d r hd hr => hu.ruleBound h.wellFounded hclosed (d := d) (r := r) hd hr
      obtain ⟨h₁, hbinds, hk, hothers⟩ := shares_bindDimension h₀ ho h hfree hrule hone
      exact credited_bindAll h₀ ho hclosed ranks b₁ b' u h₁
        (credited_bindDimension h₀ ho h hall hfree hrule hone) (hu.step hbinds hk hothers) hrest

theorem credited_prepare (h₀ : b₀.Untouched) (hw : b₀.space.WellFounded)
    (hfree : ∀ (k : Nat) (d : Dimension), b₀.space.dimensions[k]? = some d → d.selectionField = none)
    (hempty : b₀.fieldOf = .empty) (ho : o.shareRules = true)
    (hrun : (prepare o .optimized rules).Gives b₀ u b') : b'.AllCredited := by
  simp only [prepare, gives_modify_bind] at hrun
  have hclosed := Space.usesClosed_countUses hw rules
  have hw' : (b₀.space.countUses rules).WellFounded :=
    hw.of_frame (Space.frame_of_reset (Space.resetUses_countUses b₀.space rules))
  have h : SharesRules b₀ { b₀ with space := b₀.space.countUses rules } :=
    sharesRules_of_empty hw' (.of_eq rfl rfl rfl) hempty
  have hnone : AllCredited { b₀ with space := b₀.space.countUses rules } := by
    intro p hp
    rw [show _ = [] from h₀.no_created] at hp
    cases hp
  obtain ⟨_, b₂, hbind, hcollect⟩ := gives_bind.mp hrun
  simp only [bindDimensions, gives_get_bind] at hbind
  obtain ⟨_, b₁, hloop, harrange⟩ := gives_bind.mp hbind
  have hunbound : Unbound (b₀.space.countUses rules) _ _ := .counted hfree
  obtain ⟨h₁, -⟩ := shares_bindAll h₀ ho hclosed _ _ b₁ _ h hunbound hloop
  have hall := credited_bindAll h₀ ho hclosed _ _ b₁ _ h hnone hunbound hloop
  rw [gives_get_bind] at harrange
  have hshares := shares_of_same h₁ ((stays_arrangeFields _).respects.imp Stays.grew harrange)
    (sameLedgers_arrangeFields _ harrange)
  have hall₂ : b₂.AllCredited := hall.of_credits hshares
    (.of_eq (createdFields_arrangeFields harrange))
  refine gives_forM_induct AllCredited (fun r _ b b' hb hrun => ?_) hall₂ hcollect
  obtain ⟨_, b₃, hfields, hpure⟩ := gives_bind.mp hrun
  obtain ⟨-, rfl⟩ := gives_pure.mp hpure
  exact credited_collectFields hb hfields

/-! ## Turns -/

/-- Where fields are shared, all created ones are credited after each turn. -/
theorem Turns.credited (h₀ : b₀.Untouched) (hmode : Mode.ofOptions o = .optimized)
    (h : Turns o b₁ turns new b) (hshares : SharesRules b₀ b₁) (hall : b₁.AllCredited)
    (hbound : ∀ turn ∈ turns, b₁.space.RuleBound turn.1) :
    SharesRules b₀ b ∧ b.space = b₁.space ∧ b.AllCredited := by
  induction h with
  | start => exact ⟨hshares, rfl, hall⟩
  | @turn turns new new' b b₂ b' r n before check room one ih =>
    obtain ⟨h₁, hspace₁, hall₁⟩ := ih fun turn hturn => hbound turn (List.mem_append_left _ hturn)
    obtain ⟨h₂, hspace₂⟩ := shares_checkInterrupt h₁ check
    obtain ⟨-, rfl⟩ := gives_checkInterrupt.mp check
    have hall₂ : AllCredited { b with interrupt := b.interrupt.look.2 } :=
      hall₁.keep (.of_eq rfl rfl rfl) (.refl _) (fun _ _ => Iff.rfl) rfl
    have hr : b.space.RuleBound r := by
      rw [hspace₁]
      exact hbound (r, n) (List.mem_append_right _ (List.mem_singleton_self _))
    have hfield : ∀ {b₃}, (candidateField o r).Gives { b with interrupt := b.interrupt.look.2 } n b₃ →
        SharesRules b₀ b₃ ∧ b₃.space = b₁.space ∧ b₃.AllCredited := by
      intro b₃ hrun
      simp only [candidateField, hmode] at hrun
      obtain ⟨hshares₃, -⟩ := shares_sharedField h₀ r _ _ n h₂ hr hrun
      exact ⟨hshares₃.sound, hshares₃.space.trans hspace₁,
        hall₂.of_credits hshares₃ (credits_sharedField h₀ r _ _ n h₂ hr hrun)⟩
    cases one with
    | counted field => exact hfield field
    | repeated field => exact hfield field
    | marked field mark =>
      obtain ⟨h₃, hspace₃, hall₃⟩ := hfield field
      have hmark := shares_of_same h₃ ((stays_markCandidate _ _ _).respects.imp Stays.grew mark)
        (sameLedgers_edit _ _ mark)
      exact ⟨hmark.sound, hmark.space.trans hspace₃,
        hall₃.of_credits hmark (.of_eq (taken_of_mark mark).2)⟩

/-- Where they are not, what is created after the start is new. -/
theorem Turns.created_new (hmode : Mode.ofOptions o = .standard) (h : Turns o b₁ turns new b)
    (hp : p ∈ b.createdFields) : p ∈ b₁.createdFields ∨ p ∈ new.paths := by
  induction h with
  | start => exact .inl hp
  | @turn turns new new' b b₂ b' r n before check room one ih =>
    obtain ⟨-, rfl⟩ := gives_checkInterrupt.mp check
    have hsub := one.paths_subset
    have hfield : ∀ {b₃}, (candidateField o r).Gives { b with interrupt := b.interrupt.look.2 } n b₃ →
        p ∈ b₃.createdFields → (p ∈ b₁.createdFields ∨ p ∈ new'.paths) ∨ p = ⟨r.className, n⟩ := by
      intro b₃ hrun hp
      simp only [candidateField, hmode] at hrun
      exact ((derives_directField hrun).mem_created hp).imp_left fun hold =>
        (ih hold).imp_right fun hnew => hsub hnew
    cases one with
    | counted field =>
      refine (hfield field hp).elim id fun heq => .inr ?_
      rw [heq, NewFields.paths, List.map_append]
      exact List.mem_append_right _ (List.mem_singleton_self _)
    | repeated field _ again =>
      exact (hfield field hp).elim id fun heq => .inr (heq ▸ has_iff_mem_paths.mp again)
    | marked field mark cause =>
      rw [(taken_of_mark mark).2] at hp
      refine (hfield field hp).elim id fun heq => .inr ?_
      subst heq
      refine has_iff_mem_paths.mp ((cause ?_).resolve_right fun hshared => hshared.1 hmode)
      simpa [isCreated] using hp

/-! ## What is moved at the end -/

/-- A credited field is in the ledger. -/
theorem mem_ledgerFields_of_credited (h : SharesRules b₀ b) (hp : p ∈ b.createdFields)
    (hcredited : b.Credited p) : p ∈ ledgerFields b := by
  obtain ⟨r, ⟨x, m, hx, halike⟩, hholds, hclass⟩ := hcredited
  have hshared := ((h.holds x m hx).congr halike).shared
  obtain rfl : m = p.name := Option.some.inj (hshared.symm.trans hholds.shared)
  obtain ⟨C, n⟩ := p
  obtain rfl : x.className = C := (Rule.className_eq_of_signature halike.signature).trans hclass
  exact mem_ledgerFields_of_entry hx hp

end Build

end FeatureSynth
