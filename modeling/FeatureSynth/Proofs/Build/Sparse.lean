/-
# Builds with blocks

A build with blocks goes through two stages.  First the dimensions are bound, by
shared fields, while no partition is linked; links would not survive it, since the
formula of a block of parts names the fields that dimensions are bound to.  Then the
candidates are realized, and links are set and stay.

So there are two invariants.  `Ready` is that of the first stage: nothing is linked,
and every name is that of a field in no block.  `Placed` is that of the second: every
name is that of a field in no block, or of the member it should be.
-/
import FeatureSynth.Proofs.Build.Members
import FeatureSynth.Proofs.Build.Path

namespace FeatureSynth

/-- Of every class: no field is both derived and a member, and blocks differ in formula. -/
structure Schema.Sharp (s : Schema) : Prop where
  apart : ∀ e ∈ s.entities, ∀ f ∈ e.fields, f.formula.isSome = true → f.block = none
  blocks_nodup : ∀ e ∈ s.entities, (e.blocks.map (·.formula)).Nodup

/-- The templates of the rules of dimensions are those of a catalogue under their names. -/
def Space.Over (s : Space) (ts : Catalogue) : Prop :=
  ∀ d ∈ s.dimensions, ∀ r, d.origin = .rule r → r.Over ts

namespace BuildState

variable {b b' : BuildState} {s : Space} {ts : Catalogue}

/-- Every name of a sound state is that of a field in no block, or of the member it should be. -/
structure Placed (s : Space) (ts : Catalogue) (b : BuildState) : Prop where
  sound : Sound s ts b
  said : b.Said Tells

namespace Placed

theorem of_links (h : Placed s ts b) (hl : Links b b') : Placed s ts b' where
  sound := h.sound.of_links hl
  said :=
    have hw : Writes s ts Tells 0 b b' := .of_links h.sound hl
    hw.said lasting_tells h.said

theorem of_writes {bound : Nat} (h : Placed s ts b) (hw : Writes s ts Tells bound b b') :
    Placed s ts b' :=
  ⟨hw.sound, hw.said lasting_tells h.said⟩

theorem of_stays (h : Placed s ts b) (hg : Stays b b') (hsame : Build.SameLedgers b b') :
    Placed s ts b' :=
  h.of_links (.of_stays h.sound.linked hg hsame.space hsame.fieldOf)

end Placed

/-- The name of a rule is that of a field in no block. -/
def TellsPlain (b : BuildState) (r : Rule) (n : String) : Prop := b.IsPlain r.className n

theorem lasting_tellsPlain : Lasting TellsPlain where
  onward := fun _ _ h _ _ => h.hasCore
  plain := fun _ _ _ => id

/-- Before blocks are built nothing is linked, and every name is that of a field in no block. -/
structure Ready (s : Space) (ts : Catalogue) (b : BuildState) : Prop where
  sound : Sound s ts b
  unlinked : b.space.Unlinked
  said : b.Said TellsPlain

namespace Ready

theorem placed (h : Ready s ts b) : Placed s ts b := ⟨h.sound, fun x n hx => .inl (h.said x n hx)⟩

theorem of_stays (h : Ready s ts b) (hg : Stays b b') (hspace : b'.space = b.space)
    (hfieldOf : b'.fieldOf = b.fieldOf) : Ready s ts b' := by
  have hl : Links b b' := .of_stays h.sound.linked hg hspace hfieldOf
  have hw : Writes s ts TellsPlain 0 b b' := .of_links h.sound hl
  exact
    { sound := h.sound.of_links hl
      unlinked := hspace ▸ h.unlinked
      said := hw.said lasting_tellsPlain h.said }

/-- While nothing is linked the space may change in what rules are not ordered by. -/
theorem of_space (h : Ready s ts b) {space : Space} (hcuts : b.space.SameCuts space)
    (hclear : space.Unlinked) : Ready s ts { b with space } where
  sound :=
    { wellFounded := h.sound.wellFounded
      wellShaped := h.sound.wellShaped
      linked := linked_of_unlinked h.sound.linked.entity_of_class h.sound.linked.indexes hclear
      sharp := h.sound.sharp
      cuts := h.sound.cuts.trans hcuts
      sorted := h.sound.sorted }
  unlinked := hclear
  said := h.said

end Ready

/-- The rules of the dimensions of a sound state are told apart. -/
theorem Sound.told_of_dimension (h : Sound s ts b) (hdims : s.Over ts) {d : Dimension} {r : Rule}
    (hd : d ∈ b.space.dimensions) (ho : d.origin = .rule r) : r.Told s ts := by
  obtain ⟨k, hk⟩ := List.mem_iff_getElem?.mp hd
  obtain ⟨d', hd', -, ho'⟩ := Space.dimension_of_frame h.cuts.frame.symm hk
  have hmem := List.mem_of_getElem? hd'
  exact ⟨h.wellShaped.named d' hmem r (ho'.trans ho), hdims d' hmem r (ho'.trans ho)⟩

/-- A state is ready at the start. -/
theorem ready_start (catalogue : Catalogue) (o : Options) {schema : Schema} (interrupt : Interrupt)
    (hschema : schema.compile = .ok ()) (hsharp : schema.Sharp) (hs : s.WellFounded)
    (hw : s.WellShaped) : Ready s ts (start catalogue o schema s interrupt) := by
  have hstart := accounted_start catalogue o s interrupt hschema
  have hclear := Space.unlinked_clearLinks s
  refine ⟨⟨hs, hw, ?_, ?_, Space.sameCuts_clearLinks s, Ledger.sorted_empty⟩, hclear, ?_⟩
  · exact linked_of_unlinked (fun _ _ => hstart.entity_of_class) hstart.indexes hclear
  · intro C e c he hc
    rw [class?_start, show schema.entity? C = some e from he] at hc
    cases hc
    have hmem := Schema.mem_of_entity? he
    exact sharp_collect catalogue schema (hsharp.apart e hmem) (hsharp.blocks_nodup e hmem)
  · intro x n hx
    cases hx

end BuildState

namespace Build

open BuildState

variable {b b' : BuildState} {s : Space} {ts : Catalogue} {o : Options} {u : Unit}

/-! ## Before the candidates -/

/-- To collect rules names none. -/
theorem ready_collectFields (hdims : s.Over ts) (h : Ready s ts b) {r : Rule} (hr : r.Told s ts)
    (hrun : (collectFields r).Gives b u b') : Ready s ts b' ∧ b'.space = b.space := by
  rw [collectFields, gives_modify, h.sound.cuts.compareCostName] at hrun
  subst hrun
  have htold : ∀ x ∈ b.space.subrules r, x.Told s ts :=
    Space.of_mem_subrules (Rule.hereditary_told s ts)
      (fun d hd x hx => h.sound.told_of_dimension hdims hd hx) hr
  have hsorted := Ledger.Sorted.foldl_enter h.sound.lawful _ _ h.sound.sorted htold
  exact ⟨⟨h.sound.note hsorted, h.unlinked,
    fun x n hx => h.said x n ((Ledger.mem_foldl_enter _ _).mp hx)⟩, rfl⟩

theorem ready_dimensionField (hdims : s.Over ts) (ho : o.shareRules = true) (h : Ready s ts b)
    {d : Dimension} (hd : d ∈ b.space.dimensions) {n : String}
    (hrun : (dimensionField o d).Gives b n b') : Ready s ts b' := by
  unfold dimensionField at hrun
  split at hrun
  · obtain ⟨-, rfl⟩ := gives_pure.mp hrun
    exact h
  · rename_i r hr
    rw [if_pos ho] at hrun
    obtain ⟨_, b₁, hcollect, hfield⟩ := gives_bind.mp hrun
    have htold := h.sound.told_of_dimension hdims hd hr
    obtain ⟨h₁, -⟩ := ready_collectFields hdims h htold hcollect
    obtain ⟨hwrites, -⟩ :=
      writes_sharedField lasting_tellsPlain r b₁ b' n h₁.sound htold hfield
    have hclear := closed_sharedField readyParts_keepsClear.toParts r hfield h₁.unlinked
    exact ⟨hwrites.sound, hclear, hwrites.said lasting_tellsPlain h₁.said⟩

theorem ready_bindDimension (hdims : s.Over ts) (ho : o.shareRules = true) {k : Nat}
    (h : Ready s ts b) (hrun : (bindDimension o k).Gives b u b') : Ready s ts b' := by
  obtain ⟨_, b₁, hcheck, hrun⟩ := gives_bind.mp hrun
  obtain ⟨-, rfl⟩ := gives_checkInterrupt.mp hcheck
  have h₁ : Ready s ts { b with interrupt := b.interrupt.look.2 } :=
    h.of_stays (.of_eq rfl rfl rfl) rfl rfl
  rw [gives_get_bind] at hrun
  split at hrun
  · obtain ⟨-, rfl⟩ := gives_pure.mp hrun
    exact h₁
  · rename_i d hd
    obtain ⟨name, b₂, hfield, hbind⟩ := gives_bind.mp hrun
    rw [gives_modify] at hbind
    subst hbind
    have h₂ := ready_dimensionField hdims ho h₁ (List.mem_of_getElem? hd) hfield
    refine h₂.of_space ⟨?_, rfl⟩ h₂.unlinked
    exact Space.frame_modifyDimension b₂.space k fun _ => ⟨rfl, rfl⟩

theorem ready_bindDimensions (hdims : s.Over ts) (ho : o.shareRules = true) (h : Ready s ts b)
    (hrun : (bindDimensions o).Gives b u b') : Ready s ts b' := by
  simp only [bindDimensions, gives_get_bind] at hrun
  obtain ⟨_, b₁, hall, harrange⟩ := gives_bind.mp hrun
  have h₁ := gives_forM_induct (Ready s ts)
    (fun _ _ _ _ hb hone => ready_bindDimension hdims ho hb hone) h hall
  rw [gives_get_bind] at harrange
  have hsame := sameLedgers_arrangeFields _ harrange
  exact h₁.of_stays ((stays_arrangeFields _).respects harrange) hsame.space hsame.fieldOf

theorem ready_prepare (hdims : s.Over ts) (ho : o.shareRules = true) {mode : Mode}
    {rules : List Rule} (hrules : ∀ r ∈ rules, r.Told s ts) (h : Ready s ts b)
    (hrun : (prepare o mode rules).Gives b u b') : Ready s ts b' := by
  simp only [prepare, gives_modify_bind] at hrun
  have hreset := Space.resetUses_countUses b.space rules
  have h₁ := h.of_space (Space.sameCuts_of_reset hreset) (Space.unlinked_of_reset hreset h.unlinked)
  obtain ⟨_, b₂, hbind, hcollect⟩ := gives_bind.mp hrun
  refine gives_forM_induct (Ready s ts) (fun r hr b b' hb hone => ?_)
    (ready_bindDimensions hdims ho h₁ hbind) hcollect
  obtain ⟨_, b₃, hfields, hblocks⟩ := gives_bind.mp hone
  obtain ⟨h₃, -⟩ := ready_collectFields hdims hb (hrules r hr) hfields
  split at hblocks
  · rw [collectBlocks, gives_modify] at hblocks
    subst hblocks
    exact h₃.of_stays (.of_eq rfl rfl rfl) rfl rfl
  · obtain ⟨-, rfl⟩ := gives_pure.mp hblocks
    exact h₃

/-! ## Candidates -/

theorem placed_sharedCandidate {new new' : NewFields} {mode : Mode} {r : Rule} (h : Placed s ts b)
    (hr : r.Fit s ts) (hrun : (sharedCandidate o mode new r).Gives b new' b') : Placed s ts b' := by
  simp only [sharedCandidate, gives_get_bind] at hrun
  obtain ⟨name, b₁, h₁, hrun⟩ : ∃ name b₁, Placed s ts b₁ ∧ (do
      let isNew := (b.fieldOf? r).isNone && (← get).isCreated r.className name
      if isNew && !new.has r.className name then return new ++ [(r, name)]
      else
        markCandidate r.className name r.cost
        return new : Build NewFields).Gives b₁ new' b' := by
    split at hrun
    · obtain ⟨name, b₁, hfield, hrun⟩ := gives_bind.mp hrun
      obtain ⟨hwrites, -⟩ := writes_sparseField r b b₁ name h.sound h.said hr hfield
      exact ⟨name, b₁, h.of_writes hwrites, hrun⟩
    · obtain ⟨name, b₁, hfield, hrun⟩ := gives_bind.mp hrun
      obtain ⟨hwrites, -⟩ := writes_sharedField lasting_tells r b b₁ name h.sound hr.told hfield
      exact ⟨name, b₁, h.of_writes hwrites, hrun⟩
  rw [gives_get_bind] at hrun
  dsimp only at hrun
  split at hrun
  · obtain ⟨-, rfl⟩ := gives_pure.mp hrun
    exact h₁
  · obtain ⟨_, b₂, hmark, hpure⟩ := gives_bind.mp hrun
    obtain ⟨-, rfl⟩ := gives_pure.mp hpure
    exact h₁.of_stays ((stays_markCandidate _ _ _).respects hmark) (sameLedgers_edit _ _ hmark)

theorem placed_layOut (hdims : s.Over ts) (hmode : Mode.ofOptions o = .sparse) {rules : List Rule}
    (hrules : ∀ r ∈ rules, r.Fit s ts) (h : Ready s ts b) (hrun : (layOut o rules).Gives b u b') :
    Placed s ts b' := by
  have ho := shareRules_of_mode (o := o) (by rw [hmode]; decide)
  simp only [layOut, realize, hmode] at hrun
  obtain ⟨new, b₃, hrealize, harrange⟩ := gives_bind.mp hrun
  obtain ⟨_, b₁, hprepare, hrealize⟩ := gives_bind.mp hrealize
  obtain ⟨found, b₂, hcandidates, hmarks⟩ := gives_bind.mp hrealize
  have hcheck : ∀ b u b', Placed s ts b → checkInterrupt.Gives b u b' → Placed s ts b' := by
    intro b u b' h hrun
    obtain ⟨-, rfl⟩ := gives_checkInterrupt.mp hrun
    exact h.of_stays (.of_eq rfl rfl rfl) ⟨rfl, rfl, rfl⟩
  have h₁ := (ready_prepare hdims ho (fun r hr => (hrules r hr).told) h hprepare).placed
  have h₂ := gives_candidates_induct (Placed s ts) hcheck rules [] found b₁ b₂
    (fun r hr new new' b b' hb hone => placed_sharedCandidate hb (hrules r hr) hone) h₁ hcandidates
  have h₃ := h₂.of_stays (stays_markNew _ hmarks) (sameLedgers_markNew _ hmarks)
  obtain ⟨_, b₄, hfields, hblocks⟩ := gives_bind.mp harrange
  have h₄ := h₃.of_stays ((stays_arrangeFields _).respects hfields)
    (sameLedgers_arrangeFields _ hfields)
  split at hblocks
  · exact h₄.of_stays (stays_arrangeBlocks.respects hblocks) (sameLedgers_arrangeBlocks hblocks)
  · obtain ⟨-, rfl⟩ := gives_pure.mp hblocks
    exact h₄

end Build

section Whole

open BuildState

variable {catalogue ts : Catalogue} {o : Options} {schema : Schema} {space : Space}
variable {rules : List Rule} {interrupt : Interrupt} {b : BuildState}

/-- At the end of a build with blocks every name of the ledger is that of a field in no block, or of
the member it should be. -/
theorem placed_runBuild (hmode : Mode.ofOptions o = .sparse) (hschema : schema.compile = .ok ())
    (hsharp : schema.Sharp) (hspace : space.WellFounded) (hshaped : space.WellShaped)
    (hdims : space.Over ts) (hrules : ∀ r ∈ rules, r.Fit space ts)
    (hbuild : runBuild catalogue o schema space rules interrupt = (.ok (), b)) :
    Placed space ts b := by
  obtain ⟨b₁, hlay, rfl, -⟩ := runBuild_eq_ok hbuild
  have hstart : Ready space ts (start catalogue o schema space interrupt) :=
    ready_start catalogue o interrupt hschema hsharp hspace hshaped
  exact (Build.placed_layOut hdims hmode hrules hstart hlay).of_stays (grows_annotate o b₁)
    ⟨rfl, rfl, rfl⟩

end Whole

end FeatureSynth
