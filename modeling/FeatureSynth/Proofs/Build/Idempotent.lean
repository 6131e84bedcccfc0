/-
# A build on its own output

Whatever is common to the dimensions and the candidates of a build is asked for rule by
rule, so a second run on the schema the first one left goes through the same requests in
the same order.  It finds what it asks for, and so marks every candidate at once: there
is nothing new to be laid out, and the schema stays as it was laid out by the first run.

Each stage is taken again here.  The two runs differ in the result of a candidate, which
is new in the first run only, and in what is moved.  All of it rests on rules that are
checked, those of dimensions too: a formula that does not fit its operands is written to
the schema, but is not found there again.
-/
import FeatureSynth.Proofs.Build.Coherent
import FeatureSynth.Proofs.Build.FollowBlocks
import FeatureSynth.Proofs.Build.Marks

namespace FeatureSynth

namespace Build

open BuildState

variable {s : Space} {last b b' c : BuildState} {o : Options} {u : Unit}

theorem follows_of_sameLedgers (h : Follows last b c) (hsame : SameLedgers b b') :
    Follows last b' c where
  space := by rw [hsame.space]; exact h.space
  registry := h.registry
  schema := h.schema
  fieldOf := h.fieldOf.trans hsame.fieldOf.symm
  blockOf := by rw [hsame.blockOf]; exact h.blockOf
  fields := h.fields
  blocks := h.blocks
  interrupt := h.interrupt

/-- What only marks and moves in the first run is nothing in the second. -/
theorem again_of_stays (h : Typed s last b) (hg : Stays b b') (hsame : SameLedgers b b')
    {m : Build Unit} (hm : ∀ c, Follows last b c → m.Gives c () c) : Again s last m b () b' where
  typed := h.of_stays hg hsame.space hsame.fieldOf
  again := fun c hc => ⟨c, hm c hc, follows_of_sameLedgers hc hsame⟩

/-- A loop is taken again if its rounds are. -/
theorem again_forM {α : Type} {f : α → Build Unit} (P : BuildState → Prop)
    (hgrew : ∀ x, Respects Grew (f x)) :
    ∀ (xs : List α) (b b' : BuildState) (u : Unit), (∀ x ∈ xs, ∀ b b', P b → Typed s last b →
      Grew b' last → (f x).Gives b () b' → Again s last (f x) b () b' ∧ P b') →
    P b → Typed s last b → Grew b' last → (forM xs f).Gives b u b' →
      Again s last (forM xs f) b () b' ∧ P b'
  | [], b, b', _, _, hP, h, _, hrun => by
      rw [gives_forM_nil.mp hrun]
      exact ⟨.pure h _, hP⟩
  | x :: xs, b, b', _, hstep, hP, h, hlast, hrun => by
      obtain ⟨b₁, hone, hrest⟩ := gives_forM_cons.mp hrun
      have hlast₁ : Grew b₁ last := (closed_grew.forM (fun y _ => hgrew y) hrest).trans hlast
      obtain ⟨hagain, hP₁⟩ := hstep x List.mem_cons_self b b₁ hP h hlast₁ hone
      obtain ⟨hagain', hP'⟩ := again_forM P hgrew xs b₁ b' _
        (fun y hy => hstep y (List.mem_cons_of_mem _ hy)) hP₁ hagain.typed hlast hrest
      rw [List.forM_cons]
      exact ⟨hagain.bind hagain', hP'⟩

/-! ## Ledgers -/

theorem again_checkInterrupt (h : Typed s last b) (hrun : checkInterrupt.Gives b u b') :
    Again s last checkInterrupt b () b' := by
  obtain ⟨-, rfl⟩ := gives_checkInterrupt.mp hrun
  refine ⟨h.of_stays (.of_eq rfl rfl rfl) rfl rfl, fun c hc =>
    ⟨_, gives_checkInterrupt.mpr ⟨by rw [hc.interrupt]; rfl, rfl⟩, ?_⟩⟩
  refine ⟨hc.space, hc.registry, hc.schema, hc.fieldOf, hc.blockOf, hc.fields, hc.blocks, ?_⟩
  show c.interrupt.look.2 = .never
  rw [hc.interrupt]
  rfl

/-- The same rules are entered. -/
theorem again_collectFields (h : Typed s last b) {r : Rule}
    (hrun : (collectFields r).Gives b u b') : Again s last (collectFields r) b () b' := by
  rw [collectFields, gives_modify] at hrun
  subst hrun
  refine ⟨h.note fun x n hx => h.noted x n ((Ledger.mem_foldl_enter _ _).mp hx),
    fun c hc => ⟨_, gives_modify.mpr rfl, ?_⟩⟩
  refine ⟨hc.space, hc.registry, hc.schema, ?_, hc.blockOf, hc.fields, hc.blocks, hc.interrupt⟩
  rw [hc.fieldOf, hc.space.subrules, hc.space.compareCostName]

theorem again_collectBlocks (h : Typed s last b) {r : Rule}
    (hrun : (collectBlocks r).Gives b u b') : Again s last (collectBlocks r) b () b' := by
  rw [collectBlocks, gives_modify] at hrun
  subst hrun
  refine ⟨h.of_stays (.of_eq rfl rfl rfl) rfl rfl, fun c hc => ⟨_, gives_modify.mpr rfl, ?_⟩⟩
  refine ⟨hc.space, hc.registry, hc.schema, hc.fieldOf, ?_, hc.fields, hc.blocks, hc.interrupt⟩
  rw [hc.space.blockRules, hc.space.compareBlock]
  exact Ledger.foldl_enter_nameless _ _ _ hc.blockOf

/-! ## Order -/

/-- Where nothing was created there is nothing to move. -/
theorem arrangeFields_of_none (h : c.createdFields = []) : (arrangeFields []).Gives c () c := by
  have hledger : ledgerFields c = [] := by
    refine List.filterMap_eq_nil_iff.mpr fun entry _ => ?_
    cases entry.2 <;> simp [isCreated, h]
  rw [arrangeFields, gives_get_bind, hledger, List.nil_append, moveFields, gives_pure]
  exact ⟨rfl, rfl⟩

theorem again_arrangeFields (h : Typed s last b) {new : List FieldPath}
    (hrun : (arrangeFields new).Gives b u b') : Again s last (arrangeFields []) b () b' :=
  again_of_stays h ((stays_arrangeFields new).respects hrun) (sameLedgers_arrangeFields new hrun)
    fun _ hc => arrangeFields_of_none hc.fields

/-- Where no block has a name there is nothing to move. -/
theorem again_arrangeBlocks (h : Typed s last b) (hrun : arrangeBlocks.Gives b u b') :
    Again s last arrangeBlocks b () b' :=
  again_of_stays h (stays_arrangeBlocks.respects hrun) (sameLedgers_arrangeBlocks hrun)
    fun c hc => by
      have hbuilt : c.blockOf.entries.filter (·.2.isSome) = [] := by
        rw [hc.blockOf, List.filter_map, List.map_eq_nil_iff]
        exact List.filter_eq_nil_iff.mpr fun _ _ => by simp
      simp [arrangeBlocks, hbuilt]

/-! ## Before the candidates -/

/-- A rule of a dimension of the space in work is one of the space at the start. -/
theorem grounded_of_dimension (hdims : s.Grounded last.schema) (h : Typed s last b) {d : Dimension}
    (hd : d ∈ b.space.dimensions) {r : Rule} (ho : d.origin = .rule r) :
    r.Grounded s last.schema := by
  obtain ⟨k, hk⟩ := List.mem_iff_getElem?.mp hd
  obtain ⟨d', hd', -, ho'⟩ := Space.dimension_of_frame h.cuts.frame.symm hk
  exact hdims d' (List.mem_of_getElem? hd') r (ho'.trans ho)

theorem again_dimensionField (hs : s.WellFounded) (hmade : last.Made)
    (hdims : s.Grounded last.schema) (ho : o.shareRules = true) (h : Typed s last b) {d : Dimension}
    (hd : d ∈ b.space.dimensions) {n : String} (hlast : Grew b' last)
    (hrun : (dimensionField o d).Gives b n b') : Again s last (dimensionField o d) b n b' := by
  unfold dimensionField at hrun ⊢
  cases hr : d.origin with
  | field name type =>
    rw [hr] at hrun
    obtain ⟨rfl, rfl⟩ := gives_pure.mp hrun
    exact .pure h _
  | rule r =>
    simp only [hr, if_pos ho] at hrun ⊢
    obtain ⟨_, b₁, hcollect, hfield⟩ := gives_bind.mp hrun
    have hagain := again_collectFields h hcollect
    exact hagain.bind (again_sharedField hs hmade r b₁ b' n hagain.typed
      (grounded_of_dimension hdims h hd hr) hlast hfield).1

/-- While nothing is linked a dimension is bound to the same field. -/
theorem again_bindDimension (hs : s.WellFounded) (hmade : last.Made)
    (hdims : s.Grounded last.schema) (ho : o.shareRules = true) (h : Typed s last b)
    (hclear : b.space.Unlinked) {rank : Nat} (hlast : Grew b' last)
    (hrun : (bindDimension o rank).Gives b u b') :
    Again s last (bindDimension o rank) b () b' ∧ b'.space.Unlinked := by
  refine ⟨?_, closed_bindDimension readyParts_keepsClear.toBindParts o rank hrun hclear⟩
  obtain ⟨_, b₁, hcheck, hrun⟩ := gives_bind.mp hrun
  have hagain := again_checkInterrupt h hcheck
  have hclear₁ := closed_checkInterrupt readyParts_keepsClear.toParts hcheck hclear
  refine hagain.bind ?_
  rw [gives_get_bind] at hrun
  refine .get_bind ?_ fun c hc => by rw [hc.space.there.dimensions]
  cases hd : b₁.space.dimensions[rank]? with
  | none =>
    rw [hd] at hrun
    obtain ⟨-, rfl⟩ := gives_pure.mp hrun
    exact .pure hagain.typed _
  | some d =>
    rw [hd] at hrun
    obtain ⟨name, b₂, hfield, hbind⟩ := gives_bind.mp hrun
    rw [gives_modify] at hbind
    subst hbind
    have hlast₂ : Grew b₂ last := by
      refine Grew.trans ?_ hlast
      exact .of_eq rfl rfl rfl
    have hclear₂ := closed_dimensionField readyParts_keepsClear.toBindParts o d hfield hclear₁
    have hagain₂ := again_dimensionField hs hmade hdims ho hagain.typed
      (List.mem_of_getElem? hd) hlast₂ hfield
    refine hagain₂.bind ⟨hagain₂.typed.of_space ⟨?_, rfl⟩ ?_ hclear₂, fun c hc =>
      ⟨_, gives_modify.mpr rfl, follows_of_space hc (hc.space.modifyDimension rank _)⟩⟩
    · exact Space.frame_modifyDimension b₂.space rank fun _ => ⟨rfl, rfl⟩
    · exact Space.map_modify_of_comp (g := Dimension.levels)
        (f := fun d => { d with selectionField := some name }) (fun _ => rfl) _ rank

theorem again_bindDimensions (hs : s.WellFounded) (hmade : last.Made)
    (hdims : s.Grounded last.schema) (ho : o.shareRules = true) (h : Typed s last b)
    (hclear : b.space.Unlinked) (hlast : Grew b' last) (hrun : (bindDimensions o).Gives b u b') :
    Again s last (bindDimensions o) b () b' := by
  simp only [bindDimensions, gives_get_bind] at hrun
  obtain ⟨_, b₁, hall, harrange⟩ := gives_bind.mp hrun
  rw [gives_get_bind] at harrange
  have hlast₁ : Grew b₁ last := (Stays.grew ((stays_arrangeFields _).respects harrange)).trans hlast
  obtain ⟨hagain, -⟩ := again_forM (fun b => b.space.Unlinked)
    (fun rank => closed_bindDimension firstParts_grew.toBindParts o rank) b.space.usedDimensions b b₁ _
    (fun _ _ _ _ hclear h hlast hone => again_bindDimension hs hmade hdims ho h hclear hlast hone)
    hclear h hlast₁ hall
  have hagain' := again_arrangeFields hagain.typed harrange
  refine ⟨hagain'.typed, fun c hc => ?_⟩
  obtain ⟨c₁, hgives, hc₁⟩ := hagain.again c hc
  obtain ⟨c', hgives', hc'⟩ := hagain'.again c₁ hc₁
  refine ⟨c', ?_, hc'⟩
  simp only [bindDimensions, gives_get_bind, hc.space.usedDimensions]
  refine gives_bind.mpr ⟨(), c₁, hgives, ?_⟩
  rw [gives_get_bind, hc₁.fields, List.drop_nil]
  exact hgives'

/-- Dimensions are bound again, and the same rules met. -/
theorem again_prepare (hs : s.WellFounded) (hmade : last.Made) (hdims : s.Grounded last.schema)
    (ho : o.shareRules = true) (mode : Mode) {rules : List Rule}
    (h : Typed s last { b with space := b.space.countUses rules })
    (hclear : (b.space.countUses rules).Unlinked) (hlast : Grew b' last)
    (hrun : (prepare o mode rules).Gives b u b') :
    Typed s last b' ∧ ∀ c, Follows last { b with space := b.space.countUses rules }
      { c with space := c.space.countUses rules } →
        ∃ c', (prepare o mode rules).Gives c () c' ∧ Follows last b' c' := by
  simp only [prepare, gives_modify_bind] at hrun ⊢
  obtain ⟨_, b₁, hbind, hcollect⟩ := gives_bind.mp hrun
  have hcollects : ∀ r, Respects Grew (do
      collectFields r
      if mode == .sparse then collectBlocks r) := by
    refine fun r => closed_grew.bind (grew_note _ fun _ => rfl) fun _ => ?_
    split
    · exact grew_note _ fun _ => rfl
    · exact closed_grew.pure _
  have hlast₁ : Grew b₁ last := (closed_grew.forM (fun r _ => hcollects r) hcollect).trans hlast
  have hagain := again_bindDimensions hs hmade hdims ho h hclear hlast₁ hbind
  obtain ⟨hagain', -⟩ := again_forM (fun _ => True) hcollects rules b₁ b' _
    (fun r _ b b' _ h _ hone => by
      obtain ⟨_, b₂, hfields, hblocks⟩ := gives_bind.mp hone
      have hagain := again_collectFields h hfields
      refine ⟨hagain.bind ?_, trivial⟩
      split at hblocks
      · rename_i hmode
        rw [if_pos hmode]
        exact again_collectBlocks hagain.typed hblocks
      · rename_i hmode
        rw [if_neg hmode]
        obtain ⟨-, rfl⟩ := gives_pure.mp hblocks
        exact .pure hagain.typed _)
    trivial hagain.typed hlast hcollect
  have hboth := hagain.bind (f := fun _ => forM rules _) hagain'
  exact ⟨hboth.typed, fun c hc => hboth.again _ hc⟩

/-! ## Candidates -/

theorem goesIntoBlock_followed (h : Follows last b c) (r : Rule) :
    goesIntoBlock o c r = goesIntoBlock o b r := by
  simp only [goesIntoBlock, contains_followed h, h.space.actualSize?]

/-- What is done with the field of a candidate: it is noted as new, or marked. -/
def settleCandidate (b : BuildState) (new : NewFields) (r : Rule) (name : String) :
    Build NewFields := do
  let isNew := (b.fieldOf? r).isNone && (← get).isCreated r.className name
  if isNew && !new.has r.className name then return new ++ [(r, name)]
  else
    markCandidate r.className name r.cost
    return new

theorem sharedCandidate_eq (o : Options) (mode : Mode) (new : NewFields) (r : Rule) :
    sharedCandidate o mode new r = get >>= fun b =>
      (if mode == .sparse && goesIntoBlock o b r then sparseField r else sharedField r) >>=
        settleCandidate b new r := by
  unfold sharedCandidate
  congr 1
  funext b
  split <;> rfl

theorem settles_settleCandidate {b₀ : BuildState} {new new' : NewFields} {r : Rule} {n : String}
    (hrun : (settleCandidate b₀ new r n).Gives b new' b') : Stays b b' ∧ SameLedgers b b' := by
  rw [settleCandidate, gives_get_bind] at hrun
  dsimp only at hrun
  split at hrun
  · obtain ⟨-, rfl⟩ := gives_pure.mp hrun
    exact ⟨.refl _, .refl _⟩
  · obtain ⟨_, b₁, hmark, hpure⟩ := gives_bind.mp hrun
    obtain ⟨-, rfl⟩ := gives_pure.mp hpure
    exact ⟨(stays_markCandidate _ _ _).respects hmark, sameLedgers_edit _ _ hmark⟩

/-- Marks leave the second run where the first one is. -/
theorem follows_mark {C n : String} {cost : Float} {c' : BuildState} (h : Follows last b c)
    (hrun : (markCandidate C n cost).Gives c u c') : Follows last b c' := by
  obtain ⟨e, he, -, rfl⟩ := gives_markCandidate hrun
  have hcore : (e.modifyField n (mark cost)).core = e.core := by
    have hmark : ∀ f, (mark cost f).core = f.core := fun _ => rfl
    rw [Entity.core, Entity.cores_modifyField e n hmark]
    rfl
  exact ⟨h.space, h.registry, (Schema.core_setEntity he hcore).trans h.schema, h.fieldOf, h.blockOf,
    h.fields, h.blocks, h.interrupt⟩

/-- In the second run the field of a candidate is not new, and can be marked. -/
theorem settleCandidate_followed (hmade : last.Made) (hlast : Grew b last) (hc : Follows last b c)
    (c₀ : BuildState) {r : Rule} {n : String} (hheld : last.Held b r n) :
    ∃ c', (settleCandidate c₀ [] r n).Gives c [] c' ∧ Follows last b c' := by
  obtain ⟨e, record, he, hrecord, hf⟩ := hheld.1
  obtain ⟨-, e', f', -, he', hf', -⟩ :=
    field?_followed hmade hlast hc ⟨e, record, he, hrecord, hf⟩ he
  have hcreated : c.isCreated r.className n = false := by simp [isCreated, hc.fields]
  have hmark : (markCandidate r.className n r.cost).Gives c ()
      { c with schema := c.schema.setEntity r.className (e'.modifyField n (mark r.cost)) } :=
    gives_edit.mpr ⟨e', _, he', if_pos (by rw [hf']; rfl), rfl⟩
  refine ⟨_, ?_, follows_mark hc hmark⟩
  rw [settleCandidate, gives_get_bind]
  simp only [hcreated, Bool.and_false, Bool.false_and, Bool.false_eq_true, if_false]
  exact gives_bind.mpr ⟨(), _, hmark, gives_pure.mpr ⟨rfl, rfl⟩⟩

/-- A candidate is realized by the field there is, which is not new. -/
theorem again_sharedCandidate (hs : s.WellFounded) (hmade : last.Made) {mode : Mode}
    {new new' : NewFields} {r : Rule} (h : Typed s last b) (hr : r.Grounded s last.schema)
    (hlast : Grew b' last) (hrun : (sharedCandidate o mode new r).Gives b new' b') :
    Again s last (sharedCandidate o mode [] r) b [] b' := by
  rw [sharedCandidate_eq, gives_get_bind] at hrun
  obtain ⟨name, b₁, hfield, hsettle⟩ := gives_bind.mp hrun
  obtain ⟨hstays, hsame⟩ := settles_settleCandidate hsettle
  have hlast₁ : Grew b₁ last := (Stays.grew hstays).trans hlast
  obtain ⟨hagain, hheld⟩ : Again s last (if mode == .sparse && goesIntoBlock o b r
      then sparseField r else sharedField r) b name b₁ ∧ last.Held b₁ r name := by
    split at hfield
    · rename_i hblock
      rw [if_pos hblock]
      exact again_sparseField hs hmade r b b₁ name h hr hlast₁ hfield
    · rename_i hblock
      rw [if_neg hblock]
      exact again_sharedField hs hmade r b b₁ name h hr hlast₁ hfield
  refine ⟨hagain.typed.of_stays hstays hsame.space hsame.fieldOf, fun c hc => ?_⟩
  obtain ⟨c₁, hgives, hc₁⟩ := hagain.again c hc
  obtain ⟨c', hsettle', hc'⟩ := settleCandidate_followed hmade hlast₁ hc₁ c hheld
  refine ⟨c', ?_, follows_of_sameLedgers hc' hsame⟩
  rw [sharedCandidate_eq, gives_get_bind, goesIntoBlock_followed hc]
  exact gives_bind.mpr ⟨name, c₁, hgives, hsettle'⟩

/-- Candidates in turn, as many as there are. -/
theorem again_candidates (hs : s.WellFounded) (hmade : last.Made) (hcap : o.maxFields = none)
    {mode : Mode} : ∀ (rules : List Rule) (new new' : NewFields) (b b' : BuildState),
    Typed s last b → (∀ r ∈ rules, r.Grounded s last.schema) → Grew b' last →
    (candidates o (sharedCandidate o mode) new rules).Gives b new' b' →
      Again s last (candidates o (sharedCandidate o mode) [] rules) b [] b'
  | [], new, new', b, b', h, _, _, hrun => by
      rw [candidates, gives_pure] at hrun
      rw [candidates, hrun.2]
      exact .pure h _
  | r :: rest, new, new', b, b', h, hrules, hlast, hrun => by
      have hfull : ∀ new, isFull o new = false := fun new => by rw [isFull, hcap]; rfl
      simp only [candidates, hfull, Bool.false_eq_true, if_false] at hrun ⊢
      obtain ⟨_, b₁, hcheck, hrun⟩ := gives_bind.mp hrun
      obtain ⟨new₁, b₂, hone, hrest⟩ := gives_bind.mp hrun
      have hlast₂ : Grew b₂ last := (closed_candidates closed_grew grew_checkInterrupt rest new₁
        (fun r _ new => closed_sharedCandidate blockParts_grew firstParts_grew.mark o mode new r) hrest).trans hlast
      have hagain := again_checkInterrupt h hcheck
      have hagain' := again_sharedCandidate hs hmade hagain.typed (hrules r List.mem_cons_self)
        hlast₂ hone
      exact hagain.bind (hagain'.bind (again_candidates hs hmade hcap rest new₁ new' b₂ b'
        hagain'.typed (fun x hx => hrules x (List.mem_cons_of_mem _ hx)) hlast hrest))

theorem again_markNew (h : Typed s last b) {new new' : NewFields}
    (hrun : (markNew new).Gives b new' b') : Again s last (markNew []) b [] b' := by
  have hsame := sameLedgers_markNew new hrun
  refine ⟨h.of_stays (stays_markNew new hrun) hsame.space hsame.fieldOf, fun c hc =>
    ⟨c, ?_, follows_of_sameLedgers hc hsame⟩⟩
  simp [markNew, NewFields.sorted]

/-- All candidates are realized by what there is. -/
theorem again_realize (hs : s.WellFounded) (hmade : last.Made) (hdims : s.Grounded last.schema)
    (hmode : Mode.ofOptions o ≠ .standard) (hcap : o.maxFields = none) {rules : List Rule}
    (hrules : ∀ r ∈ rules, r.Grounded s last.schema)
    (h : Typed s last { b with space := b.space.countUses rules })
    (hclear : (b.space.countUses rules).Unlinked) (hlast : Grew b' last) {new : NewFields}
    (hrun : (realize o rules).Gives b new b') :
    Typed s last b' ∧ ∀ c, Follows last { b with space := b.space.countUses rules }
      { c with space := c.space.countUses rules } →
        ∃ c', (realize o rules).Gives c [] c' ∧ Follows last b' c' := by
  have hrealize : realize o rules = (do
      prepare o (Mode.ofOptions o) rules
      markNew (← candidates o (sharedCandidate o (Mode.ofOptions o)) [] rules)) := by
    unfold realize
    cases hsort : Mode.ofOptions o with
    | standard => exact absurd hsort hmode
    | optimized => rfl
    | sparse => rfl
  have ho := shareRules_of_mode hmode
  rw [hrealize] at hrun ⊢
  obtain ⟨_, b₁, hprepare, hrun⟩ := gives_bind.mp hrun
  obtain ⟨found, b₂, hcandidates, hmarks⟩ := gives_bind.mp hrun
  have hlast₂ : Grew b₂ last := (grew_markNew found hmarks).trans hlast
  have hlast₁ : Grew b₁ last := (closed_candidates closed_grew grew_checkInterrupt rules []
    (fun r _ new => closed_sharedCandidate blockParts_grew firstParts_grew.mark o _ new r) hcandidates).trans hlast₂
  obtain ⟨h₁, hprepared⟩ := again_prepare hs hmade hdims ho _ h hclear hlast₁ hprepare
  have hagain := again_candidates hs hmade hcap rules [] found b₁ b₂ h₁ hrules hlast₂ hcandidates
  have hagain' := hagain.bind (again_markNew hagain.typed hmarks)
  refine ⟨hagain'.typed, fun c hc => ?_⟩
  obtain ⟨c₁, hgives, hc₁⟩ := hprepared c hc
  obtain ⟨c', hgives', hc'⟩ := hagain'.again c₁ hc₁
  exact ⟨c', gives_bind.mpr ⟨(), c₁, hgives, hgives'⟩, hc'⟩

/-- Nothing is moved. -/
theorem again_layOut (hs : s.WellFounded) (hmade : last.Made) (hdims : s.Grounded last.schema)
    (hmode : Mode.ofOptions o ≠ .standard) (hcap : o.maxFields = none) {rules : List Rule}
    (hrules : ∀ r ∈ rules, r.Grounded s last.schema)
    (h : Typed s last { b with space := b.space.countUses rules })
    (hclear : (b.space.countUses rules).Unlinked) (hlast : Grew b' last)
    (hrun : (layOut o rules).Gives b u b') :
    Typed s last b' ∧ ∀ c, Follows last { b with space := b.space.countUses rules }
      { c with space := c.space.countUses rules } →
        ∃ c', (layOut o rules).Gives c () c' ∧ Follows last b' c' := by
  obtain ⟨new, b₁, hrealize, harrange⟩ := gives_bind.mp hrun
  obtain ⟨_, b₂, hfields, hblocks⟩ := gives_bind.mp harrange
  have hlast₂ : Grew b₂ last := by
    refine Grew.trans ?_ hlast
    split at hblocks
    · exact Stays.grew (stays_arrangeBlocks.respects hblocks)
    · obtain ⟨-, rfl⟩ := gives_pure.mp hblocks
      exact .refl _
  have hlast₁ : Grew b₁ last :=
    (Stays.grew ((stays_arrangeFields _).respects hfields)).trans hlast₂
  obtain ⟨h₁, hrealized⟩ := again_realize hs hmade hdims hmode hcap hrules h hclear hlast₁ hrealize
  have hagain := again_arrangeFields h₁ hfields
  have hagain' : Again s last (if Mode.ofOptions o == .sparse then arrangeBlocks else pure ())
      b₂ () b' := by
    split at hblocks
    · rename_i hsparse
      rw [if_pos hsparse]
      exact again_arrangeBlocks hagain.typed hblocks
    · rename_i hsparse
      rw [if_neg hsparse]
      obtain ⟨-, rfl⟩ := gives_pure.mp hblocks
      exact .pure hagain.typed _
  have hboth := hagain.bind (f := fun _ => if Mode.ofOptions o == .sparse then arrangeBlocks
    else pure ()) hagain'
  refine ⟨hboth.typed, fun c hc => ?_⟩
  obtain ⟨c₁, hgives, hc₁⟩ := hrealized c hc
  obtain ⟨c', hgives', hc'⟩ := hboth.again c₁ hc₁
  exact ⟨c', gives_bind.mpr ⟨[], c₁, hgives, hgives'⟩, hc'⟩

end Build

/-! ## Whole builds -/

section Whole

open BuildState

variable {o : Options} {schema : Schema} {space again : Space} {rules : List Rule}
variable {interrupt : Interrupt} {b : BuildState}

/-- A build keeps the fields of its schema, with their types. -/
theorem fieldType?_runBuild
    (hbuild : runBuild .default o schema space rules interrupt = (.ok (), b)) {C name : String}
    {type : FieldType} (h : schema.fieldType? C name = some type) :
    b.schema.fieldType? C name = some type := by
  obtain ⟨-, -, -, hcompile⟩ := runBuild_eq_ok hbuild
  obtain ⟨added, blocks, hgrows⟩ := runBuild_grows hbuild
  obtain ⟨e, f, he, hf, rfl⟩ := Schema.fieldType?_eq_some.mp h
  obtain ⟨e', c', he', -, hclass⟩ := hgrows.class_of_start he
  obtain ⟨g, hg, hcore⟩ := Entity.mem_cores.mp
    (hclass.core_mem (Entity.core_mem_cores (List.mem_of_find?_eq_some hf)))
  have hnames := (Schema.nodup_of_compile hcompile).2 e' (Schema.mem_of_entity? he')
  obtain rfl : f.name = name := by simpa using List.find?_some hf
  have hname : g.name = f.name := by rw [← Field.core_name, hcore, Field.core_name]
  refine Schema.fieldType?_eq_some.mpr ⟨e', g, he', hname ▸ Entity.field?_of_mem hnames hg, ?_⟩
  rw [← Field.core_type, hcore, Field.core_type]

theorem Rule.Grounded.of_runBuild
    (hbuild : runBuild .default o schema space rules interrupt = (.ok (), b)) {s : Space} {r : Rule}
    (h : r.Grounded s schema) : r.Grounded s b.schema :=
  ⟨h.named, h.checked, .mono (fun _ _ _ => fieldType?_runBuild hbuild) r h.fields⟩

namespace BuildState

/-- Where nothing is derived nothing is known by a formula. -/
theorem not_knows_start (hstored : schema.Stored) {C n : String} {φ : Formula} :
    ¬ (start .default o schema space interrupt).Knows C φ n := by
  rintro ⟨e, c, he, hc, hn⟩
  rw [class?_start, show schema.entity? C = some e from he] at hc
  cases hc
  rw [ClassRecord.field?_collect] at hn
  split at hn
  · obtain ⟨f, hf, -⟩ := Option.map_eq_some_iff.mp hn
    have hφ : f.formula = some φ := by simpa using List.find?_some hf
    have hnone := (hstored e (Schema.mem_of_entity? he)).2 f (List.mem_of_find?_eq_some hf)
    cases hnone.symm.trans hφ
  · cases hn

theorem typed_start (hschema : schema.compile = .ok ()) (hstored : schema.Stored)
    (last : BuildState) : Typed space last { start .default o schema space interrupt with
      space := space.clearLinks.countUses rules } := by
  have hstart := accounted_start .default o space interrupt hschema
  have hreset := Space.resetUses_countUses space.clearLinks rules
  have hclear := Space.unlinked_of_reset hreset (Space.unlinked_clearLinks space)
  refine ⟨linked_of_unlinked (fun _ _ => hstart.entity_of_class) hstart.indexes hclear,
    (Space.sameCuts_clearLinks space).trans (Space.sameCuts_of_reset hreset), ?_,
    fun C φ n (hn : (start .default o schema space interrupt).Knows C φ n) =>
      absurd hn (not_knows_start hstored), nofun⟩
  have hlevels := congrArg (fun s : Space => s.dimensions.map (·.levels)) hreset
  simpa [Space.resetUses, Space.clearLinks, Function.comp_def] using hlevels

/-- At the start of a second run nothing is noted or created, on a space that is as good as that of
the first run. -/
theorem follows_start (hagain : space.bare.Twin again.bare) :
    Follows b { start .default o schema space interrupt with
        space := space.clearLinks.countUses rules }
      { start .default o b.schema again .never with space := again.clearLinks.countUses rules } :=
  ⟨.countUses hagain rules, rfl, rfl, rfl, rfl, rfl, rfl, rfl⟩

end BuildState

/-- A second run, on the output of the first one, ends where that one did. -/
theorem follows_again (hmode : Mode.ofOptions o ≠ .standard) (hcap : o.maxFields = none)
    (hschema : schema.compile = .ok ()) (hstored : schema.Stored) (hspace : space.WellFounded)
    (hdims : space.Grounded schema) (hrules : ∀ r ∈ rules, r.Grounded space schema)
    (hbuild : runBuild .default o schema space rules interrupt = (.ok (), b))
    (hagain : again = space ∨ again = b.space) :
    space.bare.Twin again.bare ∧ ∃ b₁ c, Follows b b₁ c ∧
      runBuild .default o b.schema again rules .never =
        (.ok (), { c with schema := o.annotate c.schema }) := by
  have hmade := made_runBuild hschema hstored hbuild
  obtain ⟨b₁, hlay, hb, -⟩ := runBuild_eq_ok hbuild
  have hlast : Grew b₁ b := by
    rw [hb]
    exact ⟨_, _, grows_annotate o b₁⟩
  have hclear := Space.unlinked_of_reset (Space.resetUses_countUses space.clearLinks rules)
    (Space.unlinked_clearLinks space)
  obtain ⟨htyped, hlaid⟩ := Build.again_layOut hspace hmade
    (fun d hd r hr => (hdims d hd r hr).of_runBuild hbuild) hmode hcap
    (fun r hr => (hrules r hr).of_runBuild hbuild) (typed_start hschema hstored b) hclear hlast hlay
  have hbare : space.bare.Twin again.bare := by
    rcases hagain with rfl | rfl
    · exact .refl _
    · have hsame : b.space = b₁.space := by rw [hb]
      rw [hsame]
      exact Space.twin_bare htyped.cuts htyped.levels
  obtain ⟨c, hgives, hc⟩ := hlaid _ (follows_start hbare)
  have hcore : (o.annotate c.schema).core = b.schema.core :=
    (Schema.core_annotate o c.schema).trans hc.schema
  have hcompile : (o.annotate c.schema).compile = .ok () :=
    (Schema.compile_of_core hcore).trans hmade.compile
  exact ⟨hbare, b₁, c, hc, Build.gives_complete.mpr ⟨c, hgives, rfl, hcompile⟩⟩

/-- A build with shared fields or blocks, from stored fields alone and with checked rules, those of
dimensions too, can be repeated on its output: the second run succeeds, creates nothing, and leaves
every field and block in its place.  It may start from the space that the first run did, or from the
one it left. -/
theorem runBuild_idempotent (hmode : Mode.ofOptions o ≠ .standard) (hcap : o.maxFields = none)
    (hschema : schema.compile = .ok ()) (hstored : schema.Stored) (hspace : space.WellFounded)
    (hdims : space.Grounded schema) (hrules : ∀ r ∈ rules, r.Grounded space schema)
    (hbuild : runBuild .default o schema space rules interrupt = (.ok (), b))
    (hagain : again = space ∨ again = b.space) :
    ∃ b', runBuild .default o b.schema again rules .never = (.ok (), b') ∧
      b'.createdFields = [] ∧ b'.createdBlocks = [] ∧ b'.schema.core = b.schema.core := by
  obtain ⟨-, b₁, c, hc, hrun⟩ :=
    follows_again hmode hcap hschema hstored hspace hdims hrules hbuild hagain
  exact ⟨_, hrun, hc.fields, hc.blocks, (Schema.core_annotate o c.schema).trans hc.schema⟩

end Whole

/-! ## Early orders again -/

namespace EarlyOrders

/-- Customers and their orders, with stored fields alone. -/
def stored : Schema :=
  ⟨[ ⟨"Customer", [.native "Orders" orders], []⟩, ⟨"Orders", [.native "date" .date], []⟩ ]⟩

def sparse : Options := { Options.default with sparse := true }

def firstBuild : Except BuildError Unit × BuildState :=
  runBuild .default sparse stored space [yearDay, mean] .never

theorem stored_stored : stored.Stored := by
  simp [Schema.Stored, stored, Field.native]

theorem grounded_yearDay : yearDay.Grounded space stored :=
  ⟨over_yearDay, checked_mean.1, ⟨"Orders", rfl, rfl⟩, trivial⟩

theorem grounded_mean : mean.Grounded space stored :=
  ⟨over_mean, checked_mean.2, ⟨⟨"Customer", rfl, rfl⟩, trivial⟩, grounded_yearDay.fields, trivial⟩

theorem grounded_space : space.Grounded stored := by
  intro d hd r hr
  obtain rfl : d = space.dimensions[0] := List.mem_singleton.mp hd
  cases hr
  exact grounded_yearDay

end EarlyOrders

open EarlyOrders in
/-- The first build creates fields and blocks, for the days of orders and for the mean of the early
ones; a second one on its schema and its space creates nothing. -/
theorem earlyMean_rebuilt :
    ∃ b b', firstBuild = (.ok (), b) ∧ b.createdFields.length = 4 ∧ b.createdBlocks.length = 2 ∧
      runBuild .default sparse b.schema b.space [yearDay, mean] .never = (.ok (), b') ∧
      b'.createdFields = [] ∧ b'.createdBlocks = [] ∧ b'.schema.core = b.schema.core := by
  have hok : firstBuild.1.isOk = true := by decide +kernel
  have hbuild : firstBuild = (.ok (), firstBuild.2) := run_eq_of_isOk hok
  have hrules : ∀ r ∈ [yearDay, mean], r.Grounded space stored := by
    simp [grounded_yearDay, grounded_mean]
  obtain ⟨b', hagain⟩ := runBuild_idempotent (by decide) rfl (eq_ok_of_isOk (by decide +kernel))
    stored_stored wellFounded_space grounded_space hrules hbuild (.inr rfl)
  exact ⟨_, b', hbuild, by decide +kernel, by decide +kernel, hagain⟩

/-! ## A dimension that is not checked -/

namespace AmountDays

def schema : Schema :=
  ⟨[ ⟨"Customer", [.native "Orders" EarlyOrders.orders], []⟩,
     ⟨"Orders", [.native "amount" .continuous], []⟩ ]⟩

/-- The day of the year of an amount: the field is there, with its type, but has no days. -/
def amountDay : Rule :=
  ⟨.plain "YearDay" .date [.date] .continuous, "Orders", [.field "amount" .continuous], 0, 0⟩

/-- The orders cut along it. -/
def space : Space :=
  { EarlyOrders.space with
    dimensions := [{ EarlyOrders.space.dimensions[0] with origin := .rule amountDay }] }

/-- The number of early orders. -/
def count : Rule := ⟨.tableCount, "Customer", [.rule EarlyOrders.early], 1, 0⟩

theorem wellFounded_space : space.WellFounded where
  dimensions_nodup := by simp [space]
  partitions_nodup := by simp [space, EarlyOrders.space]
  axis_dimension := by simp [space, EarlyOrders.space]
  earlier := by
    intro k d r hd hr part hpart
    obtain rfl : d = space.dimensions[0] := List.mem_singleton.mp (List.mem_of_getElem? hd)
    cases hr
    cases hpart

/-- A build whose output is the input of another. -/
def builtTwice (o : Options) : Except BuildError Unit × BuildState :=
  runBuild .default o (runBuild .default o schema space [count] .never).2.schema space [count]
    .never

end AmountDays

open AmountDays in
/-- Rules of dimensions have to be checked, and not only the candidates.  A formula that does not
fit its operands is not found again by its shape, so what is cut along such a dimension is created
anew. -/
theorem amountDay_built_again :
    schema.compile = .ok () ∧ schema.Stored ∧ space.WellFounded ∧ count.Grounded space schema ∧
      (∀ d ∈ space.dimensions, ∀ r, d.origin = .rule r → r.Over .default ∧ r.FieldsIn schema) ∧
      ∀ o ∈ [Options.default, EarlyOrders.sparse], Mode.ofOptions o ≠ .standard ∧
        o.maxFields = none ∧ (runBuild .default o schema space [count] .never).1 = .ok () ∧
        (builtTwice o).1 = .ok () ∧ (builtTwice o).2.createdFields.length = 3 := by
  have hcheck : (count.check space).isOk = true := by decide +kernel
  have hbuilds : ∀ o ∈ [Options.default, EarlyOrders.sparse],
      (runBuild .default o schema space [count] .never).1.isOk = true ∧
        (builtTwice o).1.isOk = true ∧ (builtTwice o).2.createdFields.length = 3 := by
    decide +kernel
  refine ⟨eq_ok_of_isOk (by decide +kernel), by simp [Schema.Stored, schema, Field.native],
    wellFounded_space, ⟨⟨by decide +kernel, ⟨by decide +kernel, trivial⟩, trivial⟩,
      eq_ok_of_isOk hcheck, ⟨⟨"Customer", rfl, rfl⟩, trivial⟩, trivial⟩, fun d hd r hr => ?_,
    fun o ho => ?_⟩
  · obtain rfl := List.mem_singleton.mp hd
    cases hr
    exact ⟨⟨by decide +kernel, trivial⟩, ⟨"Orders", rfl, rfl⟩, trivial⟩
  · obtain ⟨hfirst, hsecond, hcreated⟩ := hbuilds o ho
    refine ⟨?_, ?_, eq_ok_of_isOk hfirst, eq_ok_of_isOk hsecond, hcreated⟩
    · rcases List.mem_pair.mp ho with rfl | rfl <;> decide
    · rcases List.mem_pair.mp ho with rfl | rfl <;> rfl

end FeatureSynth
