/-
# Costs of a build on its own output

A second run on the schema that the first one left creates nothing.  So the candidates have
the same turns with the same fields, all of them are marked on the spot, and a field ends
with the cost of the candidate that had the last turn with it.  In the first run a field
that was counted as new got the cost of the candidate in whose turn it was.  The two schemas
are equal if these costs are.
-/
import FeatureSynth.Proofs.Build.Cap
import FeatureSynth.Proofs.Build.Idempotent
import FeatureSynth.Proofs.Build.LastTurn
import FeatureSynth.Proofs.Build.Prolonged
import FeatureSynth.Proofs.Scalar.Order
import FeatureSynth.Proofs.Schema.EachField

namespace FeatureSynth

namespace BuildState

/-- If nothing was created by the end, the schema is the one there was. -/
def Idle (b b' : BuildState) : Prop :=
  b'.createdFields = [] → b.createdFields = [] ∧ b'.schema = b.schema

end BuildState

namespace Build

open BuildState

variable {s : Space} {o : Options} {last b b₀ b₁ b' c c₀ c' : BuildState} {new new' : NewFields}
variable {turns turns' : List (Rule × String)} {rules : List Rule} {r : Rule} {u : Unit}
variable {C n : String}

/-! ## Where nothing is created -/

theorem making_idle : Making Idle where
  refl := fun _ h => ⟨h, rfl⟩
  trans := fun h h' hnone => by
    obtain ⟨hnone, hschema'⟩ := h' hnone
    obtain ⟨hnone, hschema⟩ := h hnone
    exact ⟨hnone, hschema'.trans hschema⟩
  still := fun h hnone => ⟨h.fields ▸ hnone, h.schema⟩
  makes := fun hmakes hnone => by
    obtain ⟨C, e, e', f, more, hmade⟩ := hmakes.enlarges
    have hnoted := hmade.fields ▸ hnone
    exact absurd (hnoted ▸ mem_noted.mpr (.inr rfl)) List.not_mem_nil

theorem idle_bindDimensions (o : Options) : Respects Idle (bindDimensions o) := by
  intro b u b' hrun
  simp only [bindDimensions, gives_get_bind] at hrun
  obtain ⟨_, b₁, hbind, hrun⟩ := gives_bind.mp hrun
  have hbound : Idle b b₁ := making_idle.closed.forM
    (fun rank _ => closed_bindDimension making_idle.bindParts o rank) hbind
  refine making_idle.trans hbound fun hnone => ?_
  rw [gives_get_bind] at hrun
  rw [createdFields_arrangeFields hrun] at hnone
  rw [hnone, List.drop_nil] at hrun
  obtain rfl : b₁ = b' := congrArg Prod.snd ((arrangeFields_of_none hnone).symm.trans hrun)
  exact ⟨hnone, rfl⟩

/-- Marks of candidates, as their turns leave them. -/
def remarked (turns : List (Rule × String)) (C : String) (f : Field) : Field :=
  match lastAt turns C f.name with
  | some r => mark r.cost f
  | none => f

theorem core_remarked (turns : List (Rule × String)) (C : String) (f : Field) :
    (remarked turns C f).core = f.core := by
  unfold remarked
  split <;> rfl

/-- The last mark counts. -/
theorem remarked_concat (f : Field) : remarked (turns ++ [(r, n)]) C f =
    if C = r.className ∧ (remarked turns C f).name = n then mark r.cost (remarked turns C f)
    else remarked turns C f := by
  have hname : (remarked turns C f).name = f.name := by
    rw [← Field.core_name, core_remarked, Field.core_name]
  rw [hname, remarked, lastAt_concat]
  by_cases hat : C = r.className ∧ f.name = n
  · rw [if_pos ⟨hat.1.symm, hat.2.symm⟩, if_pos hat, remarked]
    cases lastAt turns C f.name <;> rfl
  · rw [if_neg fun h => hat ⟨h.1.symm, h.2.symm⟩, if_neg hat]
    rfl

/-- Where nothing is created, turns do no more than mark their fields. -/
theorem Turns.remarks (hmode : Mode.ofOptions o ≠ .standard) (hcompile : b₀.schema.compile = .ok ())
    (h : Turns o b₀ turns new b) (hnone : b.createdFields = []) :
    b₀.createdFields = [] ∧ new = [] ∧ b.schema = b₀.schema.mapFields (remarked turns) := by
  induction h with
  | start => exact ⟨hnone, rfl, Schema.mapFields_id.symm⟩
  | @turn turns new new' b b₁ b' r n before check room one ih =>
    obtain ⟨-, rfl⟩ := gives_checkInterrupt.mp check
    have hfield : Respects Idle (candidateField o r) :=
      making_idle.blockParts.members.candidateField (fun _ => making_idle.directField r) trivial
    cases one with
    | counted field created =>
      simp [isCreated, hnone] at created
    | repeated field hstandard => exact absurd hstandard hmode
    | marked field hmark =>
      rw [(taken_of_mark hmark).2] at hnone
      obtain ⟨hnone, hschema⟩ := hfield field hnone
      obtain ⟨hstart, hnew, hbefore⟩ := ih hnone
      refine ⟨hstart, hnew, ?_⟩
      obtain ⟨e, he, -, rfl⟩ := gives_markCandidate hmark
      have hsame : (b₀.schema.mapFields (remarked turns)).compile = .ok () :=
        (Schema.compile_of_core (Schema.core_mapFields (core_remarked turns))).trans hcompile
      rw [hschema, show _ = b₀.schema.mapFields (remarked turns) from hbefore] at he ⊢
      show Schema.setEntity _ _ _ = _
      rw [Schema.setEntity_modifyField hsame he, Schema.mapFields_mapFields]
      exact Schema.mapFields_congr fun d _ f _ => (remarked_concat f).symm

theorem grew_arrange (o : Options) (new : NewFields) : Respects Grew (arrange o new) := by
  refine closed_grew.bind ((stays_arrangeFields _).respects.imp Stays.grew) fun _ => ?_
  split
  · exact stays_arrangeBlocks.respects.imp Stays.grew
  · exact closed_grew.pure _

/-- Where nothing is created, a build up to the final costs does no more than mark the fields of
candidates. -/
theorem layOut_remarks (hmode : Mode.ofOptions o = .optimized)
    (hcompile : b.schema.compile = .ok ()) (hready : (ready o rules).Gives b () b₀) (hturns : Turns o b₀ turns new b₁)
    (hnone : b₁.createdFields = []) {laid : NewFields} {b₂ b₃ : BuildState} {i : Interrupt}
    (hmark : (markNew new).Gives { b₁ with interrupt := i } laid b₂)
    (harrange : (arrange o laid).Gives b₂ u b₃) :
    b₃.schema = b.schema.mapFields (remarked turns) := by
  have hstandard : Mode.ofOptions o ≠ .standard := by simp [hmode]
  have hidle : Idle b b₀ := making_idle.ready (idle_bindDimensions o) hready
  have hstart : b₀.createdFields = [] := by
    refine List.eq_nil_iff_forall_not_mem.mpr fun p hp => ?_
    have hkept := Grew.created hturns.grew p hp
    rw [hnone] at hkept
    cases hkept
  obtain ⟨-, hschema⟩ := hidle hstart
  obtain ⟨-, rfl, hturned⟩ := hturns.remarks hstandard (hschema ▸ hcompile) hnone
  simp only [markNew, gives_get_bind] at hmark
  obtain ⟨_, b₄, hmarks, hpure⟩ := gives_bind.mp hmark
  obtain ⟨rfl, rfl⟩ := gives_pure.mp hpure
  have hnil : NewFields.sorted b₁.space [] = [] := by simp [NewFields.sorted]
  simp only [hnil] at hmarks harrange
  obtain rfl := gives_forM_nil.mp hmarks
  obtain ⟨_, b₅, hfields, hblocks⟩ := gives_bind.mp harrange
  rw [if_neg (by simp [hmode])] at hblocks
  obtain ⟨-, rfl⟩ := gives_pure.mp hblocks
  have hstill := arrangeFields_of_none (c := { b₁ with interrupt := i }) hnone
  obtain ⟨-, rfl⟩ := Prod.mk.inj (hfields.symm.trans hstill)
  rw [← hschema]
  exact hturned

/-! ## The turns of the second run -/

theorem Turns.of_nil (h : Turns o b₀ [] new b) : b = b₀ := by
  generalize hnone : [] = turns at h
  cases h with
  | start => rfl
  | turn => exact absurd hnone.symm (List.append_ne_nil_of_right_ne_nil _ (List.cons_ne_nil _ _))

theorem Turns.of_concat (h : Turns o b₀ (turns ++ [(r, n)]) new' b') : ∃ new b b₁,
    Turns o b₀ turns new b ∧ checkInterrupt.Gives b () b₁ ∧ Turn o r n new new' b₁ b' := by
  generalize hmore : turns ++ [(r, n)] = all at h
  cases h with
  | start => exact absurd hmore (List.append_ne_nil_of_right_ne_nil _ (List.cons_ne_nil _ _))
  | turn before check room one =>
    obtain ⟨rfl, hturn⟩ := List.append_inj' hmore rfl
    cases hturn
    exact ⟨_, _, _, before, check, one⟩

/-- In the second run a candidate has its turn with the same field. -/
theorem Turn.again (hs : s.WellFounded) (hmade : last.Made) (hmode : Mode.ofOptions o = .optimized)
    (hb : Typed s last b) (hc : Follows last b c) (hr : r.Grounded s last.schema)
    {new₁ new₁' : NewFields} {m : String} (h : Turn o r n new new' b b')
    (h' : Turn o r m new₁ new₁' c c') (hlast : Grew b' last) :
    m = n ∧ Typed s last b' ∧ Follows last b' c' := by
  have hstandard : Mode.ofOptions o ≠ .standard := by simp [hmode]
  have hshared : candidateField o r = sharedField r := by simp [candidateField, hmode]
  -- the fields of both turns
  obtain ⟨b₁, hfield, hafter⟩ : ∃ b₁, (sharedField r).Gives b n b₁ ∧
      Stays b₁ b' ∧ SameLedgers b₁ b' := by
    cases h with
    | counted field => exact ⟨b', hshared ▸ field, .refl _, .refl _⟩
    | repeated field => exact ⟨b', hshared ▸ field, .refl _, .refl _⟩
    | marked field mark =>
      exact ⟨_, hshared ▸ field, (stays_markCandidate _ _ _).respects mark,
        sameLedgers_edit _ _ mark⟩
  have hlast₁ : Grew b₁ last := (Stays.grew hafter.1).trans hlast
  obtain ⟨hagain, -⟩ := again_sharedField hs hmade r b b₁ n hb hr hlast₁ hfield
  obtain ⟨c₁, hgives, hc₁⟩ := hagain.again c hc
  have htyped := hagain.typed.of_stays hafter.1 hafter.2.space hafter.2.fieldOf
  have hsame : ∀ {c₂}, (candidateField o r).Gives c m c₂ → m = n ∧ c₂ = c₁ := by
    intro c₂ field
    rw [hshared] at field
    obtain ⟨hm, rfl⟩ := Prod.mk.inj (field.symm.trans hgives)
    exact ⟨Except.ok.inj hm, rfl⟩
  cases h' with
  | counted field created =>
    obtain ⟨rfl, rfl⟩ := hsame field
    simp [isCreated, hc₁.fields] at created
  | repeated field hmode => exact absurd hmode hstandard
  | marked field mark =>
    obtain ⟨rfl, rfl⟩ := hsame field
    exact ⟨rfl, htyped, follows_of_sameLedgers (follows_mark hc₁ mark) hafter.2⟩

/-- All candidates have. -/
theorem Turns.again (hs : s.WellFounded) (hmade : last.Made) (hmode : Mode.ofOptions o = .optimized)
    (h₀ : Typed s last b₀) (hc₀ : Follows last b₀ c₀) (h : Turns o b₀ turns new b) :
    ∀ {turns' new' c}, (∀ turn ∈ turns, turn.1.Grounded s last.schema) → Grew b last →
      Turns o c₀ turns' new' c → turns'.map (·.1) = turns.map (·.1) →
        turns' = turns ∧ Typed s last b ∧ Follows last b c := by
  induction h with
  | start =>
    intro turns' new' c _ _ h' hsame
    obtain rfl := List.map_eq_nil_iff.mp hsame
    obtain rfl := h'.of_nil
    exact ⟨rfl, h₀, hc₀⟩
  | @turn turns new new₁ b b₁ b' r n before check room one ih =>
    intro turns' new' c hrules hlast h' hsame
    rw [List.map_append] at hsame
    obtain ⟨turns₁, last₁, rfl, hturns, hturn⟩ := List.map_eq_append_iff.mp hsame
    obtain ⟨⟨x, m⟩, rfl, rfl⟩ := List.map_eq_singleton_iff.mp hturn
    obtain ⟨new₂, c₁, c₂, before', check', one'⟩ := h'.of_concat
    have hlast₁ : Grew b₁ last := (one.respects chained_grew grew_candidateField
      firstParts_grew.mark).trans hlast
    obtain ⟨rfl, hb, hc⟩ := ih (fun turn hturn => hrules turn (List.mem_append_left _ hturn))
      ((closed_checkInterrupt parts_grew check).trans hlast₁) before' hturns
    have hagain := again_checkInterrupt hb check
    obtain ⟨c₃, hgives, hc₃⟩ := hagain.again c₁ hc
    obtain ⟨-, rfl⟩ := Prod.mk.inj (check'.symm.trans hgives)
    obtain ⟨rfl, hb', hc'⟩ := one.again hs hmade hmode hagain.typed hc₃
      (hrules (x, n) (List.mem_append_right _ (List.mem_singleton_self _))) one' hlast
    exact ⟨rfl, hb', hc'⟩

/-! ## Final costs -/

/-- A field with the cost of a candidate, which is also noted. -/
def IsCosted (name : String) (cost : Float) (f : Field) : Prop :=
  IsMarked name cost f ∧ f.notes.filter (·.1 == costWord) = [(costWord, cost)]

theorem isCosted_annotate {name : String} {cost : Float} {f : Field} {isMain : Bool}
    (ho : o.regularize = true) (hcost : ¬ cost ≤ 0) (h : IsMarked name cost f) :
    IsCosted name cost (o.annotateField isMain f) := by
  obtain ⟨hname, hused, hloaded, rfl⟩ := h
  rw [Options.annotateField_of_cost ho hcost]
  exact ⟨⟨hname, hused, hloaded, rfl⟩, Notes.filter_set _ _ _⟩

/-- Costs of candidates, as their turns leave them. -/
def recosted (turns : List (Rule × String)) (C : String) (f : Field) : Field :=
  match lastAt turns C f.name with
  | some r => f.withCost r.cost
  | none => f

theorem recosted_of_lastAt {f : Field} (h : lastAt turns C f.name = some r) :
    recosted turns C f = f.withCost r.cost := by
  simp [recosted, h]

theorem recosted_of_none {f : Field} (h : lastAt turns C f.name = none) :
    recosted turns C f = f := by
  simp [recosted, h]

theorem isCosted_withCost {name : String} {cost : Float} {f : Field} (h : IsCosted name cost f)
    (cost' : Float) : IsCosted name cost' (f.withCost cost') :=
  ⟨⟨h.1.1, h.1.2.1, h.1.2.2.1, rfl⟩, Notes.filter_set _ _ _⟩

/-- What is done to a used field with its final cost, if it is the field of a candidate. -/
theorem annotateField_remarked {f : Field} {isMain : Bool} (ho : o.regularize = true)
    (hcosts : ∀ turn ∈ turns, ¬ turn.1.cost ≤ 0) (hfinal : o.annotateField isMain f = f)
    (hmarked : ∀ r, lastAt turns C f.name = some r → f.used = true ∧ f.loaded = true) :
    o.annotateField isMain (remarked turns C f) = recosted turns C f := by
  unfold remarked recosted
  cases hlast : lastAt turns C f.name with
  | none => exact hfinal
  | some r =>
    obtain ⟨hused, hloaded⟩ := hmarked r hlast
    have hmark : mark r.cost f = { f with cost := r.cost } := by
      obtain ⟨⟩ := f
      subst hused hloaded
      rfl
    have hcost : ¬ r.cost ≤ 0 := hcosts (r, f.name) (mem_of_lastAt hlast).1
    exact (congrArg _ hmark).trans
      (Options.annotateField_of_cost (f := { f with cost := r.cost }) ho hcost)

section Decided

variable {found : NewFields} {b : BuildState} {e : Entity} {f : Field}

/-- Where the fields of candidates have the costs of those that decide, a field that had a turn has
such a cost. -/
theorem isCosted_of_lastAt (hschema : b.schema.compile = .ok ())
    (hdecided : ∀ C n r, decidingAt turns found C n = some r → b.HasField C (IsCosted n r.cost))
    (he : e ∈ b.schema.entities) (hf : f ∈ e.fields) (hr : lastAt turns e.name f.name = some r) :
    ∃ x, decidingAt turns found e.name f.name = some x ∧ IsCosted f.name x.cost f := by
  obtain ⟨hclasses, hnames⟩ := Schema.nodup_of_compile hschema
  obtain ⟨x, hx⟩ := exists_decidingAt found hr
  obtain ⟨d, hd, g, hg, hcosted⟩ := hdecided _ _ _ hx
  obtain rfl : e = d := Option.some.inj ((find?_of_nodup Entity.name hclasses he).symm.trans hd)
  obtain rfl : f = g := Entity.eq_of_name (hnames e he) hf hg hcosted.1.1.symm
  exact ⟨x, hx, hcosted⟩

/-- The costs of the last turns are those of the candidates that decide exactly where each counted
field has the same cost in both. -/
theorem mapFields_recosted_iff (ho : o.regularize = true) (hschema : b.schema.compile = .ok ())
    (hcosts : ∀ turn ∈ turns, ¬ turn.1.cost ≤ 0)
    (hdecided : ∀ C n r, decidingAt turns found C n = some r → b.HasField C (IsCosted n r.cost))
    (hfinal : ∀ e ∈ b.schema.entities, ∀ f ∈ e.fields,
      o.annotateField (b.schema.main?.map (·.name) == some e.name) f = f) :
    b.schema.mapFields (recosted turns) = b.schema ↔
      ∀ C n x r, lastAt found C n = some x → lastAt turns C n = some r → r.cost = x.cost := by
  rw [Schema.mapFields_eq_self_iff]
  constructor
  · intro hsame C n x r hx hr
    obtain ⟨e, he, f, hf, ⟨hname, -, -, hcost⟩, -⟩ := hdecided C n x (by simp [decidingAt, hx])
    have hat : lastAt turns e.name f.name = some r := by
      rwa [Schema.name_of_entity? he, hname]
    have hfixed := hsame e (Schema.mem_of_entity? he) f hf
    rw [recosted_of_lastAt hat] at hfixed
    exact (congrArg Field.cost hfixed).trans hcost
  · intro hsame e he f hf
    cases hlast : lastAt turns e.name f.name with
    | none => exact recosted_of_none hlast
    | some r =>
      obtain ⟨x, hx, ⟨-, -, -, hcost⟩, -⟩ := isCosted_of_lastAt hschema hdecided he hf hlast
      have hequal : r.cost = f.cost := by
        rw [hcost]
        rcases Option.or_eq_some_iff.mp hx with hfound | ⟨-, hdecides⟩
        · exact hsame _ _ _ _ hfound hlast
        · rw [Option.some.inj (hlast.symm.trans hdecides)]
      have hpos : ¬ f.cost ≤ 0 := hequal ▸ hcosts (r, f.name) (mem_of_lastAt hlast).1
      rw [recosted_of_lastAt hlast, hequal, ← Options.annotateField_of_cost ho hpos]
      exact hfinal e he f hf

end Decided

end Build

/-! ## Whole builds -/

/-- The turns that the candidates of a build have, all of them, and the fields counted as new. -/
def TookTurns (catalogue : Catalogue) (o : Options) (schema : Schema) (space : Space)
    (rules : List Rule) (interrupt : Interrupt) (turns : List (Rule × String))
    (found : NewFields) : Prop :=
  ∃ b₀ b₁, (Build.ready o rules).Gives (.start catalogue o schema space interrupt) () b₀ ∧
    Build.Turns o b₀ turns found b₁ ∧ turns.map (·.1) = rules

section Whole

open Build BuildState

variable {o : Options} {schema : Schema} {space again : Space} {rules : List Rule}
variable {interrupt : Interrupt} {b : BuildState}

/-- A build and a second one on its output: in the first one the fields of candidates are marked
with the costs of the candidates that decide, in the second with those of the last ones. -/
theorem remarked_again (hmode : Mode.ofOptions o = .optimized) (hcap : o.maxFields = none)
    (hschema : schema.compile = .ok ()) (hstored : schema.Stored) (hspace : space.WellFounded)
    (hdims : space.Grounded schema) (hrules : ∀ r ∈ rules, r.Grounded space schema)
    (hbuild : runBuild .default o schema space rules interrupt = (.ok (), b))
    (hagain : again = space ∨ again = b.space) :
    ∃ (b₁ : BuildState) (turns : List (Rule × String)) (found : NewFields) (b' : BuildState),
      b = { b₁ with schema := o.annotate b₁.schema } ∧
      TookTurns .default o schema space rules interrupt turns found ∧
      (∀ C n r, decidingAt turns found C n = some r → b₁.HasField C (IsMarked n r.cost)) ∧
      runBuild .default o b.schema again rules .never = (.ok (), b') ∧
      b'.schema = o.annotate (b.schema.mapFields (remarked turns)) := by
  have hstandard : Mode.ofOptions o ≠ .standard := by simp [hmode]
  have hmade := made_runBuild hschema hstored hbuild
  have hdims' := fun d hd r hr => (hdims d hd r hr).of_runBuild hbuild
  have hrules' := fun r hr => (hrules r hr).of_runBuild hbuild
  have hclear := Space.unlinked_of_reset (Space.resetUses_countUses space.clearLinks rules)
    (Space.unlinked_clearLinks space)
  obtain ⟨hbare, -, c, -, hrun'⟩ :=
    follows_again hstandard hcap hschema hstored hspace hdims hrules hbuild hagain
  obtain ⟨b₁, hlay, hb, -⟩ := runBuild_eq_ok hbuild
  obtain ⟨c₁, hlay', hb', -⟩ := runBuild_eq_ok hrun'
  have hlast : Grew b₁ b := by
    rw [hb]
    exact ⟨_, _, grows_annotate o b₁⟩
  have hstart : Typed space b { start .default o schema space interrupt with
      space := space.clearLinks.countUses rules } := typed_start hschema hstored b
  obtain ⟨b₀, turns, found, b₂, i, laid, b₃, hready, hturns, -, hend, hmark, harrange⟩ :=
    layOut_turns hlay
  obtain ⟨c₀, turns', found', c₂, i', laid', c₃, hready', hturns', -, hend', hmark', harrange'⟩ :=
    layOut_turns hlay'
  have hnotFull : ∀ new, isFull o new ≠ true := by simp [isFull, hcap]
  have hall := hend.resolve_right (hnotFull _)
  have hall' := hend'.resolve_right (hnotFull _)
  have hlast₂ : Grew b₂ b := by
    have hinterrupt : Grew b₂ { b₂ with interrupt := i } := .of_eq rfl rfl rfl
    refine (hinterrupt.trans (grew_markNew found hmark)).trans (Grew.trans ?_ hlast)
    exact grew_arrange o laid harrange
  -- the second run is where the first one is before the turns, and so after them
  obtain ⟨htyped₀, hfollow⟩ : Typed space b b₀ ∧ Follows b b₀ c₀ := by
    simp only [ready, hmode] at hready hready'
    obtain ⟨htyped, hprepared⟩ := again_prepare hspace hmade hdims' (shareRules_of_mode hstandard)
      .optimized hstart hclear (hturns.grew.trans hlast₂) hready
    obtain ⟨c, hgives, hc⟩ := hprepared _ (follows_start hbare)
    obtain ⟨-, rfl⟩ := Prod.mk.inj (hready'.symm.trans hgives)
    exact ⟨htyped, hc⟩
  obtain ⟨rfl, -, hfollow⟩ := hturns.again hspace hmade hmode htyped₀ hfollow
    (fun turn hturn => hrules' _ (hall ▸ List.mem_map_of_mem hturn)) hlast₂ hturns'
    (hall'.trans hall.symm)
  refine ⟨b₁, turns', found, _, hb, ⟨b₀, b₂, hready, hturns, hall⟩, fun C n r hr =>
    layOut_marked hstandard hturns hmark harrange hr, hrun', ?_⟩
  have hcompile : (start .default o b.schema again .never).schema.compile = .ok () := hmade.compile
  rw [hb']
  exact congrArg o.annotate
    (layOut_remarks hmode hcompile hready' hturns' hfollow.fields hmark' harrange')

/-- A build that shares fields, of candidates with positive costs from stored fields alone, and a
second one on its output.  In the first schema the field of a candidate has the cost of the one in
whose turn it was counted as new, or else of the one that had the last turn with it; in the second
it always has the cost of the latter, and nothing else differs.  So the schemas are equal if and
only if wherever a field was counted, the last candidate with it has the cost of the first. -/
theorem runBuild_recosted (hmode : Mode.ofOptions o = .optimized) (hcap : o.maxFields = none)
    (hcosts : o.regularize = true) (hschema : schema.compile = .ok ()) (hstored : schema.Stored)
    (hspace : space.WellFounded) (hdims : space.Grounded schema)
    (hrules : ∀ r ∈ rules, r.Grounded space schema) (hpositive : ∀ r ∈ rules, 0 < r.cost)
    (hbuild : runBuild .default o schema space rules interrupt = (.ok (), b))
    (hagain : again = space ∨ again = b.space) :
    ∃ turns found b', TookTurns .default o schema space rules interrupt turns found ∧
      runBuild .default o b.schema again rules .never = (.ok (), b') ∧
      (∀ C n r, decidingAt turns found C n = some r → b.HasField C (IsCosted n r.cost)) ∧
      (∀ C n r, lastAt turns C n = some r → b'.HasField C (IsCosted n r.cost)) ∧
      b'.schema = b.schema.mapFields (recosted turns) ∧
      (b'.schema = b.schema ↔ ∀ C n x r, lastAt found C n = some x → lastAt turns C n = some r →
        r.cost = x.cost) := by
  obtain ⟨b₁, turns, found, b', hb, hturns, hmarked, hrun', hb'⟩ :=
    remarked_again hmode hcap hschema hstored hspace hdims hrules hbuild hagain
  have hcompile := (made_runBuild hschema hstored hbuild).compile
  have hturnCost : ∀ turn ∈ turns, ¬ turn.1.cost ≤ 0 := by
    obtain ⟨_, _, -, -, hall⟩ := hturns
    exact fun turn hturn => Scalar.not_le_of_lt
      (hpositive _ (hall ▸ List.mem_map_of_mem hturn))
  have hfound : found ⊆ turns := by
    obtain ⟨_, _, -, hturned, -⟩ := hturns
    exact hturned.new_sublist.subset
  have hfirst : ∀ C n r, decidingAt turns found C n = some r →
      b.HasField C (IsCosted n r.cost) := by
    intro C n r hr
    rw [hb]
    exact (hmarked C n r hr).annotated fun isMain f hf =>
      isCosted_annotate hcosts (hturnCost (r, n) (mem_of_decidingAt hfound hr)) hf
  have hannotated : o.annotate b.schema = b.schema := by
    rw [hb]
    exact o.annotate_annotate b₁.schema
  have hfinal := Schema.mapFields_eq_self_iff.mp ((o.annotate_eq b.schema).symm.trans hannotated)
  have hschema' : b'.schema = b.schema.mapFields (recosted turns) := by
    rw [hb', Options.annotate_eq, Schema.mapFields_mapFields, Schema.main?_mapFields]
    refine Schema.mapFields_congr fun e he f hf =>
      annotateField_remarked hcosts hturnCost (hfinal e he f hf) fun r hr => ?_
    obtain ⟨x, -, ⟨-, hused, hloaded, -⟩, -⟩ := isCosted_of_lastAt hcompile hfirst he hf hr
    exact ⟨hused, hloaded⟩
  refine ⟨turns, found, b', hturns, hrun', hfirst, fun C n r hr => ?_, hschema', ?_⟩
  · obtain ⟨x, hx⟩ := exists_decidingAt found hr
    obtain ⟨e, he, f, hf, hcosted⟩ := hfirst _ _ _ hx
    have hat : lastAt turns e.name f.name = some r := by
      rwa [Schema.name_of_entity? he, hcosted.1.1]
    rw [HasField, hschema']
    refine ⟨_, Schema.entity?_mapFields he, _, List.mem_map_of_mem hf, ?_⟩
    rw [recosted_of_lastAt hat]
    exact isCosted_withCost hcosted r.cost
  · rw [hschema']
    exact mapFields_recosted_iff hcosts hcompile hturnCost hfirst hfinal

end Whole

/-! ## Two costs of one count -/

namespace CountedTwice

/-- Customers and their orders. -/
def schema : Schema :=
  ⟨[ ⟨"Customer", [.native "Orders" (.objectArray "Orders")], []⟩,
     ⟨"Orders", [.native "amount" .continuous], []⟩ ]⟩

/-- The number of orders of a customer, at some cost. -/
def count (cost : Float) : Rule :=
  ⟨.tableCount, "Customer", [.field "Orders" (.objectArray "Orders")], cost, 0⟩

def rules : List Rule := [count 1, count 2]

def first : Except BuildError Unit × BuildState :=
  runBuild .default .default schema .empty rules .never

def second : Except BuildError Unit × BuildState :=
  runBuild .default .default first.2.schema .empty rules .never

theorem grounded_count (cost : Float) : (count cost).Grounded .empty schema where
  named := ⟨show Catalogue.default.template? "TableCount" = some .tableCount by decide, trivial⟩
  checked := rfl
  fields := ⟨⟨"Customer", rfl, rfl⟩, trivial⟩

theorem wellFounded_empty : Space.empty.WellFounded :=
  ⟨List.nodup_nil, List.nodup_nil, by simp [Space.empty], by simp [Space.empty]⟩

theorem stored_schema : schema.Stored := by
  simp [Schema.Stored, schema, Field.native]

theorem checked_rules : ∀ r ∈ rules, r.Grounded .empty schema ∧ 0 < r.cost := by
  have hpositive : (0 : Float) < 1 ∧ (0 : Float) < 2 := by decide +kernel
  intro r hr
  rcases List.mem_pair.mp hr with rfl | rfl
  · exact ⟨grounded_count 1, hpositive.1⟩
  · exact ⟨grounded_count 2, hpositive.2⟩

/-- The cost of a field of customers. -/
def costOf (s : Schema) (n : String) : Option Float :=
  (s.entity? "Customer").bind fun e => (e.field? n).map (·.cost)

end CountedTwice

open CountedTwice in
/-- Two candidates for the number of orders differ in cost.  The first build counts the field in the
turn of the first, and leaves it with its cost; the second build leaves it with that of the second,
so that the schemas are not equal. -/
theorem count_cost_changes :
    (∀ r ∈ rules, r.Grounded .empty schema ∧ 0 < r.cost) ∧ schema.compile = .ok () ∧
      schema.Stored ∧ first.1 = .ok () ∧ second.1 = .ok () ∧
      costOf first.2.schema "Count(Orders)" = some 1 ∧
      costOf second.2.schema "Count(Orders)" = some 2 ∧ second.2.schema ≠ first.2.schema := by
  have hone : costOf first.2.schema "Count(Orders)" = some 1 := by decide +kernel
  have htwo : costOf second.2.schema "Count(Orders)" = some 2 := by decide +kernel
  refine ⟨checked_rules, eq_ok_of_isOk (by decide +kernel), stored_schema,
    eq_ok_of_isOk (by decide +kernel), eq_ok_of_isOk (by decide +kernel), hone, htwo, fun heq => ?_⟩
  rw [heq, hone] at htwo
  exact absurd htwo (by decide +kernel)

open CountedTwice Build in
/-- Nothing else is behind it: the second build gives the field the cost of its last candidate. -/
theorem count_recosted :
    Mode.ofOptions .default = .optimized ∧ Options.default.maxFields = none ∧
      Options.default.regularize = true ∧ schema.compile = .ok () ∧ schema.Stored ∧
      Space.empty.WellFounded ∧ Space.empty.Grounded schema ∧
      (∀ r ∈ rules, r.Grounded .empty schema) ∧ (∀ r ∈ rules, 0 < r.cost) ∧
      runBuild .default .default schema .empty rules .never = (.ok (), first.2) ∧
      ∃ turns found b', TookTurns .default .default schema .empty rules .never turns found ∧
        runBuild .default .default first.2.schema .empty rules .never = (.ok (), b') ∧
        (∀ C n r, decidingAt turns found C n = some r →
          first.2.HasField C (IsCosted n r.cost)) ∧
        (∀ C n r, lastAt turns C n = some r → b'.HasField C (IsCosted n r.cost)) ∧
        b'.schema = first.2.schema.mapFields (recosted turns) ∧
        (b'.schema = first.2.schema ↔ ∀ C n x r, lastAt found C n = some x →
          lastAt turns C n = some r → r.cost = x.cost) := by
  have hcompile : schema.compile = .ok () := eq_ok_of_isOk (by decide +kernel)
  have hdims : Space.empty.Grounded schema := by simp [Space.Grounded, Space.empty]
  have hfirst : first.1.isOk = true := by decide +kernel
  have hrun : runBuild .default .default schema .empty rules .never = (.ok (), first.2) :=
    run_eq_of_isOk hfirst
  exact ⟨by decide, rfl, rfl, hcompile, stored_schema, wellFounded_empty, hdims,
    fun r hr => (checked_rules r hr).1, fun r hr => (checked_rules r hr).2, hrun,
    runBuild_recosted (by decide) rfl rfl hcompile stored_schema wellFounded_empty hdims
      (fun r hr => (checked_rules r hr).1) (fun r hr => (checked_rules r hr).2) hrun (.inl rfl)⟩

end FeatureSynth
