/-
# Analyses and the space

An analysis counts uses, links dimensions to fields of a reduced schema while it samples
them, and leaves each with the partiles found.  However it ends, it changes neither what the
space is cut along nor which parts there are.  Of the rules it looks at nothing but the uses
they make.
-/
import FeatureSynth.Proofs.Build.Attributed
import FeatureSynth.Proofs.Space.UseOrder
import FeatureSynth.Request

namespace FeatureSynth

namespace Build

/-! ## Bound dimensions -/

theorem ledgerwise_sameCuts : Ledgerwise fun b b' => b.space.SameCuts b'.space where
  refl := fun b => .refl b.space
  trans := .trans
  of_cuts := fun h _ _ => h

theorem readyParts_sameCuts :
    ReadyParts (fun m => Always (fun b b' => b.space.SameCuts b'.space) m) where
  closed := ledgerwise_sameCuts.closed
  note := fun f h => always_modify fun b => by rw [(h b).space]; exact .refl _
  formula := fun _ φ => ledgerwise_sameCuts.formulaField (fun _ => always_modify fun _ => .refl _) φ
  direct := ledgerwise_sameCuts.directField
  bindTo := fun _ _ => ledgerwise_sameCuts.space fun _ =>
    Space.sameCuts_modifyDimension _ _ fun _ => ⟨rfl, rfl⟩
  move := fun _ _ => ledgerwise_sameCuts.edit _
  count := fun rules => ledgerwise_sameCuts.space fun b =>
    Space.sameCuts_of_reset (Space.resetUses_countUses b.space rules)

end Build

/-- Where there are no dimensions and partitions there are no uses. -/
theorem Space.countUses_empty (rules : List Rule) : Space.empty.countUses rules = .empty := by
  have hreset := resetUses_countUses .empty rules
  cases hs : Space.empty.countUses rules with
  | mk dimensions partitions =>
    rw [hs] at hreset
    obtain ⟨hdimensions, hpartitions⟩ := Space.mk.inj hreset
    obtain rfl : dimensions = [] := List.map_eq_nil_iff.mp hdimensions
    obtain rfl : partitions = [] := List.map_eq_nil_iff.mp hpartitions
    rfl

/-- Whether dimensions can be bound or not, the cuts of the space stay. -/
theorem sameCuts_bindSchema (catalogue : Catalogue) (o : Options) (schema : Schema) (space : Space)
    (interrupt : Interrupt) :
    space.SameCuts (bindSchema catalogue o schema space interrupt).2.space :=
  (Space.sameCuts_clearLinks space).trans
    (Build.closed_bindDimensions Build.readyParts_sameCuts o
      (.start catalogue o schema space interrupt))

namespace Analysis

variable {α β : Type} {a a' : AnalysisRun} {catalogue : Catalogue} {o : Options} {schema : Schema}
variable {sampler : Sampler} {rules rules' : List Rule}

/-! ## Three ways to end -/

theorem run_bind (m : Analysis α) (f : α → Analysis β) (a : AnalysisRun) :
    (m >>= f).run a = (m.run a).bind fun
      | (.ok x, a₁) => (f x).run a₁
      | (.error e, a₁) => some (.error e, a₁) := by
  show ((m.run a).bind fun (x, a₁) => (ExceptT.bindCont f x).run a₁) = _
  cases m.run a with
  | none => rfl
  | some p =>
    obtain ⟨x, a₁⟩ := p
    cases x <;> rfl

/-- From a state a step of an analysis ends the program, fails with an error in some state, or
succeeds with a result in some state, as given. -/
def Ends (m : Analysis α) (a : AnalysisRun) (N : Prop) (E : BuildError → AnalysisRun → Prop)
    (Q : α → AnalysisRun → Prop) : Prop :=
  match m.run a with
  | none => N
  | some (.error e, a') => E e a'
  | some (.ok x, a') => Q x a'

namespace Ends

variable {m : Analysis α} {N N' : Prop} {E E' : BuildError → AnalysisRun → Prop}
variable {Q Q' : α → AnalysisRun → Prop} {R : β → AnalysisRun → Prop}

theorem mono (h : m.Ends a N E Q) (hN : N → N') (hE : ∀ e a', E e a' → E' e a')
    (hQ : ∀ x a', Q x a' → Q' x a') : m.Ends a N' E' Q' := by
  unfold Ends at h ⊢
  cases hrun : m.run a with
  | none =>
    rw [hrun] at h
    exact hN h
  | some p =>
    obtain ⟨x, a'⟩ := p
    rw [hrun] at h
    cases x with
    | ok x => exact hQ x a' h
    | error e => exact hE e a' h

theorem imp (h : m.Ends a N E Q) (hQ : ∀ x a', Q x a' → Q' x a') : m.Ends a N E Q' :=
  h.mono id (fun _ _ => id) hQ

theorem ret {x : α} (h : Q x a) : (pure x : Analysis α).Ends a N E Q := h

theorem fail {e : BuildError} (h : E e a) : (throw e : Analysis α).Ends a N E Q := h

theorem bind_of {f : α → Analysis β} (h : m.Ends a N E Q)
    (hf : ∀ x a₁, Q x a₁ → (f x).Ends a₁ N E R) : (m >>= f).Ends a N E R := by
  unfold Ends at h ⊢
  rw [run_bind]
  cases hrun : m.run a with
  | none =>
    rw [hrun] at h
    exact h
  | some p =>
    obtain ⟨x, a₁⟩ := p
    rw [hrun] at h
    cases x with
    | ok x => exact hf x a₁ h
    | error e => exact h

theorem get_bind {f : AnalysisRun → Analysis β} (h : (f a).Ends a N E R) :
    ((get : Analysis AnalysisRun) >>= f).Ends a N E R := h

theorem change_bind {f : AnalysisRun → AnalysisRun} {g : Unit → Analysis β}
    (h : (g ()).Ends (f a) N E R) : ((modify f : Analysis Unit) >>= g).Ends a N E R := h

theorem lift_bind {x : Except BuildError α} {f : α → Analysis β} (hE : ∀ e, x = .error e → E e a)
    (hf : ∀ y, x = .ok y → (f y).Ends a N E R) : (lift x >>= f).Ends a N E R := by
  cases x with
  | ok y => exact hf y rfl
  | error e => exact hE e rfl

/-- What is lifted is there. -/
theorem given_bind {x : Except BuildError α} {f : α → Analysis β} {y : α} (hx : x = .ok y)
    (h : (f y).Ends a N E R) : (lift x >>= f).Ends a N E R := by
  subst hx
  exact h

theorem orEnd_bind {x : Option α} {f : α → Analysis β} (hN : x = none → N)
    (hf : ∀ y, x = some y → (f y).Ends a N E R) : (orEnd x >>= f).Ends a N E R := by
  cases x with
  | none => exact hN rfl
  | some y => exact hf y rfl

/-- A look at the request to stop. -/
theorem checkInterrupt_bind {f : Unit → Analysis β}
    (hE : a.interrupt.look.1 = true →
      E .interrupted { a with interrupt := a.interrupt.look.2 })
    (hf : a.interrupt.look.1 = false →
      (f ()).Ends { a with interrupt := a.interrupt.look.2 } N E R) :
    (checkInterrupt >>= f).Ends a N E R := by
  have hlooked : checkInterrupt.run a =
      (if a.interrupt.look.1 = true then throw .interrupted else pure () : Analysis Unit).run
        { a with interrupt := a.interrupt.look.2 } := rfl
  unfold Ends
  rw [run_bind, hlooked]
  cases hlook : a.interrupt.look.1 with
  | true => exact hE hlook
  | false => exact hf hlook

/-- A loop keeps what each of its rounds keeps. -/
theorem forM {f : α → Analysis Unit} {I : AnalysisRun → Prop} {xs : List α}
    (hf : ∀ x ∈ xs, ∀ a, I a → (f x).Ends a N E fun _ => I) (h : I a) :
    (forM xs f : Analysis Unit).Ends a N E fun _ => I := by
  induction xs generalizing a with
  | nil => exact .ret h
  | cons x xs ih =>
    rw [List.forM_cons]
    exact (hf x List.mem_cons_self a h).bind_of fun _ a₁ h₁ =>
      ih (fun y hy => hf y (List.mem_cons_of_mem _ hy)) h₁

end Ends

/-! ## Cuts are kept -/

/-- However it ends, a step of an analysis leaves the cuts of the space. -/
def KeepsCuts (m : Analysis α) : Prop :=
  ∀ a : AnalysisRun, m.Ends a True (fun _ a' => a.space.SameCuts a'.space)
    fun _ a' => a.space.SameCuts a'.space

theorem KeepsCuts.pure (x : α) : KeepsCuts (pure x : Analysis α) := fun a => .ret (.refl a.space)

theorem KeepsCuts.throw (e : BuildError) : KeepsCuts (throw e : Analysis α) :=
  fun a => .fail (.refl a.space)

theorem KeepsCuts.bind {m : Analysis α} {f : α → Analysis β} (hm : KeepsCuts m)
    (hf : ∀ x, KeepsCuts (f x)) : KeepsCuts (m >>= f) := fun a =>
  (hm a).bind_of fun x a₁ h₁ =>
    (hf x a₁).mono id (fun _ _ h₂ => h₁.trans h₂) fun _ _ h₂ => h₁.trans h₂

theorem KeepsCuts.lift : ∀ x : Except BuildError α, KeepsCuts (lift x)
  | .ok x => .pure x
  | .error e => .throw e

theorem KeepsCuts.orEnd : ∀ x : Option α, KeepsCuts (orEnd x)
  | some x => .pure x
  | none => fun _ => trivial

theorem KeepsCuts.get : KeepsCuts (get : Analysis AnalysisRun) := fun a => .refl a.space

theorem KeepsCuts.modify {f : AnalysisRun → AnalysisRun}
    (h : ∀ a : AnalysisRun, a.space.SameCuts (f a).space) :
    KeepsCuts (modify f : Analysis Unit) := h

theorem KeepsCuts.forM {f : α → Analysis Unit} (h : ∀ x, KeepsCuts (f x)) (xs : List α) :
    KeepsCuts (forM xs f) := fun a =>
  .forM (fun x _ a₁ h₁ => (h x a₁).mono id (fun _ _ => h₁.trans) fun _ _ => h₁.trans)
    (.refl a.space)

theorem keepsCuts_checkInterrupt : KeepsCuts checkInterrupt := by
  refine KeepsCuts.get.bind fun a => ?_
  rcases a.interrupt.look with ⟨seen, rest⟩
  refine KeepsCuts.bind (.modify fun _ => .refl _) fun _ => ?_
  cases seen with
  | true => exact .throw _
  | false => exact .pure _

theorem keepsCuts_reducedSchema : KeepsCuts (reducedSchema catalogue o schema) := by
  intro a
  have hbound := sameCuts_bindSchema catalogue o schema a.space (a.buildInterrupt.getD a.interrupt)
  refine .get_bind ?_
  dsimp only
  cases hbind : bindSchema catalogue o schema a.space (a.buildInterrupt.getD a.interrupt) with
  | mk result b =>
    rw [hbind] at hbound
    cases result <;> exact hbound

theorem keepsCuts_analyseDimension (samples : Samples) (rank : Nat) (r : SampleRequest) :
    KeepsCuts (analyseDimension samples rank r) :=
  keepsCuts_checkInterrupt.bind fun _ => (KeepsCuts.orEnd _).bind fun _ =>
    (KeepsCuts.lift _).bind fun _ => .modify fun _ =>
      Space.sameCuts_modifyDimension _ _ fun _ => ⟨rfl, rfl⟩

theorem keepsCuts_takeSamples (requests : List SampleRequest) :
    KeepsCuts (takeSamples sampler schema requests) := by
  have hnote : ∀ a : AnalysisRun, a.space.SameCuts (noteStop a).space := by
    intro a
    unfold noteStop
    split <;> exact .refl _
  have hstore : ∀ samples : Samples, KeepsCuts (do
      modify fun run => { run with analyser := { run.analyser with objects := samples.objects } }
      return samples) :=
    fun _ => KeepsCuts.bind (.modify fun _ => .refl _) fun _ => .pure _
  unfold takeSamples
  dsimp only
  split
  · refine KeepsCuts.bind (.modify hnote) fun _ => ?_
    split
    · exact hstore _
    · exact .throw _
    · exact .throw _
  · split
    · exact hstore _
    · exact .throw _
    · exact .throw _

theorem keepsCuts_analyseDimensions (ranks : List Nat) :
    KeepsCuts (analyseDimensions catalogue o schema sampler ranks) := by
  refine KeepsCuts.get.bind fun a => (KeepsCuts.lift _).bind fun _ =>
    keepsCuts_checkInterrupt.bind fun _ => keepsCuts_reducedSchema.bind fun reduced => ?_
  refine KeepsCuts.bind (.modify fun _ => .refl _) fun _ => KeepsCuts.get.bind fun b =>
    (KeepsCuts.lift _).bind fun requests => keepsCuts_checkInterrupt.bind fun _ =>
      (keepsCuts_takeSamples requests).bind fun samples => ?_
  refine KeepsCuts.bind (.modify fun _ => .refl _) fun _ => KeepsCuts.bind (.forM ?_ _) fun _ =>
    .modify fun a => Space.sameCuts_clearLinks a.space
  rintro ⟨rank, r⟩
  exact keepsCuts_analyseDimension samples rank r

theorem keepsCuts_analyseRules (rules : List Rule) :
    KeepsCuts (analyseRules catalogue o schema sampler rules) := by
  refine KeepsCuts.bind (.modify fun a => ?_) fun _ => KeepsCuts.get.bind fun b => ?_
  · exact Space.sameCuts_of_reset (Space.resetUses_countUses a.space rules)
  · split
    · exact .pure _
    · exact keepsCuts_analyseDimensions _

/-! ## Analyses -/

/-- An analysis ends as the analysis of the dimensions in use does, but for what it notes and clears
then. -/
theorem complete?_eq_some {result : Except BuildError Unit} :
    complete? catalogue o schema sampler rules a = some (result, a') ↔
      ∃ a₁, (analyseRules catalogue o schema sampler rules).run a = some (result, a₁) ∧
        a' = match result with
          | .ok () => { a₁ with analyser := { a₁.analyser with state := .partitionsComputed } }
          | .error e => abandon e a₁ := by
  rw [complete?, Option.map_eq_some_iff]
  constructor
  · rintro ⟨⟨x, a₁⟩, hrun, hend⟩
    cases x <;> cases hend <;> exact ⟨a₁, hrun, rfl⟩
  · rintro ⟨a₁, hrun, rfl⟩
    refine ⟨(result, a₁), hrun, ?_⟩
    cases result <;> rfl

/-- However it ends, an analysis leaves the cuts of the space. -/
theorem sameCuts_complete? {result : Except BuildError Unit}
    (h : complete? catalogue o schema sampler rules a = some (result, a')) :
    a.space.SameCuts a'.space := by
  obtain ⟨a₁, hrun, rfl⟩ := complete?_eq_some.mp h
  have hend : (analyseRules catalogue o schema sampler rules).Ends a True
      (fun _ a' => a.space.SameCuts a'.space) fun _ a' => a.space.SameCuts a'.space :=
    keepsCuts_analyseRules rules a
  unfold Ends at hend
  rw [hrun] at hend
  cases result with
  | ok u => exact hend
  | error e =>
    have hclear : a₁.space.SameCuts a₁.space.clearLevels :=
      ⟨by simp [Space.frame, Space.clearLevels], rfl⟩
    exact hend.trans (hclear.trans (Space.sameCuts_clearLinks _))

/-- Rules that make the same uses are analysed alike. -/
theorem complete?_of_countUses (h : ∀ s : Space, s.countUses rules = s.countUses rules')
    (a : AnalysisRun) : complete? catalogue o schema sampler rules a =
      complete? catalogue o schema sampler rules' a := by
  have heq : analyseRules catalogue o schema sampler rules =
      analyseRules catalogue o schema sampler rules' := by
    simp only [analyseRules, h]
  rw [complete?, heq, complete?]

/-- What can neither end the program nor fail succeeds. -/
theorem run_eq_some {α : Type} {m : Analysis α} {a : AnalysisRun} {Q : α → AnalysisRun → Prop}
    (h : m.Ends a False (fun _ _ => False) Q) : ∃ x a', m.run a = some (.ok x, a') ∧ Q x a' := by
  unfold Ends at h
  cases hrun : m.run a with
  | none =>
    rw [hrun] at h
    cases h
  | some ending =>
    rw [hrun] at h
    obtain ⟨result, a'⟩ := ending
    cases result with
    | error e => cases h
    | ok x => exact ⟨x, a', rfl, h⟩

/-- What can neither fail nor succeed comes to no end. -/
theorem run_eq_none {α : Type} {m : Analysis α} {a : AnalysisRun}
    (h : m.Ends a True (fun _ _ => False) fun _ _ => False) : m.run a = none := by
  unfold Ends at h
  cases hrun : m.run a with
  | none => rfl
  | some ending =>
    rw [hrun] at h
    obtain ⟨result, a'⟩ := ending
    cases result <;> cases h

/-- Where no dimension is used, uses are counted and nothing is sampled. -/
theorem complete?_of_unused (h : (a.space.countUses rules).usedDimensions = []) :
    complete? catalogue o schema sampler rules a =
      some (.ok (), ⟨{ a.analyser with state := .partitionsComputed }, a.space.countUses rules,
        a.interrupt, a.buildInterrupt⟩) := by
  have hends : (analyseRules catalogue o schema sampler rules).Ends a False (fun _ _ => False)
      fun _ a' => a' = ⟨a.analyser, a.space.countUses rules, a.interrupt, a.buildInterrupt⟩ := by
    refine .change_bind (.get_bind ?_)
    dsimp only
    rw [h]
    exact .ret rfl
  obtain ⟨_, a', hrun, rfl⟩ := run_eq_some hends
  rw [complete?, hrun]
  rfl

theorem ends_reducedSchema_of_bound {analyser : Analyser} {s : Space} {b : BuildState}
    (hbind : bindSchema catalogue o schema s .never = (.ok (), b)) (hcalm : b.interrupt = .never) :
    (reducedSchema catalogue o schema).Ends ⟨analyser, s, .never, none⟩ True (fun _ _ => False)
      fun reduced a' => reduced = b.reduced ∧ a' = ⟨analyser, b.space, .never, none⟩ := by
  refine .get_bind ?_
  dsimp only
  rw [Option.getD_none, hbind, ← hcalm]
  exact ⟨rfl, rfl⟩

theorem ends_takeSamples_of_served {reduced : Schema} {requests : List SampleRequest}
    {samples : Samples} (hsamples : sampler reduced requests = ⟨.ok samples, false⟩)
    (a : AnalysisRun) :
    (takeSamples sampler reduced requests).Ends a True (fun _ _ => False)
      fun x a' => x = samples ∧ a'.interrupt = a.interrupt := by
  unfold takeSamples
  rw [hsamples]
  exact ⟨rfl, rfl⟩

/-- Where nothing else stops it, an analysis whose first column cannot be cut comes to no end. -/
theorem complete?_of_uncut {analyser : Analyser} {s space : Space} {b : BuildState}
    {samples : Samples} {r : SampleRequest} {l : List SampleRequest}
    (hcount : space.countUses rules = s)
    (hclasses : (s.usedDimensions.filterMap fun rank => s.dimensions[rank]?).forM
      (checkClass analyser.classes) = .ok ())
    (hbind : bindSchema catalogue o schema s .never = (.ok (), b)) (hcalm : b.interrupt = .never)
    (hrequests : (s.usedDimensions.filterMap fun rank => b.space.dimensions[rank]?).mapM
      requestFor = .ok (r :: l))
    (hsamples : sampler b.reduced (r :: l) = ⟨.ok samples, false⟩)
    (hlevels : levelsFor? samples r = none) :
    complete? catalogue o schema sampler rules ⟨analyser, space, .never, none⟩ = none := by
  have hends : (analyseRules catalogue o schema sampler rules).Ends
      ⟨analyser, space, .never, none⟩ True (fun _ _ => False) fun _ _ => False := by
    refine .change_bind (.get_bind ?_)
    dsimp only
    rw [hcount]
    cases hused : s.usedDimensions with
    | nil =>
      rw [hused] at hrequests
      cases hrequests
    | cons rank ranks =>
      rw [hused] at hclasses hrequests
      refine .get_bind (.given_bind hclasses (.checkInterrupt_bind nofun fun _ => ?_))
      refine .bind_of (ends_reducedSchema_of_bound hbind hcalm) fun reduced a₂ ⟨hreduced, ha₂⟩ => ?_
      subst hreduced ha₂
      refine .change_bind (.get_bind (.given_bind hrequests
        (.checkInterrupt_bind nofun fun _ => ?_)))
      refine .bind_of (ends_takeSamples_of_served hsamples _) fun x a₃ ⟨hx, hnever⟩ =>
        .change_bind ?_
      subst hx
      rw [List.zip_cons_cons, List.forM]
      refine .bind_of (.bind_of (.checkInterrupt_bind (fun hlook => ?_) fun _ =>
        .orEnd_bind (fun _ => trivial) fun y hy => ?_) fun _ _ => False.elim) fun _ _ => False.elim
      · rw [show a₃.interrupt = .never from hnever] at hlook
        cases hlook
      · rw [hlevels] at hy
        cases hy
  rw [complete?, run_eq_none hends, Option.map_none]

end Analysis

end FeatureSynth
