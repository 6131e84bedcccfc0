/-
# One field per candidate

Without sharing a build asks for the whole formula of each candidate in turn.
What it adds does not depend on the memo, the short ways out or the order of the
candidates: to each class the formulas of its candidates that the record of the
class does not know yet, each once.

The invariant `Direct` speaks of the candidates done so far.  Every addition
answers one of them, the first with its formula, and every candidate is answered,
by an addition or by a field that is marked already.
-/
import FeatureSynth.Proofs.Build.Marks
import FeatureSynth.Proofs.Build.Whole
import FeatureSynth.Proofs.Registry.Memo

namespace FeatureSynth

namespace Space

variable {s : Space} {r : Rule} {φ : Formula}

/-- Whether a rule has a formula. -/
def computes (s : Space) (φ : Formula) (r : Rule) : Bool :=
  match s.formula r with
  | .ok ψ => ψ == φ
  | .error _ => false

theorem computes_iff : s.computes φ r = true ↔ s.formula r = .ok φ := by
  unfold computes
  cases s.formula r <;> simp

/-- The first candidate of a class that has a formula. -/
def firstCandidate? (s : Space) (rules : List Rule) (C : String) (φ : Formula) : Option Rule :=
  rules.find? fun r => r.className == C && s.computes φ r

theorem of_firstCandidate? {rules : List Rule} {C : String}
    (h : s.firstCandidate? rules C φ = some r) :
    r ∈ rules ∧ r.className = C ∧ s.formula r = .ok φ := by
  have hr := List.find?_some h
  simp only [Bool.and_eq_true, beq_iff_eq, computes_iff] at hr
  exact ⟨List.mem_of_find?_eq_some h, hr⟩

/-- One more candidate is the first if none before it has its class and formula. -/
theorem firstCandidate?_append {done : List Rule} (hformula : s.formula r = .ok φ)
    (hnone : ∀ x ∈ done, x.className = r.className → s.formula x ≠ .ok φ) :
    s.firstCandidate? (done ++ [r]) r.className φ = some r := by
  rw [firstCandidate?, List.find?_append, Option.or_eq_some_iff]
  refine .inr ⟨List.find?_eq_none.mpr fun x hx => ?_, ?_⟩
  · simp only [Bool.and_eq_true, beq_iff_eq, computes_iff, not_and]
    exact hnone x hx
  · simp [computes_iff.mpr hformula]

theorem firstCandidate?_mono {done : List Rule} {C : String} {x : Rule}
    (h : s.firstCandidate? done C φ = some x) :
    s.firstCandidate? (done ++ [r]) C φ = some x := by
  rw [firstCandidate?, List.find?_append]
  exact Option.or_eq_some_iff.mpr (.inl h)

end Space

namespace BuildState

/-- No class remembers a wrong answer. -/
def MemosSound (b : BuildState) : Prop :=
  ∀ C c, b.registry.class? C = some c → c.MemoSound b.space

end BuildState

namespace Build

open BuildState

/-! ## The memo -/

/-- The space stays, and nothing wrong gets remembered. -/
def KeepsMemos (b b' : BuildState) : Prop :=
  b'.space = b.space ∧ (b.MemosSound → b'.MemosSound)

theorem closed_keepsMemos : Closed (fun m => Respects KeepsMemos m) :=
  Chained.respects ⟨fun _ => ⟨rfl, id⟩, fun h h' => ⟨h'.1.trans h.1, fun hb => h'.2 (h.2 hb)⟩⟩

theorem KeepsMemos.of_eq {b b' : BuildState} (hs : b'.space = b.space)
    (hg : b'.registry = b.registry) : KeepsMemos b b' := by
  refine ⟨hs, fun h C c hc => ?_⟩
  rw [hs]
  exact h C c (hg ▸ hc)

/-- A record replaced by one that remembers nothing wrong. -/
theorem memosSound_set {b b' : BuildState} {C : String} {c c' : ClassRecord} (h : b.MemosSound)
    (hs : b'.space = b.space) (hg : b'.registry = b.registry.set C c')
    (hc : b.registry.class? C = some c) (hname : c'.className = c.className)
    (hsound : c'.MemoSound b.space) : b'.MemosSound := by
  intro D d hd
  rw [hs]
  rw [hg] at hd
  by_cases hD : C = D
  · subst hD
    rw [Registry.class?_set hc hname] at hd
    exact Option.some.inj hd ▸ hsound
  · rw [Registry.class?_set_ne (hname.trans (Registry.className_of_class? hc)) hD] at hd
    exact h D d hd

theorem keepsMemos_register (C : String) (f : Field) :
    Respects KeepsMemos (register C (·.registerDerived f)) := by
  intro b u b' h
  obtain ⟨c, c', hc, hreg, rfl⟩ := gives_register.mp h
  refine ⟨rfl, fun hb => ?_⟩
  obtain ⟨φ, -, -, hname, hfields, -⟩ := ClassRecord.registerDerived_eq_ok hreg
  refine memosSound_set hb rfl rfl hc hname ((hb C c hc).mono ?_ ?_)
  · intro key n hn
    rw [hfields, List.lookup_append, hn, Option.some_or]
  · exact ClassRecord.memo_registerDerived hreg

theorem keepsMemos_fieldFor {C : String} {φ : Formula} {type : Except BuildError FieldType}
    {make : Naming} : Respects KeepsMemos (fieldFor C φ type make) := by
  have hfree : Respects KeepsMemos (freeName C make) := by
    intro b name b' h
    obtain ⟨_, _, _, -, -, -, rfl⟩ := gives_freeName.mp h
    exact .of_eq rfl rfl
  have hinsert : ∀ f : Field, Respects KeepsMemos (insertDerived C f) := by
    intro f
    refine closed_keepsMemos.bind (keepsMemos_register C f) fun _ =>
      closed_keepsMemos.bind ?_ fun _ => closed_keepsMemos.bind ?_ fun _ =>
        closed_keepsMemos.pure _
    · intro b u b' h
      obtain ⟨_, _, -, -, rfl⟩ := gives_edit.mp h
      exact .of_eq rfl rfl
    · intro b u b' h
      obtain ⟨-, -, hg, -, hsame⟩ := mem_noteField (D := C) (n := C) h
      exact .of_eq hsame.space hg
  refine closed_keepsMemos.bind (closed_keepsMemos.record C) fun c => ?_
  split
  · exact closed_keepsMemos.bind (always_modify fun _ => .of_eq rfl rfl).respects fun _ =>
      closed_keepsMemos.pure _
  · exact closed_keepsMemos.bind hfree fun _ =>
      closed_keepsMemos.bind (closed_keepsMemos.lift _) fun _ => hinsert _

/-! ## One candidate -/

/-- What a field that answers a formula adds: nothing if the record knows the formula, and else a
derived field with it. -/
def Answered (C : String) (φ : Formula) (c : ClassRecord) (n : String)
    (added : String → List Addition) : Prop :=
  (c.field? φ = some n ∧ added = fun _ => []) ∨
    (c.field? φ = none ∧ ∃ t, added = only C [⟨(Field.derived n t φ).core, (φ, none)⟩])

/-- A candidate has a formula, and its field is the one the record knows the formula by, or a new
one with the formula. -/
theorem directField_cases {r : Rule} {n : String} {b b' : BuildState}
    (h : (directField r).Gives b n b') (hmemos : b.MemosSound) :
    b'.space = b.space ∧ b'.MemosSound ∧ KeepsFields b b' ∧
      ∃ φ c added, b.space.formula r = .ok φ ∧ b.registry.class? r.className = some c ∧
        Answered r.className φ c n added ∧ Grows added (fun _ => []) b b' := by
  simp only [directField, gives_record_bind, gives_get_bind, gives_lift_bind] at h
  obtain ⟨c, hc, ⟨existing, c'⟩, hlookup, h⟩ := h
  obtain ⟨_, b₁, hset, h⟩ := gives_bind.mp h
  obtain ⟨hname, hfields, hblocks⟩ := ClassRecord.lookupRule_keeps hlookup
  obtain ⟨hsound, hanswer⟩ := ClassRecord.lookupRule_sound (hmemos _ c hc) hlookup
  have hnoted := stays_setRecord hset hc hname hfields hblocks
  rw [gives_setRecord] at hset
  have hmemos₁ : b₁.MemosSound :=
    memosSound_set hmemos (by rw [hset]) (by rw [hset]) hc hname hsound
  have hfields₁ : KeepsFields b b₁ := .of_eq (by rw [hset])
  have hspace₁ : b₁.space = b.space := by rw [hset]
  have hc₁ : b₁.registry.class? r.className = some c' := by
    rw [hset]; exact Registry.class?_set hc hname
  have hfield? : ∀ φ, c'.field? φ = c.field? φ := fun φ => by
    rw [ClassRecord.field?, ClassRecord.field?, hfields]
  cases existing with
  | some name =>
    obtain ⟨rfl, rfl⟩ := gives_reuse.mp h
    obtain ⟨φ, hφ, hn⟩ := hanswer n rfl
    refine ⟨hspace₁, hmemos₁, hfields₁, φ, c, _, hφ, hc, .inl ⟨hn, rfl⟩, ?_⟩
    exact ⟨hnoted.entities, hnoted.classes, hnoted.grows, hnoted.created,
        hnoted.createdBlocks⟩
  | none =>
    simp only [gives_get_bind, gives_lift_bind] at h
    obtain ⟨φ, hφ, h⟩ := h
    rw [hspace₁] at hφ
    obtain ⟨hspace₂, hmemos₂⟩ := keepsMemos_fieldFor h
    obtain ⟨-, d, hd, hcases⟩ := fieldFor_cases h
    obtain rfl : c' = d := Option.some.inj (hc₁.symm.trans hd)
    have hkeeps : KeepsFields b b' := chained_keepsFields.trans hfields₁ (keepsFields_fieldFor h)
    rw [hfield?] at hcases
    refine ⟨hspace₂.trans hspace₁, hmemos₂ hmemos₁, hkeeps, φ, c, ?_⟩
    rcases hcases with ⟨hn, rfl⟩ | ⟨hnone, t, -, hg⟩
    · exact ⟨_, hφ, hc, .inl ⟨hn, rfl⟩,
        ⟨hnoted.entities, hnoted.classes, hnoted.grows, hnoted.created,
        hnoted.createdBlocks⟩⟩
    · refine ⟨_, hφ, hc, .inr ⟨hnone, t, rfl⟩, ?_⟩
      simpa [only_nil] using hnoted.trans hg

end Build

end FeatureSynth
