/-
# Standard builds compute exactly the candidates

The invariant of the loop over the candidates, kept by each of them, and from it
the statement on whole builds: the added formulas of a class are those of its
candidates without those its record knew, each once; every candidate has a used
and loaded field; and nothing else is added.
-/
import FeatureSynth.Proofs.Build.Direct
import FeatureSynth.Template.Default

namespace FeatureSynth

namespace Build

open BuildState

/-- A field that answers a candidate: used and loaded. -/
def IsTaken (n : String) (f : Field) : Prop := f.name = n ∧ f.used = true ∧ f.loaded = true

/-- The state in which the candidates done have a field each: `added` are the additions, and `new`
pairs each with the first candidate it answers. -/
structure Direct (b₀ : BuildState) (added : String → List Addition) (done : List Rule)
    (new : NewFields) (b : BuildState) : Prop where
  space : b.space = b₀.space
  memos : b.MemosSound
  grows : Grows added (fun _ => []) b₀ b
  asked : ∀ C, ∀ a ∈ added C, ∃ r φ, b₀.space.firstCandidate? done C φ = some r ∧
    a.key = (φ, none) ∧ (r, a.field.name) ∈ new
  answered : ∀ r ∈ done, ∃ φ n, b₀.space.formula r = .ok φ ∧ b.Knows r.className φ n ∧
    ((∃ a ∈ added r.className, a.field.name = n) ∨ b.HasField r.className (IsTaken n))
  new_added : ∀ r n, (r, n) ∈ new → ∃ a ∈ added r.className, a.field.name = n
  new_nodup : new.paths.Nodup

theorem direct_nil {b₀ : BuildState} (hmemos : b₀.MemosSound) :
    Direct b₀ (fun _ => []) [] [] b₀ where
  space := rfl
  memos := hmemos
  grows := .refl b₀
  asked := by simp
  answered := by simp
  new_added := by simp
  new_nodup := by simp [NewFields.paths]

theorem has_iff {new : NewFields} {C n : String} :
    new.has C n = true ↔ ∃ r, (r, n) ∈ new ∧ r.className = C := by
  simp only [NewFields.has, List.any_eq_true, Bool.and_eq_true, beq_iff_eq]
  constructor
  · rintro ⟨⟨r, m⟩, hmem, hC, rfl⟩
    exact ⟨r, hmem, hC⟩
  · rintro ⟨r, hmem, hC⟩
    exact ⟨(r, n), hmem, hC, rfl⟩

namespace Direct

variable {b₀ b b' : BuildState} {added added' : String → List Addition} {done : List Rule}
variable {new new' : NewFields} {r : Rule} {φ : Formula} {n : String} {C : String}

/-- One more candidate: what is left to see to is its own answer and its own addition. -/
theorem extend (h : Direct b₀ added done new b) (hspace : b'.space = b.space)
    (hmemos : b'.MemosSound) (hg : Grows added' (fun _ => []) b b')
    (hkeeps : ∀ C n, b.HasField C (IsTaken n) → b'.HasField C (IsTaken n))
    (hφ : b₀.space.formula r = .ok φ) (hknows : b'.Knows r.className φ n)
    (hanswer : (∃ a ∈ added r.className ++ added' r.className, a.field.name = n) ∨
      b'.HasField r.className (IsTaken n))
    (hsub : ∀ p ∈ new, p ∈ new')
    (hasked : ∀ C, ∀ a ∈ added' C, ∃ x ψ, b₀.space.firstCandidate? (done ++ [r]) C ψ = some x ∧
      a.key = (ψ, none) ∧ (x, a.field.name) ∈ new')
    (hnew : ∀ x m, (x, m) ∈ new' → (x, m) ∈ new ∨
      ∃ a ∈ added' x.className, a.field.name = m)
    (hnodup : new'.paths.Nodup) :
    Direct b₀ (fun C => added C ++ added' C) (done ++ [r]) new' b' where
  space := hspace.trans h.space
  memos := hmemos
  grows := h.grows.trans hg
  asked := by
    intro C a ha
    rcases List.mem_append.mp ha with ha | ha
    · obtain ⟨x, ψ, hfirst, hkey, hmem⟩ := h.asked C a ha
      exact ⟨x, ψ, Space.firstCandidate?_mono hfirst, hkey, hsub _ hmem⟩
    · exact hasked C a ha
  answered := by
    intro x hx
    rcases List.mem_append.mp hx with hx | hx
    · obtain ⟨ψ, m, hψ, hk, hm⟩ := h.answered x hx
      refine ⟨ψ, m, hψ, hg.knows hk, ?_⟩
      rcases hm with ⟨a, ha, ham⟩ | hm
      · exact .inl ⟨a, List.mem_append_left _ ha, ham⟩
      · exact .inr (hkeeps _ _ hm)
    · obtain rfl := List.mem_singleton.mp hx
      exact ⟨φ, n, hφ, hknows, hanswer⟩
  new_added := by
    intro x m hmem
    rcases hnew x m hmem with hmem | ⟨a, ha, ham⟩
    · obtain ⟨a, ha, ham⟩ := h.new_added x m hmem
      exact ⟨a, List.mem_append_left _ ha, ham⟩
    · exact ⟨a, List.mem_append_right _ ha, ham⟩
  new_nodup := hnodup

/-- A candidate that is answered by a field the record knows adds nothing. -/
theorem extend_known (h : Direct b₀ added done new b) (hspace : b'.space = b.space)
    (hmemos : b'.MemosSound) (hg : Stays b b')
    (hkeeps : ∀ C n, b.HasField C (IsTaken n) → b'.HasField C (IsTaken n))
    (hφ : b₀.space.formula r = .ok φ) (hknows : b'.Knows r.className φ n)
    (hanswer : (∃ a ∈ added r.className, a.field.name = n) ∨ b'.HasField r.className (IsTaken n)) :
    Direct b₀ added (done ++ [r]) new b' := by
  have := h.extend hspace hmemos hg hkeeps hφ hknows (by simpa using hanswer) (fun _ hp => hp)
    (by simp) (fun _ _ hp => .inl hp) h.new_nodup
  simpa using this

/-- A marked field is taken, and marks take nothing back. -/
theorem isTaken_marked {cost : Float} {u : Unit} (h : (markCandidate C n cost).Gives b u b') :
    b'.HasField C (IsTaken n) ∧
      ∀ D m, b.HasField D (IsTaken m) → b'.HasField D (IsTaken m) := by
  refine ⟨(hasField_marked h).imp fun f hf => ⟨hf.1, hf.2.1, hf.2.2.1⟩, fun D m hm => ?_⟩
  exact hasField_of_mark h hm fun f _ _ hf => ⟨hf.1, rfl, rfl⟩

/-- What is done with the field that answers a candidate: it is noted as new, or marked. -/
def settleDirect (new : NewFields) (r : Rule) (name : String) : Build NewFields := do
  if (← get).isCreated r.className name then
    return if new.has r.className name then new else new ++ [(r, name)]
  else
    markCandidate r.className name r.cost
    return new

/-- A candidate whose formula the record knows is answered by an addition, which is among the new
ones, or by a field of the input, which gets marked. -/
theorem step_known (h₀ : b₀.Untouched) (h : Direct b₀ added done new b) {b₁ : BuildState}
    (hspace : b₁.space = b.space) (hmemos : b₁.MemosSound) (hg : Stays b b₁)
    (hkeeps : ∀ C n, b.HasField C (IsTaken n) → b₁.HasField C (IsTaken n))
    (hφ : b₀.space.formula r = .ok φ) (hknows : b₁.Knows r.className φ n)
    (hrun : (settleDirect new r n).Gives b₁ new' b') : Direct b₀ added (done ++ [r]) new' b' := by
  rw [settleDirect, gives_get_bind] at hrun
  cases hcreated : b₁.isCreated r.className n with
  | true =>
    obtain ⟨a, ha, han⟩ := ((h.grows.trans hg).isCreated_iff h₀).mp hcreated
    rw [List.append_nil] at ha
    obtain ⟨x, ψ, hfirst, -, hmem⟩ := h.asked _ a ha
    have hhas : new.has r.className n = true :=
      has_iff.mpr ⟨x, han ▸ hmem, (Space.of_firstCandidate? hfirst).2.1⟩
    rw [if_pos hcreated, if_pos hhas, gives_pure] at hrun
    obtain ⟨rfl, rfl⟩ := hrun
    exact h.extend_known hspace hmemos hg hkeeps hφ hknows (.inl ⟨a, ha, han⟩)
  | false =>
    rw [hcreated, if_neg Bool.false_ne_true] at hrun
    obtain ⟨_, b₂, hmark, hpure⟩ := gives_bind.mp hrun
    obtain ⟨rfl, rfl⟩ := gives_pure.mp hpure
    have hg₂ := (stays_markCandidate _ _ _).respects hmark
    obtain ⟨htaken, hstill⟩ := isTaken_marked hmark
    obtain ⟨e₁, -, -, hb'⟩ := gives_markCandidate hmark
    refine h.extend_known ?_ ?_ (hg.trans hg₂) (fun C n hC => hstill C n (hkeeps C n hC)) hφ
      (hg₂.knows hknows) (.inr htaken)
    · rw [hb']; exact hspace
    · rw [hb']; exact hmemos

/-- A candidate whose formula is not known is the first one that has it. -/
theorem firstCandidate?_of_unknown (h : Direct b₀ added done new b) {c : ClassRecord}
    (hc : b.registry.class? r.className = some c) (hnone : c.field? φ = none)
    (hφ : b₀.space.formula r = .ok φ) :
    b₀.space.firstCandidate? (done ++ [r]) r.className φ = some r := by
  refine Space.firstCandidate?_append hφ fun x hx hC hx' => ?_
  obtain ⟨ψ, m, hψ, ⟨e, c', -, hc', hm⟩, -⟩ := h.answered x hx
  obtain rfl : ψ = φ := Except.ok.inj (hψ.symm.trans hx')
  rw [hC] at hc'
  obtain rfl : c = c' := Option.some.inj (hc.symm.trans hc')
  rw [hnone] at hm
  cases hm

/-- No field that is among the new ones has the name of one that comes after it. -/
theorem className_ne_of_added (h₀ : b₀.Untouched) (h : Direct b₀ added done new b)
    {b₁ : BuildState} (hg : Grows added' (fun _ => []) b b₁) {c : ClassRecord}
    (hc : b.registry.class? C = some c) {a : Addition} (ha : a ∈ added' C) {x : Rule}
    (hx : (x, a.field.name) ∈ new) : x.className ≠ C := by
  rintro rfl
  obtain ⟨e₀, c₀, e, he₀, hc₀, he, hclass⟩ := h.grows.class_of_untouched h₀ hc
  obtain ⟨e₁, c₁, he₁, hc₁, hclass₁⟩ := hg.grows x.className e c he hc
  obtain ⟨a', ha', hname⟩ := h.new_added x _ hx
  exact hclass₁.fresh a ha (hname ▸ hclass.added_name_mem ha')

/-- A candidate whose formula is not known is answered by a new field, and is noted with it. -/
theorem step_created (h₀ : b₀.Untouched) (h : Direct b₀ added done new b) {b₁ : BuildState}
    {c : ClassRecord} {type : FieldType} (hspace : b₁.space = b.space) (hmemos : b₁.MemosSound)
    (hg : Grows (only r.className [⟨(Field.derived n type φ).core, (φ, none)⟩]) (fun _ => []) b b₁)
    (hkeeps : ∀ C n, b.HasField C (IsTaken n) → b₁.HasField C (IsTaken n))
    (hφ : b₀.space.formula r = .ok φ) (hc : b.registry.class? r.className = some c)
    (hnone : c.field? φ = none) (hrun : (settleDirect new r n).Gives b₁ new' b') :
    ∃ added', Direct b₀ added' (done ++ [r]) new' b' := by
  let a : Addition := ⟨(Field.derived n type φ).core, (φ, none)⟩
  have ha : a ∈ only r.className [a] r.className := by simp [only]
  have hcreated : b₁.isCreated r.className n = true :=
    ((h.grows.trans hg).isCreated_iff h₀).mpr ⟨a, List.mem_append_right _ ha, rfl⟩
  have hold : ∀ x, (x, n) ∈ new → x.className ≠ r.className := fun x =>
    h.className_ne_of_added h₀ hg hc ha
  have hhas : new.has r.className n = false := by
    rw [Bool.eq_false_iff, ne_eq, has_iff]
    rintro ⟨x, hx, hC⟩
    exact hold x hx hC
  have hknows : b₁.Knows r.className φ n := by
    obtain ⟨e₀, c₀, e, he₀, hc₀, he, hclass⟩ := h.grows.class_of_untouched h₀ hc
    obtain ⟨e₁, c₁, he₁, hc₁, hclass₁⟩ := hg.grows r.className e c he hc
    exact ⟨e₁, c₁, he₁, hc₁, hclass₁.lookup_added ha⟩
  rw [settleDirect, gives_get_bind, if_pos hcreated, hhas, if_neg Bool.false_ne_true,
    gives_pure] at hrun
  obtain ⟨rfl, rfl⟩ := hrun
  refine ⟨_, h.extend hspace hmemos hg hkeeps hφ hknows
    (.inl ⟨a, List.mem_append_right _ ha, rfl⟩) (fun p hp => List.mem_append_left _ hp) ?_ ?_ ?_⟩
  · intro C a' ha'
    by_cases hC : r.className = C
    · subst hC
      obtain rfl : a' = a := by simpa [only] using ha'
      exact ⟨r, φ, h.firstCandidate?_of_unknown hc hnone hφ, rfl,
        List.mem_append_right _ (List.mem_singleton.mpr rfl)⟩
    · simp [only, hC] at ha'
  · intro x m hmem
    rcases List.mem_append.mp hmem with hmem | hmem
    · exact .inl hmem
    · obtain ⟨rfl, rfl⟩ : x = r ∧ m = n := by simpa using hmem
      exact .inr ⟨a, ha, rfl⟩
  · rw [NewFields.paths, List.map_append, List.nodup_append]
    refine ⟨h.new_nodup, by simp, ?_⟩
    rintro _ hp _ hp' rfl
    obtain ⟨⟨x, m⟩, hmem, hpath⟩ := List.mem_map.mp hp
    obtain ⟨hC, rfl⟩ : x.className = r.className ∧ m = n := by simpa [← hpath] using hp'
    exact hold x hmem hC

/-- Every candidate keeps the invariant. -/
theorem step (h₀ : b₀.Untouched) (h : Direct b₀ added done new b)
    (hrun : (directCandidate new r).Gives b new' b') :
    ∃ added', Direct b₀ added' (done ++ [r]) new' b' := by
  obtain ⟨n, b₁, hdirect, hsettle⟩ := gives_bind.mp hrun
  obtain ⟨hspace, hmemos, hfields, φ, c, added₁, hφ, hc, hanswered, hg⟩ :=
    directField_cases hdirect h.memos
  rw [h.space] at hφ
  have hkeeps : ∀ C n, b.HasField C (IsTaken n) → b₁.HasField C (IsTaken n) :=
    fun C n => hfields C (IsTaken n)
  rcases hanswered with ⟨hn, rfl⟩ | ⟨hnone, t, rfl⟩
  · obtain ⟨e₀, c₀, e, he₀, hc₀, he, -⟩ := h.grows.class_of_untouched h₀ hc
    have hknows : b₁.Knows r.className φ n := hg.knows ⟨e, c, he, hc, hn⟩
    exact ⟨added, h.step_known h₀ hspace hmemos hg hkeeps hφ hknows hsettle⟩
  · exact h.step_created h₀ hspace hmemos hg hkeeps hφ hc hnone hsettle

/-- Looks at the interrupt do not matter. -/
theorem checked {u : Unit} (h : Direct b₀ added done new b) (hrun : checkInterrupt.Gives b u b') :
    Direct b₀ added done new b' := by
  obtain ⟨-, rfl⟩ := gives_checkInterrupt.mp hrun
  exact
    { space := h.space
      memos := h.memos
      grows := ⟨h.grows.entities, h.grows.classes, h.grows.grows, h.grows.created,
        h.grows.createdBlocks⟩
      asked := h.asked
      answered := h.answered
      new_added := h.new_added
      new_nodup := h.new_nodup }

/-- The candidates in turn keep the invariant. -/
theorem run (h₀ : b₀.Untouched) {o : Options} (hcap : o.maxFields = none) :
    ∀ {rules done : List Rule} {added : String → List Addition} {new : NewFields} {b : BuildState},
      Direct b₀ added done new b →
      (candidates o directCandidate new rules).Gives b new' b' →
      ∃ added', Direct b₀ added' (done ++ rules) new' b'
  | [], done, added, new, b, h, hrun => by
      rw [candidates, gives_pure] at hrun
      obtain ⟨rfl, rfl⟩ := hrun
      exact ⟨added, by rwa [List.append_nil]⟩
  | r :: rest, done, added, new, b, h, hrun => by
      have hfull : isFull o new = false := by simp [isFull, hcap]
      rw [candidates, gives_bind] at hrun
      obtain ⟨_, b₁, hcheck, hrun⟩ := hrun
      rw [hfull, if_neg Bool.false_ne_true, gives_bind] at hrun
      obtain ⟨new₁, b₂, hone, hrest⟩ := hrun
      obtain ⟨added₁, h₁⟩ := step h₀ (h.checked hcheck) hone
      obtain ⟨added₂, h₂⟩ := run h₀ hcap h₁ hrest
      exact ⟨added₂, by rwa [← List.append_cons] at h₂⟩

end Direct

/-! ## New fields -/

/-- Every new field gets the mark of its candidate, whatever the order. -/
theorem marks_forM : ∀ {new : NewFields} {b b' : BuildState} {u : Unit}, new.paths.Nodup →
    (forM new fun ((r, name) : Rule × String) => markCandidate r.className name r.cost).Gives b u b' →
    b'.space = b.space ∧ Stays b b' ∧
      (∀ C n, b.HasField C (IsTaken n) → b'.HasField C (IsTaken n)) ∧
      (∀ C n cost, ⟨C, n⟩ ∉ new.paths → b.HasField C (IsMarked n cost) →
        b'.HasField C (IsMarked n cost)) ∧
      ∀ r n, (r, n) ∈ new → b'.HasField r.className (IsMarked n r.cost)
  | [], b, b', u, _, h => by
      obtain rfl := gives_forM_nil.mp h
      exact ⟨rfl, .refl _, fun _ _ h => h, fun _ _ _ _ h => h, by simp⟩
  | (r, n) :: rest, b, b', u, hnodup, h => by
      obtain ⟨b₁, hmark, hrest⟩ := gives_forM_cons.mp h
      obtain ⟨hpath, hnodup⟩ := List.nodup_cons.mp hnodup
      obtain ⟨hspace, hg, htaken, hmarked, hnew⟩ := marks_forM hnodup hrest
      obtain ⟨-, hstill⟩ := Direct.isTaken_marked hmark
      obtain ⟨e, -, -, hb₁⟩ := gives_markCandidate hmark
      refine ⟨hspace.trans (by rw [hb₁]), ((stays_markCandidate _ _ _).respects hmark).trans hg,
        fun C m hm => htaken C m (hstill C m hm), fun C m cost hnot hm => ?_, fun x m hmem => ?_⟩
      · refine hmarked C m cost (fun hmem => hnot (List.mem_cons_of_mem _ hmem)) ?_
        refine hasField_of_mark hmark hm fun f hC hn hf => ?_
        exact absurd (hf.1.symm.trans hn ▸ hC ▸ List.mem_cons_self) hnot
      · rcases List.mem_cons.mp hmem with heq | hmem
        · obtain ⟨rfl, rfl⟩ := (Prod.mk.injEq ..).mp heq
          exact hmarked _ _ _ hpath (hasField_marked hmark)
        · exact hnew x m hmem

/-- A standard build, up to the final costs: every candidate is answered, and every new field has
the mark of the first candidate it answers. -/
theorem layOut_standard {b₀ b : BuildState} {o : Options} {rules : List Rule} {u : Unit}
    (hmode : Mode.ofOptions o = .standard) (hcap : o.maxFields = none) (h₀ : b₀.Untouched)
    (hmemos : b₀.MemosSound) (h : (layOut o rules).Gives b₀ u b) :
    ∃ added new b₁, Direct b₀ added rules new b₁ ∧ Stays b₁ b ∧
      (∀ C n, b₁.HasField C (IsTaken n) → b.HasField C (IsTaken n)) ∧
      ∀ r n, (r, n) ∈ new → b.HasField r.className (IsMarked n r.cost) := by
  simp only [layOut, realize, hmode, gives_bind] at h
  obtain ⟨laid, b₃, ⟨new, b₁, hrun, hmark⟩, _, b₄, harrange, hlast⟩ := h
  obtain ⟨added, hdirect⟩ := Direct.run h₀ hcap (direct_nil hmemos) hrun
  rw [List.nil_append] at hdirect
  rw [markNew, gives_get_bind] at hmark
  obtain ⟨_, b₂, hforM, hpure⟩ := gives_bind.mp hmark
  obtain ⟨rfl, rfl⟩ := gives_pure.mp hpure
  have hperm : (new.sorted b₁.space).Perm new := List.mergeSort_perm _ _
  obtain ⟨-, hstays, htaken, -, hmarked⟩ :=
    marks_forM ((hperm.map _).nodup_iff.mpr hdirect.new_nodup) hforM
  obtain rfl : b = b₄ := (gives_pure.mp hlast).2
  have hkeeps := keepsFields_arrangeFields _ harrange
  refine ⟨added, new, b₁, hdirect, hstays.trans ((stays_arrangeFields _).respects harrange),
    fun C n hn => hkeeps C _ (htaken C n hn), fun r n hmem => hkeeps _ _ ?_⟩
  exact hmarked r n (hperm.mem_iff.mpr hmem)

end Build

namespace BuildState

/-- The final costs leave everything else of a field. -/
theorem HasField.annotated {b : BuildState} {o : Options} {C : String} {P Q : Field → Prop}
    (h : b.HasField C P) (hPQ : ∀ isMain f, P f → Q (o.annotateField isMain f)) :
    HasField { b with schema := o.annotate b.schema } C Q := by
  obtain ⟨e, he, f, hf, hP⟩ := h
  refine ⟨_, (o.entity?_annotate b.schema C).trans (by rw [he]; rfl), ?_⟩
  exact ⟨_, List.mem_map_of_mem hf, hPQ _ f hP⟩

/-- Where names differ two fields of one name are the same. -/
theorem HasField.and {b : BuildState} {C n : String} {P Q : Field → Prop}
    (hcompile : b.schema.compile = .ok ()) (hP : b.HasField C fun f => f.name = n ∧ P f)
    (hQ : b.HasField C fun f => f.name = n ∧ Q f) : b.HasField C fun f => P f ∧ Q f := by
  obtain ⟨e, he, f, hf, hfn, hPf⟩ := hP
  obtain ⟨e₁, he₁, g, hg, hgn, hQg⟩ := hQ
  obtain rfl : e = e₁ := Option.some.inj (he.symm.trans he₁)
  have hnodup := (Schema.nodup_of_compile hcompile).2 e (Schema.mem_of_entity? he)
  obtain rfl : f = g := Entity.eq_of_name hnodup hf hg (hfn.trans hgn.symm)
  exact ⟨e, he, f, hf, hPf, hQg⟩

end BuildState

open BuildState

/-! ## Whole standard builds -/

section Standard

variable {catalogue : Catalogue} {o : Options} {schema : Schema} {space : Space}
variable {rules : List Rule} {interrupt : Interrupt} {b : BuildState}

/-- What a standard build of some candidates leaves before and after the final costs, `b₁` and `b`:
additions as the invariant has them, and the marks of all candidates. -/
structure StandardRun (start : BuildState) (o : Options) (rules : List Rule)
    (added : String → List Addition) (b₁ b : BuildState) : Prop where
  final : b = { b₁ with schema := o.annotate b₁.schema }
  compiles : b.schema.compile = .ok ()
  grows : Grows added (fun _ => []) start b
  asked : ∀ C, ∀ a ∈ added C, ∃ r φ, start.space.firstCandidate? rules C φ = some r ∧
    a.key = (φ, none) ∧ b₁.HasField C (Build.IsMarked a.field.name r.cost)
  answered : ∀ r ∈ rules, ∃ φ n, start.space.formula r = .ok φ ∧ b.Knows r.className φ n ∧
    b₁.HasField r.className (Build.IsTaken n)

theorem standardRun (hmode : Mode.ofOptions o = .standard) (hcap : o.maxFields = none)
    (hbuild : runBuild catalogue o schema space rules interrupt = (.ok (), b)) :
    ∃ added b₁, (Build.layOut o rules).Gives (start catalogue o schema space interrupt) () b₁ ∧
      StandardRun (start catalogue o schema space interrupt) o rules added b₁ b := by
  obtain ⟨b₁, hlay, rfl, hcompile⟩ := runBuild_eq_ok hbuild
  have h₀ := untouched_start catalogue o schema space interrupt
  have hmemos : (start catalogue o schema space interrupt).MemosSound := by
    intro C c hc
    rw [class?_start] at hc
    obtain ⟨e, -, rfl⟩ := Option.map_eq_some_iff.mp hc
    exact ClassRecord.memoSound_collect catalogue schema e
  obtain ⟨added, new, b₂, hdirect, hstays, htaken, hmarked⟩ :=
    Build.layOut_standard hmode hcap h₀ hmemos hlay
  have hmarks : ∀ C, ∀ a ∈ added C, ∃ r φ,
      (start catalogue o schema space interrupt).space.firstCandidate? rules C φ = some r ∧
        a.key = (φ, none) ∧ b₁.HasField C (Build.IsMarked a.field.name r.cost) := by
    intro C a ha
    obtain ⟨r, φ, hfirst, hkey, hmem⟩ := hdirect.asked C a ha
    have := hmarked r _ hmem
    rw [(Space.of_firstCandidate? hfirst).2.1] at this
    exact ⟨r, φ, hfirst, hkey, this⟩
  refine ⟨added, b₁, hlay, rfl, hcompile, ?_, hmarks, fun r hr => ?_⟩
  · simpa using (hdirect.grows.trans hstays).trans (grows_annotate o b₁)
  · obtain ⟨φ, n, hφ, hknows, hanswer⟩ := hdirect.answered r hr
    refine ⟨φ, n, hφ, (grows_annotate o b₁).knows (hstays.knows hknows), ?_⟩
    rcases hanswer with ⟨a, ha, rfl⟩ | h
    · obtain ⟨x, ψ, -, -, hmark⟩ := hmarks _ a ha
      exact hmark.imp fun f hf => ⟨hf.1, hf.2.1, hf.2.2.1⟩
    · exact htaken _ _ h

namespace StandardRun

variable {added : String → List Addition} {b₁ : BuildState} {C : String} {e e' : Entity}

/-- Every candidate has a used and loaded field with its formula. -/
theorem hasField_of_mem
    (h : StandardRun (start catalogue o schema space interrupt) o rules added b₁ b) {r : Rule}
    (hr : r ∈ rules) : ∃ φ, space.clearLinks.formula r = .ok φ ∧
      b.HasField r.className fun f => f.formula = some φ ∧ f.used = true ∧ f.loaded = true := by
  obtain ⟨φ, n, hφ, ⟨e', c', he', hc', hn⟩, htaken⟩ := h.answered r hr
  obtain ⟨e, c, e'', he, hc, he'', hclass⟩ :=
    h.grows.class_of_untouched (untouched_start catalogue o schema space interrupt) hc'
  rw [class?_start, show schema.entity? r.className = some e from he] at hc
  cases hc
  obtain ⟨f, hf, hname, hfφ⟩ := hclass.field_of_known hn
  refine ⟨φ, hφ, HasField.and (n := n) h.compiles ⟨e'', he'', f, hf, hname, hfφ⟩ ?_⟩
  rw [h.final]
  refine htaken.annotated fun isMain f hf => ⟨?_, ?_, ?_⟩
  · rw [← Field.core_name, core_annotateField, Field.core_name, hf.1]
  · rw [(o.marks_annotateField isMain f).1, hf.2.1]
  · rw [(o.marks_annotateField isMain f).2, hf.2.2]

/-- The added formulas of a class are those of its candidates that its record did not know. -/
theorem added_iff (h : StandardRun (start catalogue o schema space interrupt) o rules added b₁ b)
    (he : schema.entity? C = some e) (he' : b.schema.entity? C = some e') (φ : Formula) :
    (∃ f ∈ e'.fieldsBeyond e, f.formula = some φ) ↔
      (∃ r ∈ rules, r.className = C ∧ space.clearLinks.formula r = .ok φ) ∧
        (ClassRecord.collect catalogue schema e).field? φ = none := by
  obtain ⟨e₁, c', he₁, hc', hclass⟩ := h.grows.class_of_start he
  obtain rfl : e' = e₁ := Option.some.inj (he'.symm.trans he₁)
  constructor
  · rintro ⟨f, hf, hφ⟩
    obtain ⟨hnone, -, hmem⟩ := hclass.of_mem_fieldsBeyond hf hφ
    obtain ⟨r, ψ, hfirst, hkey, -⟩ := h.asked C _ hmem
    cases hkey
    exact ⟨⟨r, Space.of_firstCandidate? hfirst⟩, hnone⟩
  · rintro ⟨⟨r, hr, rfl, hφ⟩, hnone⟩
    obtain ⟨ψ, n, hψ, ⟨e₂, c₂, -, hc₂, hn⟩, -⟩ := h.answered r hr
    obtain rfl : ψ = φ := Except.ok.inj (hψ.symm.trans hφ)
    obtain rfl : c' = c₂ := Option.some.inj (hc'.symm.trans hc₂)
    obtain ⟨f, hf, -, hfφ⟩ := hclass.exists_fieldsBeyond hnone hn
    exact ⟨f, hf, hfφ⟩

/-- Before the final costs an added field has the cost of the first candidate with its formula. -/
theorem added_cost (h : StandardRun (start catalogue o schema space interrupt) o rules added b₁ b)
    (he : schema.entity? C = some e) (he' : b.schema.entity? C = some e') {f : Field}
    (hf : f ∈ e'.fieldsBeyond e) {φ : Formula} (hφ : f.formula = some φ) :
    ∃ r, space.clearLinks.firstCandidate? rules C φ = some r ∧
      b₁.HasField C fun g => g.core = f.core ∧ g.cost = r.cost := by
  obtain ⟨e₁, c', he₁, -, hclass⟩ := h.grows.class_of_start he
  obtain rfl : e' = e₁ := Option.some.inj (he'.symm.trans he₁)
  obtain ⟨-, -, ha⟩ := hclass.of_mem_fieldsBeyond hf hφ
  obtain ⟨r, ψ, hfirst, hkey, e₁, he₁, g, hg, hname, -, -, hcost⟩ := h.asked C _ ha
  cases hkey
  refine ⟨r, hfirst, e₁, he₁, g, hg, ?_, hcost⟩
  -- the marked field and the one of the output have one name, so they differ by the final cost
  have hnodup := (Schema.nodup_of_compile h.compiles).2 e' (Schema.mem_of_entity? he')
  rw [h.final, show (o.annotate b₁.schema).entity? C = _ from o.entity?_annotate b₁.schema C, he₁]
    at he'
  cases he'
  have hmem := List.mem_map_of_mem
    (f := o.annotateField (b₁.schema.main?.map (·.name) == some e₁.name)) hg
  have heq := Entity.eq_of_name hnodup (Entity.mem_fieldsBeyond.mp hf).1 hmem ?_
  · rw [heq, core_annotateField]
  · rw [← Field.core_name, ← Field.core_name (o.annotateField _ g), core_annotateField]
    exact hname.symm

end StandardRun

/-- Without sharing and without a cap a build computes exactly its candidates.  To every class it
adds, each once, the formulas of the candidates of the class that the record of the class did not
know, and nothing else; every candidate has a used and loaded field with its formula; and before
the final costs an added field carries the cost of the first candidate that has its formula. -/
theorem runBuild_standard_exact (hmode : Mode.ofOptions o = .standard) (hcap : o.maxFields = none)
    (hbuild : runBuild catalogue o schema space rules interrupt = (.ok (), b)) :
    ∃ b₁, (Build.layOut o rules).Gives (start catalogue o schema space interrupt) () b₁ ∧
      b = { b₁ with schema := o.annotate b₁.schema } ∧
      b.schema.entities.map (·.name) = schema.entities.map (·.name) ∧
      (∀ r ∈ rules, ∃ φ, space.clearLinks.formula r = .ok φ ∧
        b.HasField r.className fun f => f.formula = some φ ∧ f.used = true ∧ f.loaded = true) ∧
      ∀ C e, schema.entity? C = some e → ∃ e', b.schema.entity? C = some e' ∧
        e'.blocks.Perm e.blocks ∧
        ((e'.fields.filter fun f => f.name ∈ e.names).map Field.core).Perm e.cores ∧
        (∀ f ∈ e'.fieldsBeyond e, f.formula.isSome = true ∧ f.block = none) ∧
        ((e'.fieldsBeyond e).map (·.formula)).Nodup ∧
        (∀ φ, (∃ f ∈ e'.fieldsBeyond e, f.formula = some φ) ↔
          (∃ r ∈ rules, r.className = C ∧ space.clearLinks.formula r = .ok φ) ∧
            (ClassRecord.collect catalogue schema e).field? φ = none) ∧
        ∀ f ∈ e'.fieldsBeyond e, ∀ φ, f.formula = some φ →
          ∃ r, space.clearLinks.firstCandidate? rules C φ = some r ∧
            b₁.HasField C fun g => g.core = f.core ∧ g.cost = r.cost := by
  obtain ⟨added, b₁, hlay, h⟩ := standardRun hmode hcap hbuild
  refine ⟨b₁, hlay, h.final, h.grows.entities, fun r hr => h.hasField_of_mem hr, fun C e he => ?_⟩
  obtain ⟨e', c', he', -, hclass⟩ := h.grows.class_of_start he
  have hderived : ∀ a ∈ added C, ∃ φ, a.key = (φ, none) := by
    intro a ha
    obtain ⟨_, φ, -, hkey, -⟩ := h.asked C a ha
    exact ⟨φ, hkey⟩
  refine ⟨e', he', by simpa using hclass.blocks_perm, hclass.fields_kept, fun f hf => ?_,
    hclass.formulas_nodup hderived, h.added_iff he he', fun f hf φ => h.added_cost he he' hf⟩
  obtain ⟨a, ha, hcore⟩ := List.mem_map.mp
    (hclass.fieldsBeyond_perm.mem_iff.mp (List.mem_map_of_mem (f := Field.core) hf))
  obtain ⟨φ, hkey⟩ := hderived a ha
  have hindexed := hclass.indexed a ha
  rw [Addition.WellIndexed, hkey, hcore] at hindexed
  exact ⟨Option.isSome_iff_exists.mpr ⟨φ, hindexed.1⟩, hindexed.2⟩

end Standard

/-! ## Days of the week -/

namespace WeekDays

/-- Customers with a field of some type, and its day of the week as a derived field. -/
def customer (field : String) (type : FieldType) (weekDay : Formula) : Entity :=
  ⟨"Customer", [.native field type, .derived "wd" .continuous weekDay], []⟩

/-- The day of the week of a date. -/
def ofDate : Formula := ⟨"WeekDay", [.field "d"]⟩

def ofDateRule (cost : Float) : Rule :=
  ⟨.plain "WeekDay" .date [.date] .continuous, "Customer", [.field "d" .date], cost, 0⟩

/-- The day of the year of a date. -/
def inYear : Formula := ⟨"YearDay", [.field "d"]⟩

def inYearRule (cost : Float) : Rule :=
  ⟨.plain "YearDay" .date [.date] .continuous, "Customer", [.field "d" .date], cost, 0⟩

def dated : Entity := customer "d" .date ofDate

/-- One field per candidate. -/
def options : Options := { Options.default with shareRules := false }

/-- The build for some candidates over one entity. -/
def build (e : Entity) (rules : List Rule) : Except BuildError Unit × BuildState :=
  runBuild .default options ⟨[e]⟩ .empty rules .never

end WeekDays

/-- Two candidates for the day of the year, at two costs, and one for the day of the week, which the
class has: one formula is added, at the cost that comes first. -/
theorem runBuild_standard_weekDays :
    ∃ (b b₁ : BuildState) (e' : Entity), WeekDays.build WeekDays.dated
          [WeekDays.inYearRule 2, WeekDays.ofDateRule 1, WeekDays.inYearRule 1] = (.ok (), b) ∧
      b = { b₁ with schema := WeekDays.options.annotate b₁.schema } ∧
      b.schema.entity? "Customer" = some e' ∧
      (∀ φ, (∃ f ∈ e'.fieldsBeyond WeekDays.dated, f.formula = some φ) ↔ φ = WeekDays.inYear) ∧
      b₁.HasField "Customer" fun g => g.formula = some WeekDays.inYear ∧ g.cost = 2 := by
  let rules := [WeekDays.inYearRule 2, WeekDays.ofDateRule 1, WeekDays.inYearRule 1]
  have hok : (WeekDays.build WeekDays.dated rules).1.isOk = true := by decide +kernel
  have hknown : ((ClassRecord.collect .default ⟨[WeekDays.dated]⟩ WeekDays.dated).field?
      WeekDays.ofDate).isSome = true := by decide +kernel
  have hnew : (ClassRecord.collect .default ⟨[WeekDays.dated]⟩ WeekDays.dated).field?
      WeekDays.inYear = none := by decide +kernel
  have hbuild : WeekDays.build WeekDays.dated rules = (.ok (), (WeekDays.build _ rules).2) :=
    run_eq_of_isOk hok
  obtain ⟨b₁, -, hb, -, -, hclasses⟩ := runBuild_standard_exact rfl rfl hbuild
  obtain ⟨e', he', -, -, -, -, hadded, hcost⟩ := hclasses "Customer" WeekDays.dated rfl
  have hinYear : ∃ f ∈ e'.fieldsBeyond WeekDays.dated, f.formula = some WeekDays.inYear :=
    (hadded _).mpr ⟨⟨WeekDays.inYearRule 2, List.mem_cons_self, rfl, rfl⟩, hnew⟩
  refine ⟨_, b₁, e', hbuild, hb, he', fun φ => ⟨fun h => ?_, fun h => h ▸ hinYear⟩, ?_⟩
  · obtain ⟨⟨r, hr, -, hφ⟩, hnone⟩ := (hadded φ).mp h
    have hcases : φ = WeekDays.inYear ∨ φ = WeekDays.ofDate := by
      simp only [rules, List.mem_cons, List.not_mem_nil, or_false] at hr
      rcases hr with rfl | rfl | rfl
      · exact .inl (Except.ok.inj hφ).symm
      · exact .inr (Except.ok.inj hφ).symm
      · exact .inl (Except.ok.inj hφ).symm
    rcases hcases with rfl | rfl
    · rfl
    · rw [hnone] at hknown
      cases hknown
  · obtain ⟨f, hf, hφ⟩ := hinYear
    obtain ⟨r, hfirst, hfield⟩ := hcost f hf _ hφ
    obtain rfl : WeekDays.inYearRule 2 = r := Option.some.inj hfirst
    refine hfield.imp fun g hg => ⟨?_, hg.2⟩
    rw [← Field.core_formula, hg.1, Field.core_formula, hφ]

end FeatureSynth
