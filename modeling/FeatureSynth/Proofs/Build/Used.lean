/-
# Which fields are used

Only marks change which fields of a schema are used: what is made starts unused, and moves
change no field.  Marks are given to the fields of candidates that had their turns, to the
new ones at the end and to all others on the spot.  So a field is used after the turns if
it was used before, or if it is the field of one of them.
-/
import FeatureSynth.Proofs.Build.Kept

namespace FeatureSynth

namespace BuildState

/-- A class of the schema in work has a used field of a name. -/
def IsUsed (b : BuildState) (C n : String) : Prop :=
  b.HasField C fun f => f.name = n ∧ f.used = true

/-- The same fields are used. -/
def SameUsed (b b' : BuildState) : Prop := ∀ C n, b'.IsUsed C n ↔ b.IsUsed C n

theorem SameUsed.of_eq {b b' : BuildState} (h : b'.schema = b.schema) : SameUsed b b' := by
  intro C n
  rw [IsUsed, IsUsed, HasField, HasField, h]

end BuildState

namespace Build

open BuildState

variable {o : Options} {b b₀ b' : BuildState} {new laid : NewFields} {turns : List (Rule × String)}
variable {rules : List Rule} {u : Unit} {C D n name : String} {cost : Float}

/-! ## What is made and what is moved -/

theorem making_sameUsed : Making SameUsed where
  refl := fun b C n => Iff.rfl
  trans := fun h h' C n => (h' C n).trans (h C n)
  still := fun hstill => .of_eq hstill.schema
  makes := fun hmakes D n => by
    obtain ⟨C, e, e', f, more, hmade⟩ := hmakes.enlarges
    refine HasField.iff_of_entity hmade.entity hmade.adds.name_eq hmade.schema (fun _ => ?_)
      fun _ => rfl
    constructor
    · rintro ⟨g, hg, hname, hused⟩
      rcases hmade.adds.mem_iff.mp hg with hold | rfl
      · exact ⟨g, hold, hname, hused⟩
      · cases hused.symm.trans hmade.adds.unused
    · rintro ⟨g, hg, hP⟩
      exact ⟨g, hmade.adds.mem_iff.mpr (.inl hg), hP⟩

theorem moving_sameUsed : Moving (fun m => Respects SameUsed m) where
  closed := making_sameUsed.closed
  edit := by
    intro C change hchange b u b' hrun D n
    obtain ⟨e, e', he, hok, rfl⟩ := gives_edit.mp hrun
    obtain ⟨hname, hfields, -⟩ := hchange e e' hok
    refine HasField.iff_of_entity he hname rfl (fun _ => ?_) fun _ => rfl
    exact exists_congr fun f => and_congr_left' hfields.mem_iff

theorem sameUsed_ready (o : Options) (rules : List Rule) : Respects SameUsed (ready o rules) := by
  unfold ready
  split
  · exact making_sameUsed.closed.pure _
  · have hparts : ReadyParts (fun m => Respects SameUsed m) :=
      { making_sameUsed.bindParts with
        move := moving_sameUsed.moveField
        count := fun _ => making_sameUsed.change fun _ => ⟨rfl, rfl, rfl, rfl⟩ }
    exact closed_prepare hparts o _ rules

theorem sameUsed_arrange (o : Options) (new : NewFields) : Respects SameUsed (arrange o new) := by
  refine making_sameUsed.closed.bind (moving_sameUsed.arrangeFields _) fun _ => ?_
  split
  · exact moving_sameUsed.arrangeBlocks
  · exact making_sameUsed.closed.pure _

theorem sameUsed_candidateField (r : Rule) : Respects SameUsed (candidateField o r) :=
  making_sameUsed.blockParts.members.candidateField (fun _ => making_sameUsed.directField r) trivial

/-! ## Marks -/

/-- One field more is used. -/
theorem isUsed_markCandidate (h : (markCandidate C name cost).Gives b u b') :
    b'.IsUsed D n ↔ b.IsUsed D n ∨ (C = D ∧ name = n) := by
  obtain ⟨e, he, hsome, rfl⟩ := gives_markCandidate h
  obtain ⟨g, hg⟩ := Option.isSome_iff_exists.mp hsome
  have hgname : g.name = name := by simpa using List.find?_some hg
  have hname' : (e.modifyField name (mark cost)).name = e.name := rfl
  by_cases hD : C = D
  · subst hD
    have hfield : b.HasField C (fun f => (f.name = n ∧ f.used = true) ∨ name = n) ↔
        b.IsUsed C n ∨ (C = C ∧ name = n) := by
      constructor
      · rintro ⟨e₀, he₀, f, hf, hP | hP⟩
        · exact .inl ⟨e₀, he₀, f, hf, hP⟩
        · exact .inr ⟨rfl, hP⟩
      · rintro (hused | ⟨-, hname⟩)
        · exact hused.imp fun f hP => .inl hP
        · exact ⟨e, he, g, List.mem_of_find?_eq_some hg, .inr hname⟩
    rw [← hfield]
    refine HasField.iff_of_entity he hname' rfl (fun _ => ?_)
      fun hne => absurd rfl hne
    rw [Entity.modifyField_eq]
    constructor
    · rintro ⟨f, hf, hname, hused⟩
      rcases of_mem_replaceFirst hf with hold | ⟨x, hx, rfl⟩
      · exact ⟨f, hold, .inl ⟨hname, hused⟩⟩
      · obtain rfl : g = x := Option.some.inj (hg.symm.trans hx)
        exact ⟨g, List.mem_of_find?_eq_some hg, .inr (hgname.symm.trans hname)⟩
    · rintro ⟨f, hf, ⟨hname, hused⟩ | hname⟩
      · rcases mem_replaceFirst_or (p := (·.name == name)) (mark cost) hf with hmem | hfirst
        · exact ⟨f, hmem, hname, hused⟩
        · exact ⟨mark cost f, change_mem_replaceFirst hfirst, hname, rfl⟩
      · exact ⟨mark cost g, change_mem_replaceFirst hg, hgname.trans hname, rfl⟩
  · have hother : ¬ (C = D ∧ name = n) := fun h => hD h.1
    rw [or_iff_left hother]
    exact HasField.iff_of_entity he hname' rfl
      (fun h => absurd h hD) fun _ => rfl

/-- Whether the field of a class is that of one of some candidates. -/
def IsFieldOf (C n : String) (turns : List (Rule × String)) : Prop :=
  ∃ r, (r, n) ∈ turns ∧ r.className = C

theorem isFieldOf_append {turns' : List (Rule × String)} :
    IsFieldOf C n (turns ++ turns') ↔ IsFieldOf C n turns ∨ IsFieldOf C n turns' := by
  simp only [IsFieldOf, List.mem_append, or_and_right, exists_or]

theorem isFieldOf_singleton {r : Rule} :
    IsFieldOf C n [(r, name)] ↔ r.className = C ∧ name = n := by
  constructor
  · rintro ⟨x, hx, hC⟩
    cases List.mem_singleton.mp hx
    exact ⟨hC, rfl⟩
  · rintro ⟨hC, rfl⟩
    exact ⟨r, List.mem_singleton_self _, hC⟩

theorem isUsed_forM_mark : ∀ {new : NewFields} {b : BuildState},
    (forM new fun ((r, name) : Rule × String) => markCandidate r.className name r.cost).Gives b u b' →
      (b'.IsUsed C n ↔ b.IsUsed C n ∨ IsFieldOf C n new)
  | [], b, h => by
      rw [gives_forM_nil.mp h]
      simp [IsFieldOf]
  | (r, name) :: rest, b, h => by
      obtain ⟨b₁, hmark, hrest⟩ := gives_forM_cons.mp h
      rw [isUsed_forM_mark hrest, isUsed_markCandidate hmark, or_assoc, ← isFieldOf_singleton,
        ← isFieldOf_append, List.singleton_append]

/-- The new fields are used in the end. -/
theorem isUsed_markNew (h : (markNew new).Gives b laid b') :
    b'.IsUsed C n ↔ b.IsUsed C n ∨ IsFieldOf C n new := by
  simp only [markNew, gives_get_bind] at h
  obtain ⟨_, b₁, hmarks, h⟩ := gives_bind.mp h
  obtain ⟨-, rfl⟩ := gives_pure.mp h
  rw [isUsed_forM_mark hmarks]
  refine or_congr_right (exists_congr fun r => and_congr_left' ?_)
  exact List.mem_mergeSort

/-! ## Turns -/

/-- What is used after some turns, or will be as a new field, was used before or is the field of one
of them. -/
theorem Turns.isUsed (h : Turns o b₀ turns new b) :
    b.IsUsed C n ∨ IsFieldOf C n new ↔ b₀.IsUsed C n ∨ IsFieldOf C n turns := by
  induction h with
  | start => exact Iff.rfl
  | @turn turns new new' b b₁ b' r name before check room one ih =>
    have hcheck : SameUsed b b₁ := closed_checkInterrupt making_sameUsed.blockParts.toParts check
    rw [isFieldOf_append, isFieldOf_singleton, ← or_assoc, ← ih, ← hcheck C n]
    cases one with
    | counted field =>
      rw [sameUsed_candidateField r field C n, isFieldOf_append, isFieldOf_singleton, or_assoc]
    | repeated field _ again =>
      rw [sameUsed_candidateField r field C n]
      refine (or_iff_left_of_imp ?_).symm
      rintro ⟨rfl, rfl⟩
      exact .inr (has_iff.mp again)
    | marked field hmark =>
      rw [isUsed_markCandidate hmark, sameUsed_candidateField r field C n, or_right_comm]

/-- At the end of a build the fields are used that were at the start, and those of the candidates
that had their turns. -/
theorem layOut_isUsed (hready : (ready o rules).Gives b u b₀) (hturns : Turns o b₀ turns new b')
    {b₂ b₃ : BuildState} {i : Interrupt} {v : Unit}
    (hmark : (markNew new).Gives { b' with interrupt := i } laid b₂)
    (harrange : (arrange o laid).Gives b₂ v b₃) :
    b₃.IsUsed C n ↔ b.IsUsed C n ∨ IsFieldOf C n turns := by
  rw [sameUsed_arrange o laid harrange C n, isUsed_markNew hmark,
    ← sameUsed_ready o rules hready C n]
  exact hturns.isUsed

end Build

end FeatureSynth
