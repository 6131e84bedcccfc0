/-
# The cost of a field that several candidates share

A candidate gives its field its cost at one of two times.  If the field is not counted as
new it is marked on the spot; if it is, it is marked when all candidates had their turns.
So where a field is counted, the candidate that had the turn in which it was decides, no
matter what comes later; where it is not, the one that had the last turn does.
-/
import FeatureSynth.Proofs.Build.Used

namespace FeatureSynth

namespace Build

open BuildState

variable {o : Options} {b b₀ b₁ b' : BuildState} {new laid : NewFields} {u : Unit} {r x : Rule}
variable {turns : List (Rule × String)} {C m n : String}

/-! ## Last turns -/

/-- The candidate that had the last of some turns with a field of a class. -/
def lastAt (turns : List (Rule × String)) (C n : String) : Option Rule :=
  (turns.filter fun (r, m) => r.className == C && m == n).getLast?.map (·.1)

theorem lastAt_concat : lastAt (turns ++ [(r, m)]) C n =
    if r.className = C ∧ m = n then some r else lastAt turns C n := by
  by_cases hat : r.className = C ∧ m = n
  · simp [lastAt, List.filter_append, hat]
  · have hnot : (r.className == C && m == n) = false := by simpa using hat
    simp [lastAt, List.filter_append, hat, hnot]

theorem mem_of_lastAt (h : lastAt turns C n = some r) : (r, n) ∈ turns ∧ r.className = C := by
  obtain ⟨⟨x, k⟩, hlast, rfl⟩ := Option.map_eq_some_iff.mp h
  obtain ⟨hmem, hat⟩ := List.mem_filter.mp (List.mem_of_getLast? hlast)
  simp only [Bool.and_eq_true, beq_iff_eq] at hat
  exact ⟨hat.2 ▸ hmem, hat.1⟩

theorem lastAt_isSome : (lastAt turns C n).isSome = true ↔ IsFieldOf C n turns := by
  constructor
  · intro h
    obtain ⟨r, hr⟩ := Option.isSome_iff_exists.mp h
    exact ⟨r, mem_of_lastAt hr⟩
  · rintro ⟨r, hmem, rfl⟩
    rw [lastAt, Option.isSome_map, List.getLast?_isSome]
    exact List.ne_nil_of_mem (List.mem_filter.mpr ⟨hmem, by simp⟩)

/-- The candidate whose cost a field of a class gets: the one in whose turn it was counted, or else
the one that had the last turn with it. -/
def decidingAt (turns : List (Rule × String)) (new : NewFields) (C n : String) : Option Rule :=
  (lastAt new C n).or (lastAt turns C n)

theorem mem_of_decidingAt (hnew : new ⊆ turns) (h : decidingAt turns new C n = some r) :
    (r, n) ∈ turns := by
  rcases Option.or_eq_some_iff.mp h with hcounted | ⟨-, hlast⟩
  · exact hnew (mem_of_lastAt hcounted).1
  · exact (mem_of_lastAt hlast).1

theorem exists_decidingAt (new : NewFields) (h : lastAt turns C n = some r) :
    ∃ x, decidingAt turns new C n = some x :=
  Option.isSome_iff_exists.mp (by simp [decidingAt, h])

/-! ## Marks stay -/

theorem making_keepsFields : Making KeepsFields where
  toChained := chained_keepsFields
  still := fun h => .of_eq h.schema
  makes := by
    rintro b b' hmakes D P ⟨d, hd, g, hg, hP⟩
    obtain ⟨C, e, e', f, more, hmade⟩ := hmakes.enlarges
    rw [HasField, hmade.schema]
    by_cases hD : C = D
    · subst hD
      obtain rfl : e = d := Option.some.inj (hmade.entity.symm.trans hd)
      exact ⟨e', Schema.entity?_setEntity hd hmade.adds.name_eq, g,
        hmade.adds.mem_iff.mpr (.inl hg), hP⟩
    · have hname := hmade.adds.name_eq.trans (Schema.name_of_entity? hmade.entity)
      exact ⟨d, (Schema.entity?_setEntity_ne hname hD).trans hd, g, hg, hP⟩

theorem moving_keepsFields : Moving (fun m => Respects KeepsFields m) where
  closed := closed_keepsFields
  edit := fun _ _ hchange => keepsFields_edit fun e e' hok =>
    ⟨(hchange e e' hok).1, fun _ hf => (hchange e e' hok).2.1.mem_iff.mpr hf⟩

theorem keepsFields_arrange (o : Options) (new : NewFields) :
    Respects KeepsFields (arrange o new) := by
  refine closed_keepsFields.bind (moving_keepsFields.arrangeFields _) fun _ => ?_
  split
  · exact moving_keepsFields.arrangeBlocks
  · exact closed_keepsFields.pure _

theorem keepsFields_candidateField (r : Rule) : Respects KeepsFields (candidateField o r) :=
  making_keepsFields.blockParts.members.candidateField
    (fun _ => making_keepsFields.directField r) trivial

/-! ## Turns -/

/-- Where fields are shared, one that is not counted has the cost of the last candidate with it. -/
theorem Turns.marked (hmode : Mode.ofOptions o ≠ .standard) (h : Turns o b₀ turns new b)
    (hlast : lastAt turns C n = some r) (hold : ⟨C, n⟩ ∉ new.paths) :
    b.HasField C (IsMarked n r.cost) := by
  induction h with
  | start => cases hlast
  | @turn turns new new' b b₁ b' x m before check room one ih =>
    have hnew : ⟨C, n⟩ ∉ new.paths := fun hmem => hold (one.paths_subset hmem)
    have hcheck : KeepsFields b b₁ :=
      closed_checkInterrupt making_keepsFields.blockParts.toParts check
    rw [lastAt_concat] at hlast
    cases one with
    | counted field =>
      have hother : ¬ (x.className = C ∧ m = n) := by
        rintro ⟨rfl, rfl⟩
        refine hold ?_
        rw [NewFields.paths, List.map_append]
        exact List.mem_append_right _ (List.mem_singleton_self _)
      rw [if_neg hother] at hlast
      exact keepsFields_candidateField x field _ _ (hcheck _ _ (ih hlast hnew))
    | repeated field hstandard => exact absurd hstandard hmode
    | marked field mark =>
      by_cases hat : x.className = C ∧ m = n
      · obtain ⟨rfl, rfl⟩ := hat
        rw [if_pos ⟨rfl, rfl⟩] at hlast
        cases hlast
        exact hasField_marked mark
      · rw [if_neg hat] at hlast
        have hfield := keepsFields_candidateField x field _ _ (hcheck _ _ (ih hlast hnew))
        refine hasField_of_mark mark hfield fun f hC hname hf => absurd ⟨hC, ?_⟩ hat
        exact hname.symm.trans hf.1

/-- In the end every field of a candidate has the cost of the one that decides. -/
theorem layOut_marked (hmode : Mode.ofOptions o ≠ .standard) (hturns : Turns o b₀ turns new b)
    {b₂ b₃ : BuildState} {i : Interrupt} {v : Unit}
    (hmark : (markNew new).Gives { b with interrupt := i } laid b₂)
    (harrange : (arrange o laid).Gives b₂ v b₃) (hr : decidingAt turns new C n = some r) :
    b₃.HasField C (IsMarked n r.cost) := by
  refine keepsFields_arrange o laid harrange _ _ ?_
  simp only [markNew, gives_get_bind] at hmark
  obtain ⟨_, b₁, hforM, hpure⟩ := gives_bind.mp hmark
  obtain ⟨rfl, rfl⟩ := gives_pure.mp hpure
  have hperm : (new.sorted b.space).Perm new := List.mergeSort_perm _ _
  obtain ⟨-, -, -, hmarked, hnew⟩ :=
    marks_forM ((hperm.map _).nodup_iff.mpr hturns.paths_nodup) hforM
  rcases Option.or_eq_some_iff.mp hr with hcounted | ⟨hnone, hlast⟩
  · obtain ⟨hmem, rfl⟩ := mem_of_lastAt hcounted
    exact hnew r n (hperm.mem_iff.mpr hmem)
  · have hold : ⟨C, n⟩ ∉ new.paths := by
      rw [← has_iff_mem_paths, has_iff]
      intro hfield
      rw [← IsFieldOf, ← lastAt_isSome, hnone] at hfield
      cases hfield
    have hkept : b.HasField C (IsMarked n r.cost) := hturns.marked hmode hlast hold
    exact hmarked C n r.cost (fun hmem => hold ((hperm.map _).mem_iff.mp hmem)) hkept

end Build

end FeatureSynth
