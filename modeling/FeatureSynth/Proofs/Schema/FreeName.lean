/-
# A free name is free, and the first one

`Entity.freeName` tries a stem, then the stem with the numbers from 1 on, as often
as the entity has names.  That is often enough (`exists_free`): should every try
fail, the stem and the numbered names would be more different names than the entity
has.  So the bound never shows: a search without bound (`Search`) ends as well, with
the same name, which is the first that is free (`freeName_first`).  Nor does it count
further than to the number of names, so what holds that number holds the count.
-/
import Mathlib
import FeatureSynth.Schema.Edit

namespace FeatureSynth

namespace Entity

theorem hasName_iff {e : Entity} {name : String} : e.hasName name = true ↔ name ∈ e.names := by
  simp [hasName, names, field?, block?]

theorem hasName_eq_false_iff {e : Entity} {name : String} :
    e.hasName name = false ↔ name ∉ e.names := by
  rw [← hasName_iff, Bool.not_eq_true]

/-- The stem with a number. -/
def numbered (stem : String) (i : Nat) : String := stem ++ "_" ++ toString i

theorem numbered_inj {stem : String} {i j : Nat} : numbered stem i = numbered stem j ↔ i = j := by
  constructor
  · intro h
    exact Nat.repr_inj.mp ((String.append_right_inj _).mp h)
  · rintro rfl; rfl

theorem numbered_ne_stem {stem : String} {i : Nat} : numbered stem i ≠ stem := by
  intro h
  have := congrArg String.length h
  rw [numbered, String.length_append, String.length_append, show "_".length = 1 from rfl] at this
  omega

/-! ## The search -/

/-- A search without bound among the numbers of a stem: from number `i` on it tries names in turn,
passes over those that are taken, and ends at the first that is not. -/
inductive Search (taken : String → Bool) (stem : String) :
    (i : Nat) → (tried : List String) → (found : String) → Prop
  | free {i : Nat} : taken (numbered stem i) = false →
      Search taken stem i [numbered stem i] (numbered stem i)
  | next {i : Nat} {tried : List String} {found : String} : taken (numbered stem i) = true →
      Search taken stem (i + 1) tried found → Search taken stem i (numbered stem i :: tried) found

variable {taken : String → Bool} {stem found : String} {tried : List String} {i k : Nat}

/-- A search ends behind names that are taken, at one that is not. -/
theorem Search.ends (h : Search taken stem i tried found) :
    ∃ k, i ≤ k ∧ found = numbered stem k ∧ taken (numbered stem k) = false ∧
      (∀ j, i ≤ j → j < k → taken (numbered stem j) = true) ∧ i + tried.length = k + 1 := by
  induction h with
  | @free i hfree => exact ⟨i, le_rfl, rfl, hfree, fun j hj hjk => by omega, rfl⟩
  | @next i tried found htaken _ ih =>
    obtain ⟨k, hk, hfound, hfree, hbefore, hlength⟩ := ih
    refine ⟨k, by omega, hfound, hfree, fun j hj hjk => ?_, by rw [List.length_cons]; omega⟩
    rcases Nat.eq_or_lt_of_le hj with rfl | hj
    · exact htaken
    · exact hbefore j hj hjk

/-- With tries enough to get to a free name, the bounded search ends where the unbounded one does. -/
theorem search_firstFree : ∀ fuel i : Nat, i ≤ k → k < i + fuel → taken (numbered stem k) = false →
    ∃ tried, Search taken stem i tried (firstFree taken stem fuel i)
  | 0, i, hik, hki, _ => by omega
  | fuel + 1, i, hik, hki, hfree => by
      have hstep : firstFree taken stem (fuel + 1) i =
          if taken (numbered stem i) then firstFree taken stem fuel (i + 1) else numbered stem i :=
        rfl
      cases hi : taken (numbered stem i) with
      | false =>
        rw [hstep, hi]
        exact ⟨_, .free hi⟩
      | true =>
        have hne : i ≠ k := by
          rintro rfl
          rw [hi] at hfree
          cases hfree
        obtain ⟨tried, hsearch⟩ := search_firstFree fuel (i + 1) (by omega) (by omega) hfree
        rw [hstep, hi, if_pos rfl]
        exact ⟨_, .next hi hsearch⟩

/-! ## Free names -/

/-- A stem that is taken is free under one of as many numbers as there are names. -/
theorem exists_free {e : Entity} (hstem : stem ∈ e.names) :
    ∃ k, 1 ≤ k ∧ k < 1 + (e.fields.length + e.blocks.length) ∧ e.hasName (numbered stem k) = false := by
  by_contra hnone
  push Not at hnone
  -- the stem and the numbered names are one more than the names there are
  let tried := stem :: (List.range' 1 (e.fields.length + e.blocks.length)).map (numbered stem)
  have hsub : tried ⊆ e.names := by
    intro name hname
    rcases List.mem_cons.mp hname with rfl | hname
    · exact hstem
    · obtain ⟨k, hk, rfl⟩ := List.mem_map.mp hname
      have hrange := List.mem_range'_1.mp hk
      exact hasName_iff.mp (Bool.not_eq_false _ ▸ hnone k hrange.1 hrange.2)
  have hnodup : tried.Nodup := by
    refine List.nodup_cons.mpr ⟨?_, ?_⟩
    · intro hmem
      obtain ⟨k, -, hk⟩ := List.mem_map.mp hmem
      exact numbered_ne_stem hk
    · exact List.Nodup.map (fun _ _ => numbered_inj.mp) List.nodup_range'
  have hlength := (List.subperm_of_subset hnodup hsub).length_le
  simp [tried, names] at hlength

theorem freeName_eq_stem {e : Entity} (hstem : stem ∉ e.names) : e.freeName stem = stem := by
  rw [freeName, hasName_eq_false_iff.mpr hstem, if_neg Bool.false_ne_true]

theorem exists_search_freeName {e : Entity} (hstem : stem ∈ e.names) :
    ∃ tried, Search e.hasName stem 1 tried (e.freeName stem) := by
  obtain ⟨k, hk, hlt, hfree⟩ := exists_free hstem
  rw [freeName, if_pos (hasName_iff.mpr hstem)]
  exact search_firstFree _ 1 hk hlt hfree

theorem hasName_freeName (e : Entity) (stem : String) : e.hasName (e.freeName stem) = false := by
  by_cases hstem : stem ∈ e.names
  · obtain ⟨tried, hsearch⟩ := exists_search_freeName hstem
    obtain ⟨k, -, hfound, hfree, -⟩ := hsearch.ends
    rw [hfound, hfree]
  · rw [freeName_eq_stem hstem]
    exact hasName_eq_false_iff.mpr hstem

theorem freeName_notMem (e : Entity) (stem : String) : e.freeName stem ∉ e.names :=
  hasName_eq_false_iff.mp (hasName_freeName e stem)

/-! ## The first free name -/

/-- A number from 1 on under which a stem is free, while it is taken under all smaller ones. -/
structure FirstNumber (e : Entity) (stem : String) (i : Nat) : Prop where
  positive : 1 ≤ i
  free : numbered stem i ∉ e.names
  smaller : ∀ j, 1 ≤ j → j < i → numbered stem j ∈ e.names

/-- The name found for a stem is carried by no field and no block.  It is the stem itself if that is
free.  If not, the search through its numbers ends without being cut short: it finds the stem under
the first number that makes it free, and has then tried that many names, no more than there are
fields and blocks. -/
theorem freeName_first (e : Entity) (stem : String) :
    (∀ f ∈ e.fields, f.name ≠ e.freeName stem) ∧ (∀ b ∈ e.blocks, b.name ≠ e.freeName stem) ∧
      (stem ∉ e.names → e.freeName stem = stem) ∧
      (stem ∈ e.names → ∃ i tried, e.FirstNumber stem i ∧ e.freeName stem = numbered stem i ∧
        Search e.hasName stem 1 tried (e.freeName stem) ∧ tried.length = i ∧
        i ≤ e.fields.length + e.blocks.length) := by
  have hfree := freeName_notMem e stem
  rw [names, List.mem_append, not_or] at hfree
  refine ⟨fun f hf heq => hfree.1 (heq ▸ List.mem_map_of_mem hf),
    fun b hb heq => hfree.2 (heq ▸ List.mem_map_of_mem hb), freeName_eq_stem, fun hstem => ?_⟩
  obtain ⟨tried, hsearch⟩ := exists_search_freeName hstem
  obtain ⟨i, hi, hfound, hfree, hbefore, hlength⟩ := hsearch.ends
  have hfirst : e.FirstNumber stem i :=
    ⟨hi, hasName_eq_false_iff.mp hfree, fun j hj hji => hasName_iff.mp (hbefore j hj hji)⟩
  -- the pigeonhole names a free number, and the first one is not greater
  obtain ⟨k, hk, hlt, hkfree⟩ := exists_free hstem
  have hik : i ≤ k := not_lt.mp fun hki => by
    rw [hbefore k hk hki] at hkfree
    cases hkfree
  exact ⟨i, tried, hfirst, hfound, hsearch, by omega, by omega⟩

/-- A field and two of its numbered names, one of which a block carries. -/
def numberedAmounts : Entity :=
  { name := "Orders"
    fields := [.native "amount" .continuous, .native "amount_2" .continuous]
    blocks := [⟨"amount_1", ⟨"Block", []⟩⟩] }

theorem numberedAmounts_first : "amount" ∈ numberedAmounts.names ∧
    numberedAmounts.freeName "amount" = "amount_3" ∧
    ∃ i tried, numberedAmounts.FirstNumber "amount" i ∧
      numberedAmounts.freeName "amount" = numbered "amount" i ∧
      Search numberedAmounts.hasName "amount" 1 tried (numberedAmounts.freeName "amount") ∧
      tried.length = i ∧ i ≤ 3 := by
  have hstem : "amount" ∈ numberedAmounts.names := by decide
  exact ⟨hstem, by decide +kernel, (freeName_first numberedAmounts "amount").2.2.2 hstem⟩

end Entity

end FeatureSynth
