/-
# Frequencies of a sample

The values of a sample are counted along the sorted sample, so each is listed once
and with a positive count.  A value is frequent at `q` quantiles if it makes up one
`q`-th of the sample; so there are at most `q` frequent values, and if there are as
many, they are all values there are.  Hence the groups are at most `q`, the group
of the other values included, and the index of that group, the last quantile, is
above the ranks of the frequent ones.
-/
import Mathlib.Algebra.GroupWithZero.Nat
import Mathlib.Data.String.Basic
import Mathlib.Order.Compare
import FeatureSynth.Partile.Group
import FeatureSynth.Proofs.Bisect

namespace FeatureSynth

namespace Partile

namespace Frequencies

/-! ## Distinct values -/

theorem valueLE_iff {a b : String} : valueLE a b = true ↔ a ≤ b := by
  rw [valueLE, bne_iff_ne, ← compare_le_iff_le]

theorem mem_runs : ∀ {l : List String} {x : String}, x ∈ (runs l).map (·.1) → x ∈ l
  | [], _, h => h
  | y :: ys, x, h => by
      rw [runs] at h
      have ih := @mem_runs ys x
      split at h
      · rename_i z count rest hruns
        rw [hruns] at ih
        split at h
        · rename_i heq
          exact (List.mem_cons.mp h).elim (fun h => h ▸ List.mem_cons_self)
            fun h => List.mem_cons_of_mem _ (ih (List.mem_cons_of_mem _ h))
        · exact (List.mem_cons.mp h).elim (fun h => h ▸ List.mem_cons_self)
            fun h => List.mem_cons_of_mem _ (ih h)
      · exact List.mem_cons.mpr (.inl (List.mem_singleton.mp h))

/-- The values of a sorted sample, each once. -/
theorem runs_pairwise : ∀ {l : List String}, l.Pairwise (· ≤ ·) →
    ((runs l).map (·.1)).Pairwise (· < ·)
  | [], _ => .nil
  | x :: xs, h => by
      obtain ⟨hx, hxs⟩ := List.pairwise_cons.mp h
      have ih := runs_pairwise hxs
      have hle : ∀ y ∈ (runs xs).map (·.1), x ≤ y := fun y hy => hx y (mem_runs hy)
      rw [runs]
      split
      · rename_i y count rest hruns
        rw [hruns] at ih hle
        split
        · rename_i heq
          rwa [heq]
        · rename_i hne
          have hlt : x < y := lt_of_le_of_ne (hle y List.mem_cons_self) hne
          refine List.pairwise_cons.mpr ⟨List.forall_mem_cons.mpr ⟨hlt, fun z hz => ?_⟩, ih⟩
          exact hlt.trans (List.rel_of_pairwise_cons ih hz)
      · exact List.pairwise_singleton ..

theorem runs_positive : ∀ {l : List String}, ∀ e ∈ runs l, 0 < e.2
  | [], _, h => nomatch h
  | x :: xs, e, h => by
      have ih := @runs_positive xs
      rw [runs] at h
      split at h
      · rename_i y count rest hruns
        rw [hruns] at ih
        obtain ⟨hy, hrest⟩ := List.forall_mem_cons.mp ih
        split at h
        · exact (List.mem_cons.mp h).elim (fun h => h ▸ Nat.succ_pos _) (hrest e)
        · exact (List.mem_cons.mp h).elim (fun h => h ▸ Nat.one_pos) (ih e)
      · exact (List.mem_singleton.mp h) ▸ Nat.one_pos

theorem entryLE_iff {a b : String × Nat} :
    entryLE a b = true ↔ b.2 < a.2 ∨ b.2 = a.2 ∧ a.1 ≤ b.1 := by
  rw [entryLE, Bool.or_eq_true, Bool.and_eq_true, decide_eq_true_iff, beq_iff_eq, valueLE_iff]

theorem pairwise_entries (entries : List (String × Nat)) :
    (entries.mergeSort entryLE).Pairwise fun a b => entryLE a b = true := by
  refine List.pairwise_mergeSort (fun a b c hab hbc => ?_) (fun a b => ?_) entries
  · rw [entryLE_iff] at hab hbc ⊢
    rcases hab with hab | ⟨hab, hab'⟩ <;> rcases hbc with hbc | ⟨hbc, hbc'⟩
    · exact .inl (hbc.trans hab)
    · exact .inl (hbc ▸ hab)
    · exact .inl (hab ▸ hbc)
    · exact .inr ⟨hbc.trans hab, hab'.trans hbc'⟩
  · rw [Bool.or_eq_true, entryLE_iff, entryLE_iff]
    rcases lt_trichotomy a.2 b.2 with h | h | h
    · exact .inr (.inl h)
    · exact (le_total a.1 b.1).imp (fun hle => .inr ⟨h.symm, hle⟩) fun hle => .inr ⟨h, hle⟩
    · exact .inl (.inl h)

/-- Frequencies of distinct values, each of which occurs, in decreasing order. -/
structure Lawful (f : Frequencies) : Prop where
  nodup : f.values.Nodup
  length : f.counts.length = f.values.length
  positive : ∀ n ∈ f.counts, 0 < n
  decreasing : f.counts.Pairwise (· ≥ ·)

theorem pairwise_values (samples : List String) :
    (samples.mergeSort valueLE).Pairwise (· ≤ ·) :=
  (List.pairwise_mergeSort (fun a b c hab hbc => by
      rw [valueLE_iff] at hab hbc ⊢
      exact hab.trans hbc)
    (fun a b => by
      rw [Bool.or_eq_true, valueLE_iff, valueLE_iff]
      exact le_total a b) samples).imp valueLE_iff.mp

theorem lawful_ofSamples (samples : List String) : (ofSamples samples).Lawful := by
  have hsorted := pairwise_values samples
  have hperm : ((runs (samples.mergeSort valueLE)).mergeSort entryLE).Perm
      (runs (samples.mergeSort valueLE)) := List.mergeSort_perm ..
  exact {
    nodup := (hperm.map Prod.fst).nodup_iff.mpr ((runs_pairwise hsorted).imp ne_of_lt)
    length := by rw [ofSamples, List.length_map, List.length_map]
    positive := by
      intro n hn
      obtain ⟨e, he, rfl⟩ := List.mem_map.mp hn
      exact runs_positive e (hperm.mem_iff.mp he)
    decreasing := by
      refine List.pairwise_map.mpr ((pairwise_entries _).imp fun hab => ?_)
      exact (entryLE_iff.mp hab).elim le_of_lt fun h => h.1.le }

/-! ## Groups -/

variable {f : Frequencies}

theorem map_valueAt {n : Nat} (h : n ≤ f.valueCount) :
    (List.range n).map f.valueAt = f.values.take n := by
  refine List.ext_getElem (by rw [List.length_map, List.length_range, List.length_take_of_le h])
    fun i _ hi => ?_
  rw [List.length_take_of_le h] at hi
  rw [List.getElem_map, List.getElem_range, List.getElem_take, valueAt,
    List.getD_eq_getElem?_getD, List.getElem?_eq_getElem (hi.trans_le h)]
  rfl

/-- The values of different ranks are different. -/
theorem Lawful.nodup_valueAt (h : f.Lawful) {n : Nat} (hn : n ≤ f.valueCount) :
    ((List.range n).map f.valueAt).Nodup := by
  rw [map_valueAt hn]
  exact h.nodup.sublist (List.take_sublist ..)

theorem countP_mul_le (threshold : Nat) : ∀ l : List Nat,
    l.countP (threshold ≤ ·) * threshold ≤ l.sum
  | [] => by simp
  | n :: l => by
      have ih := countP_mul_le threshold l
      rw [List.sum_cons]
      by_cases h : threshold ≤ n
      · rw [List.countP_cons_of_pos (by simpa using h), Nat.succ_mul]
        omega
      · rw [List.countP_cons_of_neg (by simpa using h)]
        omega

/-- Number of frequent values. -/
def frequent (f : Frequencies) (quantiles : Nat) : Nat :=
  (f.counts.take (min quantiles f.valueCount)).countP (f.groupThreshold quantiles ≤ ·)

theorem frequent_le (f : Frequencies) (quantiles : Nat) :
    f.frequent quantiles ≤ min quantiles f.valueCount :=
  List.countP_le_length.trans (List.length_take_le ..)

/-- There are frequent values if the first value is one. -/
theorem Lawful.frequent_pos_iff (h : f.Lawful) {quantiles : Nat} (hpos : 0 < quantiles)
    (hvalues : 0 < f.valueCount) :
    0 < f.frequent quantiles ↔ f.groupThreshold quantiles ≤ f.counts.headD 0 := by
  have hcounts : 0 < f.counts.length := h.length ▸ hvalues
  obtain ⟨first, others, hlist⟩ := List.exists_cons_of_length_pos hcounts
  obtain ⟨n, hn⟩ : ∃ n, min quantiles f.valueCount = n + 1 :=
    Nat.exists_eq_succ_of_ne_zero (by omega)
  have hdecreasing := h.decreasing
  rw [hlist] at hdecreasing
  rw [frequent, hlist, hn, List.take_succ_cons, List.headD_cons, List.countP_pos_iff]
  constructor
  · rintro ⟨x, hx, hreach⟩
    refine (of_decide_eq_true hreach).trans ?_
    rcases List.mem_cons.mp hx with rfl | hx
    · exact le_rfl
    · exact List.rel_of_pairwise_cons hdecreasing (List.mem_of_mem_take hx)
  · intro hreach
    exact ⟨first, List.mem_cons_self, decide_eq_true hreach⟩

/-- The frequent values come first, so the search for the last of them counts them. -/
theorem Lawful.partitionPoint_eq (h : f.Lawful) (quantiles : Nat) :
    partitionPoint (f.groupThreshold quantiles ≤ ·)
      (f.counts.take (min quantiles f.valueCount)) = f.frequent quantiles :=
  partitionPoint_eq_countP <| (h.decreasing.sublist (List.take_sublist _ _)).imp
    fun {x y} (hge : x ≥ y) hreach => decide_eq_true ((of_decide_eq_true hreach).trans hge)

theorem Lawful.groupCount_eq (h : f.Lawful) (quantiles : Nat) :
    f.groupCount quantiles =
      if f.valueCount = 0 ∨ quantiles = 0 then 0
      else if f.frequent quantiles = 0 then 1
      else if f.frequent quantiles < f.valueCount then f.frequent quantiles + 1
      else f.frequent quantiles := by
  rw [groupCount]
  split
  · rfl
  · rename_i hne
    obtain ⟨hvalues, hpos⟩ := not_or.mp hne
    have hlast : min quantiles f.valueCount - 1 + 1 = min quantiles f.valueCount := by omega
    have hfirst := h.frequent_pos_iff (Nat.pos_of_ne_zero hpos) (Nat.pos_of_ne_zero hvalues)
    dsimp only
    rw [hlast, h.partitionPoint_eq]
    split_ifs <;> omega

theorem Lawful.groupCount_le_valueCount (h : f.Lawful) (quantiles : Nat) :
    f.groupCount quantiles ≤ f.valueCount := by
  have hle := f.frequent_le quantiles
  rw [h.groupCount_eq]
  split
  · exact Nat.zero_le _
  · split
    · omega
    · split <;> omega

/-- Where there are as many frequent values as quantiles, they make up the sample. -/
theorem Lawful.frequent_lt (h : f.Lawful) {quantiles : Nat} (hpos : 0 < quantiles)
    (hlt : f.frequent quantiles < f.valueCount) : f.frequent quantiles < quantiles := by
  refine lt_of_le_of_ne ((f.frequent_le quantiles).trans (Nat.min_le_left ..)) fun heq => ?_
  rw [heq] at hlt
  have hthreshold : f.sampleCount ≤ quantiles * f.groupThreshold quantiles := by
    have hlt := Nat.lt_mul_div_succ (f.sampleCount + quantiles - 1) hpos
    rw [Nat.mul_succ] at hlt
    rw [groupThreshold]
    omega
  have hfrequent : quantiles * f.groupThreshold quantiles ≤ (f.counts.take quantiles).sum := by
    have hle := countP_mul_le (f.groupThreshold quantiles) (f.counts.take quantiles)
    rw [frequent, Nat.min_eq_left hlt.le] at heq
    rwa [heq] at hle
  have hsplit : f.sampleCount = (f.counts.take quantiles).sum + (f.counts.drop quantiles).sum := by
    rw [← List.sum_append, List.take_append_drop]
    rfl
  -- so nothing is left for the other values
  have hlength : quantiles < f.counts.length := h.length ▸ hlt
  rw [List.drop_eq_getElem_cons hlength, List.sum_cons] at hsplit
  have hpositive := h.positive _ (List.getElem_mem hlength)
  omega

theorem Lawful.groupCount_le (h : f.Lawful) (quantiles : Nat) :
    f.groupCount quantiles ≤ quantiles := by
  have hle := f.frequent_le quantiles
  rw [h.groupCount_eq]
  split
  · exact Nat.zero_le _
  · rename_i hne
    obtain ⟨-, hpos⟩ := not_or.mp hne
    split
    · omega
    · split
      · exact h.frequent_lt (Nat.pos_of_ne_zero hpos) ‹_›
      · omega

end Frequencies

end Partile

end FeatureSynth
