/-
# How many groups a sample has

The values of a sample are listed by decreasing frequency, equally frequent ones in
increasing order, each once and with the number of times it occurs (`Lists`).  At `q`
quantiles a value is frequent if it occurs in at least one `q`-th of the sample.  Only the
first `q` values are looked at for that, and this misses none: frequent values come before
the others, and there are at most `q` of them, since they would not fit into the sample
otherwise.  So the number of groups follows the number of frequent values
(`ofSamples_groups`), and it grows with the number of quantiles, as the least frequency
falls.
-/
import Mathlib.Algebra.Order.Floor.Div
import Mathlib.Data.List.Dedup
import FeatureSynth.Proofs.Partile.Levels

namespace FeatureSynth

namespace Partile

namespace Frequencies

/-! ## The list of values -/

theorem mem_runs_of_mem {l : List String} {x : String} (hx : x ∈ l) :
    x ∈ (runs l).map (·.1) := by
  induction l with
  | nil => cases hx
  | cons y ys ih =>
    rw [runs]
    split
    · rename_i z count rest hruns
      rw [hruns] at ih
      split
      · rename_i heq
        exact (List.mem_cons.mp hx).elim (fun h => h ▸ List.mem_cons_self)
          fun h => heq ▸ ih h
      · exact (List.mem_cons.mp hx).elim (fun h => h ▸ List.mem_cons_self)
          fun h => List.mem_cons_of_mem _ (ih h)
    · rename_i hruns
      rw [hruns] at ih
      exact (List.mem_cons.mp hx).elim (fun h => h ▸ List.mem_cons_self)
        fun h => absurd (ih h) List.not_mem_nil

/-- The run of a value in a sorted sample is all of its occurrences. -/
theorem count_runs {l : List String} (hsorted : l.Pairwise (· ≤ ·)) :
    ∀ e ∈ runs l, e.2 = l.count e.1 := by
  induction l with
  | nil => exact fun _ h => absurd h List.not_mem_nil
  | cons x xs ih =>
    intro e h
    obtain ⟨hx, hxs⟩ := List.pairwise_cons.mp hsorted
    replace ih := ih hxs
    have hnext := runs_pairwise hxs
    rw [runs] at h
    split at h
    · rename_i y count rest hruns
      rw [hruns] at ih hnext
      obtain ⟨hy, hrest⟩ := List.forall_mem_cons.mp ih
      have hlater : ∀ d ∈ rest, y < d.1 := fun d hd =>
        List.rel_of_pairwise_cons hnext (List.mem_map_of_mem hd)
      split at h
      · rename_i heq
        subst heq
        rcases List.mem_cons.mp h with rfl | h
        · rw [List.count_cons_self, ← hy]
        · rw [List.count_cons_of_ne (hlater e h).ne, hrest e h]
      · rename_i hne
        have hfirst : x < y := by
          have hmem : y ∈ xs := mem_runs (hruns ▸ List.mem_cons_self)
          exact lt_of_le_of_ne (hx y hmem) hne
        rcases List.mem_cons.mp h with rfl | h
        · have hnone : x ∉ xs := fun hmem => by
            have hlisted := mem_runs_of_mem hmem
            rw [hruns] at hlisted
            rcases List.mem_cons.mp hlisted with heq | hlisted
            · exact hne heq
            · exact (hfirst.trans (List.rel_of_pairwise_cons hnext hlisted)).false
          rw [List.count_cons_self, List.count_eq_zero.mpr hnone]
        · have hlt : x < e.1 := (List.mem_cons.mp h).elim (fun h => h ▸ hfirst) fun h =>
            hfirst.trans (hlater e h)
          rw [List.count_cons_of_ne hlt.ne, ih e h]
    · rename_i hruns
      have hnone : xs = [] := List.eq_nil_iff_forall_not_mem.mpr fun z hz => by
        have hlisted := mem_runs_of_mem hz
        rw [hruns] at hlisted
        exact absurd hlisted List.not_mem_nil
      rw [List.mem_singleton.mp h, hnone, List.count_singleton_self]

/-- Frequencies list the values of a sample, each once and with its count, the most frequent ones
first and equally frequent ones in increasing order. -/
structure Lists (samples : List String) (f : Frequencies) : Prop where
  nodup : f.values.Nodup
  mem_iff : ∀ v, v ∈ f.values ↔ v ∈ samples
  counts : f.counts = f.values.map samples.count
  sorted : f.values.Pairwise fun v w =>
    samples.count w < samples.count v ∨ samples.count w = samples.count v ∧ v < w

theorem lists_ofSamples (samples : List String) : Lists samples (ofSamples samples) := by
  have hperm : (samples.mergeSort valueLE).Perm samples := List.mergeSort_perm ..
  have hsorted := pairwise_values samples
  have hentries : ((runs (samples.mergeSort valueLE)).mergeSort entryLE).Perm
      (runs (samples.mergeSort valueLE)) := List.mergeSort_perm ..
  have hcount : ∀ e ∈ (runs (samples.mergeSort valueLE)).mergeSort entryLE,
      e.2 = samples.count e.1 := fun e he =>
    (count_runs hsorted e (hentries.mem_iff.mp he)).trans (hperm.count_eq _)
  have hnodup := (lawful_ofSamples samples).nodup
  refine ⟨hnodup, fun v => ?_, ?_, ?_⟩
  · rw [← hperm.mem_iff]
    exact (hentries.map Prod.fst).mem_iff.trans ⟨mem_runs, mem_runs_of_mem⟩
  · rw [ofSamples, List.map_map]
    exact List.map_congr_left hcount
  · refine List.pairwise_map.mpr ?_
    have hapart := List.pairwise_map.mp hnodup
    refine ((pairwise_entries _).and hapart).imp_of_mem fun {a b} ha hb hab => ?_
    rw [← hcount a ha, ← hcount b hb]
    exact (entryLE_iff.mp hab.1).imp_right fun h => ⟨h.1, lt_of_le_of_ne h.2 hab.2⟩

/-! ## Frequent values -/

/-- The values that occur in at least one `quantiles`-th of a sample. -/
def frequentValues (samples : List String) (quantiles : Nat) : List String :=
  samples.dedup.filter fun v => samples.length ⌈/⌉ quantiles ≤ samples.count v

variable {samples : List String} {f : Frequencies} {quantiles more : Nat}

theorem Lists.perm_dedup (h : Lists samples f) : f.values.Perm samples.dedup :=
  (List.perm_ext_iff_of_nodup h.nodup (List.nodup_dedup samples)).mpr fun v =>
    (h.mem_iff v).trans List.mem_dedup.symm

theorem Lists.countP_counts (h : Lists samples f) (threshold : Nat) :
    f.counts.countP (threshold ≤ ·) =
      samples.dedup.countP fun v => decide (threshold ≤ samples.count v) := by
  rw [h.counts, List.countP_map, h.perm_dedup.countP_eq]
  rfl

/-- In a decreasing list, what reaches a threshold comes first. -/
theorem countP_take {l : List Nat} (hl : l.Pairwise (· ≥ ·)) {threshold n : Nat}
    (hn : l.countP (threshold ≤ ·) ≤ n) :
    (l.take n).countP (threshold ≤ ·) = l.countP (threshold ≤ ·) := by
  have hsplit : l.countP (threshold ≤ ·) =
      (l.take n).countP (threshold ≤ ·) + (l.drop n).countP (threshold ≤ ·) := by
    rw [← List.countP_append, List.take_append_drop]
  obtain hnone | hsome := Nat.eq_zero_or_pos ((l.drop n).countP (threshold ≤ ·))
  · rw [hsplit, hnone, Nat.add_zero]
  -- a value that reaches it later would come after `n` others
  · obtain ⟨x, hx, hreach⟩ := List.countP_pos_iff.mp hsome
    have hbefore : ∀ y ∈ l.take n, threshold ≤ y := fun y hy => by
      rw [← List.take_append_drop n l] at hl
      exact (of_decide_eq_true hreach).trans ((List.pairwise_append.mp hl).2.2 y hy x hx)
    have hlength : n < l.length := by
      have hrest := List.length_pos_of_mem hx
      rw [List.length_drop] at hrest
      omega
    have hall : (l.take n).countP (threshold ≤ ·) = n := by
      rw [List.countP_eq_length.mpr fun y hy => decide_eq_true (hbefore y hy),
        List.length_take_of_le hlength.le]
    omega

theorem groupThreshold_ofSamples (samples : List String) (quantiles : Nat) :
    (ofSamples samples).groupThreshold quantiles = samples.length ⌈/⌉ quantiles := by
  rw [groupThreshold, sampleCount_ofSamples, Nat.ceilDiv_eq_add_pred_div]

/-- No more values than quantiles are frequent. -/
theorem length_frequentValues_le (hne : samples ≠ []) (hpos : 0 < quantiles) :
    (frequentValues samples quantiles).length ≤ quantiles := by
  have hlists := lists_ofSamples samples
  have hfit := countP_mul_le (samples.length ⌈/⌉ quantiles) (ofSamples samples).counts
  have hsum : (ofSamples samples).counts.sum = samples.length := sampleCount_ofSamples samples
  have hcover : samples.length ≤ quantiles * (samples.length ⌈/⌉ quantiles) :=
    (ceilDiv_le_iff_le_mul hpos).mp le_rfl
  have hthreshold : 0 < samples.length ⌈/⌉ quantiles := by
    refine Nat.pos_of_ne_zero fun hzero => hne (List.length_eq_zero_iff.mp ?_)
    rw [hzero] at hcover
    omega
  rw [hlists.countP_counts, hsum] at hfit
  rw [frequentValues, ← List.countP_eq_length_filter]
  exact Nat.le_of_mul_le_mul_right (hfit.trans hcover) hthreshold

/-- The frequent values are found among the first values. -/
theorem frequent_ofSamples (hne : samples ≠ []) (hpos : 0 < quantiles) :
    (ofSamples samples).frequent quantiles = (frequentValues samples quantiles).length := by
  have hlists := lists_ofSamples samples
  have hcount : (ofSamples samples).counts.countP (samples.length ⌈/⌉ quantiles ≤ ·) =
      (frequentValues samples quantiles).length := by
    rw [hlists.countP_counts, frequentValues, List.countP_eq_length_filter]
  rw [frequent, groupThreshold_ofSamples, ← hcount]
  refine countP_take (lawful_ofSamples samples).decreasing (le_min ?_ ?_)
  · exact hcount ▸ length_frequentValues_le hne hpos
  · rw [valueCount, ← (lawful_ofSamples samples).length]
    exact List.countP_le_length

theorem frequentValues_sublist (hpos : 0 < quantiles) (hle : quantiles ≤ more) :
    (frequentValues samples quantiles).Sublist (frequentValues samples more) := by
  refine List.monotone_filter_right _ fun v hv => ?_
  have hthreshold : samples.length ⌈/⌉ more ≤ samples.length ⌈/⌉ quantiles := by
    rw [ceilDiv_le_iff_le_mul (hpos.trans_le hle)]
    exact ((ceilDiv_le_iff_le_mul hpos).mp le_rfl).trans (Nat.mul_le_mul_right _ hle)
  exact decide_eq_true (hthreshold.trans (of_decide_eq_true hv))

/-! ## Groups -/

theorem valueCount_ofSamples (samples : List String) :
    (ofSamples samples).valueCount = samples.dedup.length :=
  (lists_ofSamples samples).perm_dedup.length_eq

theorem length_dedup_pos (hne : samples ≠ []) : 0 < samples.dedup.length := by
  obtain ⟨v, hv⟩ := List.exists_mem_of_ne_nil samples hne
  exact List.length_pos_of_mem (List.mem_dedup.mpr hv)

theorem groupCount_ofSamples (hne : samples ≠ []) (hpos : 0 < quantiles) :
    (ofSamples samples).groupCount quantiles =
      if (frequentValues samples quantiles).length = 0 then 1
      else if (frequentValues samples quantiles).length < samples.dedup.length then
        (frequentValues samples quantiles).length + 1
      else (frequentValues samples quantiles).length := by
  have hdistinct := length_dedup_pos hne
  rw [(lawful_ofSamples samples).groupCount_eq, frequent_ofSamples hne hpos, valueCount_ofSamples,
    if_neg (by omega)]

theorem groupCount_mono (hne : samples ≠ []) (hpos : 0 < quantiles) (hle : quantiles ≤ more) :
    (ofSamples samples).groupCount quantiles ≤ (ofSamples samples).groupCount more := by
  have hfew : (frequentValues samples quantiles).length ≤ (frequentValues samples more).length :=
    (frequentValues_sublist hpos hle).length_le
  have hall : (frequentValues samples more).length ≤ samples.dedup.length :=
    List.length_filter_le ..
  rw [groupCount_ofSamples hne hpos, groupCount_ofSamples hne (hpos.trans_le hle)]
  split_ifs <;> omega

/-- How the groups at a number of quantiles follow from the frequent ones among the distinct values. -/
structure GroupRule (frequent distinct quantiles groups : Nat) : Prop where
  rare : frequent = 0 → groups = 1
  mixed : 0 < frequent → frequent < distinct → groups = frequent + 1
  all : frequent = distinct → groups = frequent
  bounded : groups ≤ min quantiles distinct
  ranks : ∀ group, group + 1 < groups →
    groupIndex group groups quantiles = group ∧ group < quantiles - 1
  last : groupIndex (groups - 1) groups quantiles = quantiles - 1

/-- A sample of `n` values is listed by decreasing frequency, each distinct value once with its count
and equally frequent ones in increasing order.  At `q` quantiles the values that occur at least
`⌈n / q⌉` times are groups of their own: there is one group if there are none, one more if there are
others, and no more if they are all.  So the groups are at most as many as the quantiles and as the
distinct values, the last one takes an index above the ranks of the others, and more quantiles never
give fewer groups. -/
theorem ofSamples_groups (samples : List String) (hne : samples ≠ []) :
    Lists samples (ofSamples samples) ∧
      (∀ quantiles, 0 < quantiles → GroupRule (frequentValues samples quantiles).length
        samples.dedup.length quantiles ((ofSamples samples).groupCount quantiles)) ∧
      ∀ quantiles more, 0 < quantiles → quantiles ≤ more →
        (ofSamples samples).groupCount quantiles ≤ (ofSamples samples).groupCount more := by
  refine ⟨lists_ofSamples samples, fun quantiles hpos => ?_, fun _ _ => groupCount_mono hne⟩
  have hcount := groupCount_ofSamples hne hpos
  have hquantiles := (lawful_ofSamples samples).groupCount_le quantiles
  have hvalues := (lawful_ofSamples samples).groupCount_le_valueCount quantiles
  have hdistinct := length_dedup_pos hne
  rw [valueCount_ofSamples] at hvalues
  refine ⟨fun h => ?_, fun h h' => ?_, fun h => ?_, le_min hquantiles hvalues, fun group h => ?_, ?_⟩
  · rw [hcount, if_pos h]
  · rw [hcount, if_neg h.ne', if_pos h']
  · rw [hcount, if_neg (h.trans_gt hdistinct).ne', if_neg h.not_lt]
  · exact ⟨if_pos h, by omega⟩
  · exact if_neg (by omega)

/-- Nine samples of four values, two of which make up a fourth of them. -/
theorem ofSamples_groups_letters : ["a", "b", "a", "c", "b", "a", "d", "b", "a"] ≠ [] ∧
    GroupRule 2 4 4 ((ofSamples ["a", "b", "a", "c", "b", "a", "d", "b", "a"]).groupCount 4) :=
  ⟨by decide, (ofSamples_groups ["a", "b", "a", "c", "b", "a", "d", "b", "a"]
    (by decide)).2.1 4 (by decide)⟩

end Frequencies

end Partile

end FeatureSynth
