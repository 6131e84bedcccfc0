/-
# Intervals tile the distinct values

The distinct values of a sample stand in increasing order, each sample equal to one of
them (`Distribution.Lists`).  Quantile boundaries are moved to ranks of these values one
by one, so they may repeat, or fall back behind each other.  Merging takes only those
above the last one taken, and starts an interval right behind it: whatever the
boundaries were, the intervals tile an initial run of the ranks (`tiles_merge`).  What is
said of them then follows from tiling alone: no value is in two intervals, there are no
more of them than values, and their bounds look up values that are there.
-/
import FeatureSynth.Proofs.Partile.Cuttable
import FeatureSynth.Proofs.Partile.Levels
import FeatureSynth.Proofs.Scalar.Rank

namespace FeatureSynth

open Scalar

namespace Partile

/-! ## Distinct values -/

namespace Distribution

/-- A sample as it counts: missing if it is NaN. -/
def counted (x : Float) : Float := if isNaN x then missing else x

theorem isNaN_counted (x : Float) : isNaN (counted x) = false := by
  unfold counted
  cases h : isNaN x with
  | true => exact isNaN_missing
  | false => exact h

/-- Every sample is equal to the value of its run. -/
theorem exists_mem_runs : ∀ {l : List Float} (seen : ℕ), (∀ x ∈ l, isNaN x = false) →
    ∀ x ∈ l, ∃ v ∈ (runs seen l).map (·.1), number v = number x := by
  intro l
  induction l with
  | nil => exact fun _ _ x hx => absurd hx List.not_mem_nil
  | cons y ys ih =>
    intro seen hl x hx
    obtain ⟨hy, hys⟩ := List.forall_mem_cons.mp hl
    have htail := ih (seen + 1) hys
    rw [runs]
    split
    · rename_i z count rest hruns
      have hz : isNaN z = false := by
        have hvalues := runs_sublist (seen + 1) ys
        rw [hruns] at hvalues
        exact hys z (hvalues.subset List.mem_cons_self)
      rw [hruns] at htail
      split
      · rename_i hyz
        have hnumber := (beq_iff_number hy hz).mp hyz
        obtain rfl | hx := List.mem_cons.mp hx
        · exact ⟨x, List.mem_cons_self, rfl⟩
        · obtain ⟨v, hv, hvx⟩ := htail x hx
          obtain rfl | hv := List.mem_cons.mp hv
          · exact ⟨y, List.mem_cons_self, hnumber.trans hvx⟩
          · exact ⟨v, List.mem_cons_of_mem _ hv, hvx⟩
      · obtain rfl | hx := List.mem_cons.mp hx
        · exact ⟨x, List.mem_cons_self, rfl⟩
        · obtain ⟨v, hv, hvx⟩ := htail x hx
          exact ⟨v, List.mem_cons_of_mem _ hv, hvx⟩
    · rename_i hruns
      rw [hruns] at htail
      obtain rfl | hx := List.mem_cons.mp hx
      · exact ⟨x, List.mem_cons_self, rfl⟩
      · obtain ⟨v, hv, -⟩ := htail x hx
        exact absurd hv List.not_mem_nil

/-- The values of a distribution are those of a sample, each once and in increasing order. -/
structure Lists (samples : List Float) (d : Distribution) : Prop where
  increasing : d.values.Pairwise (· < ·)
  sampled : ∀ v ∈ d.values, ∃ x ∈ samples, v = counted x
  listed : ∀ x ∈ samples, ∃ v ∈ d.values, (v == counted x) = true

/-- The values of a sample in order of ranks. -/
def sortedSamples (samples : List Float) : List Float :=
  (samples.map counted).mergeSort fun x y => rank x ≤ rank y

theorem values_sublist (samples : List Float) :
    (ofSamples samples).values.Sublist (sortedSamples samples) :=
  runs_sublist 0 (sortedSamples samples)

theorem mem_sortedSamples {samples : List Float} {x : Float} :
    x ∈ sortedSamples samples ↔ ∃ y ∈ samples, counted y = x := by
  rw [sortedSamples, (List.mergeSort_perm _ _).mem_iff, List.mem_map]

theorem isNaN_sortedSamples {samples : List Float} : ∀ x ∈ sortedSamples samples, isNaN x = false := by
  intro x hx
  obtain ⟨y, -, rfl⟩ := mem_sortedSamples.mp hx
  exact isNaN_counted y

theorem pairwise_sortedSamples (samples : List Float) :
    (sortedSamples samples).Pairwise fun x y => number x ≤ number y := by
  have hranks : (sortedSamples samples).Pairwise fun x y => decide (rank x ≤ rank y) = true := by
    refine List.pairwise_mergeSort (fun x y z hxy hyz => ?_) (fun x y => ?_) _
    · rw [decide_eq_true_iff] at hxy hyz ⊢
      exact hxy.trans hyz
    · rw [Bool.or_eq_true, decide_eq_true_iff, decide_eq_true_iff]
      exact le_total _ _
  exact hranks.imp_of_mem fun hx hy h =>
    number_le_of_rank (isNaN_sortedSamples _ hx) (isNaN_sortedSamples _ hy) (of_decide_eq_true h)

theorem lists_ofSamples (samples : List Float) : Lists samples (ofSamples samples) where
  increasing := by
    have hnan : ∀ x ∈ (ofSamples samples).values, isNaN x = false := fun x hx =>
      isNaN_sortedSamples x ((values_sublist samples).subset hx)
    have hsorted : (ofSamples samples).values.Pairwise fun x y => number x ≤ number y :=
      (pairwise_sortedSamples samples).sublist (values_sublist samples)
    -- neighbours are in order and differ, and what increases from each to the next increases
    have hchain : ((ofSamples samples).values.map number).IsChain (· < ·) := by
      rw [List.isChain_map, List.isChain_iff_getElem]
      intro i hi
      have hle := List.isChain_iff_getElem.mp hsorted.isChain i hi
      have hne := List.isChain_iff_getElem.mp (isChain_values samples) i hi
      refine lt_of_le_of_ne hle fun heq => ?_
      rw [(beq_iff_number (hnan _ (List.getElem_mem _)) (hnan _ (List.getElem_mem _))).mpr heq] at hne
      cases hne
    exact (List.pairwise_map.mp (List.isChain_iff_pairwise.mp hchain)).imp_of_mem fun hx hy h =>
      (lt_iff_number (hnan _ hx) (hnan _ hy)).mpr h
  sampled := by
    intro v hv
    obtain ⟨x, hx, rfl⟩ := mem_sortedSamples.mp ((values_sublist samples).subset hv)
    exact ⟨x, hx, rfl⟩
  listed := by
    intro x hx
    have hmem := mem_sortedSamples.mpr ⟨x, hx, rfl⟩
    obtain ⟨v, hv, hvx⟩ := exists_mem_runs 0 isNaN_sortedSamples _ hmem
    have hvnan := isNaN_sortedSamples v ((values_sublist samples).subset hv)
    exact ⟨v, hv, (beq_iff_number hvnan (isNaN_counted x)).mpr hvx⟩

end Distribution

/-! ## Tilings -/

namespace Quantile

/-- The ranks of the values in an interval. -/
def ranks (q : Quantile) : List ℕ := List.range' q.first (q.last + 1 - q.first)

/-- Intervals that cover the ranks of a run one after another, each of them at least one. -/
inductive Tiles : (first : ℕ) → List Quantile → (behind : ℕ) → Prop
  | nil {i : ℕ} : Tiles i [] i
  | cons {q : Quantile} {rest : List Quantile} {first behind : ℕ} : q.first = first →
      first ≤ q.last → Tiles (q.last + 1) rest behind → Tiles first (q :: rest) behind

variable {first behind : ℕ} {l : List Quantile} {q : Quantile}

theorem mem_ranks {i : ℕ} : i ∈ q.ranks ↔ q.first ≤ i ∧ i ≤ q.last := by
  rw [ranks, List.mem_range'_1]
  omega

/-- The intervals are no more than the ranks they cover. -/
theorem Tiles.length_le (h : Tiles first l behind) : first + l.length ≤ behind := by
  induction h with
  | nil => exact le_rfl
  | cons _ hle _ ih =>
    rw [List.length_cons]
    omega

theorem Tiles.within (h : Tiles first l behind) :
    ∀ q ∈ l, first ≤ q.first ∧ q.first ≤ q.last ∧ q.last < behind := by
  induction h with
  | nil => exact fun _ hq => absurd hq List.not_mem_nil
  | cons hfirst hle hrest ih =>
    have hlength := hrest.length_le
    refine List.forall_mem_cons.mpr ⟨⟨hfirst.ge, hfirst.trans_le hle, by omega⟩, fun q hq => ?_⟩
    have hwithin := ih q hq
    omega

theorem Tiles.isChain (h : Tiles first l behind) : l.IsChain fun p q => q.first = p.last + 1 := by
  induction h with
  | nil => exact .nil
  | cons _ _ hrest ih =>
    cases hrest with
    | nil => exact .singleton _
    | cons hnext => exact List.isChain_cons_cons.mpr ⟨hnext, ih⟩

theorem Tiles.pairwise (h : Tiles first l behind) : l.Pairwise fun p q => p.last < q.first := by
  induction h with
  | nil => exact .nil
  | cons _ _ hrest ih =>
    exact List.pairwise_cons.mpr ⟨fun q hq => (hrest.within q hq).1, ih⟩

/-- The ranks in the intervals are those of the run, in order. -/
theorem Tiles.flatMap_ranks (h : Tiles first l behind) :
    l.flatMap ranks = List.range' first (behind - first) := by
  induction h with
  | nil =>
    rw [Nat.sub_self]
    rfl
  | @cons q rest first behind hfirst hle hrest ih =>
    have hlength := hrest.length_le
    have hend : first + (q.last + 1 - first) = q.last + 1 := by omega
    calc q.ranks ++ rest.flatMap ranks
        = List.range' first (q.last + 1 - first) ++
            List.range' (first + (q.last + 1 - first)) (behind - (q.last + 1)) := by
          rw [ih, ranks, hfirst, hend]
      _ = List.range' first (behind - first) := by
          rw [List.range'_append_1]
          congr 1
          omega

/-! ## Merging -/

/-- Merging behind a rank tiles the ranks behind it, whatever ranks are proposed. -/
theorem tiles_merge {count : ℕ} : ∀ (l : List (ℕ × ℕ)) (last : ℕ), last < count →
    (∀ x ∈ l, x.2 < count) → ∃ behind ≤ count, Tiles (last + 1) (merge (some last) l) behind := by
  intro l
  induction l with
  | nil => exact fun last hlast _ => ⟨last + 1, hlast, .nil⟩
  | cons x rest ih =>
    intro last hlast hl
    obtain ⟨quantile, upper⟩ := x
    obtain ⟨hupper, hrest⟩ := List.forall_mem_cons.mp hl
    rw [merge]
    split
    · rename_i hlt
      obtain ⟨behind, hle, htiles⟩ := ih upper hupper hrest
      exact ⟨behind, hle, Tiles.cons rfl hlt htiles⟩
    · exact ih last hlast hrest

theorem upperRank_lt {d : Distribution} (hd : d.values ≠ []) (quantiles quantile : ℕ) :
    upperRank d quantiles quantile < d.valueCount := by
  have hcount : 0 < d.valueCount := List.length_pos_of_ne_nil hd
  unfold upperRank
  dsimp only
  split_ifs <;> omega

/-- The first quantile always has an interval, which starts at the first value. -/
theorem ofDistribution_succ {d : Distribution} (hd : d.values ≠ []) (quantiles : ℕ) :
    ofDistribution d (quantiles + 1) = ⟨0, 0, upperRank d (quantiles + 1) 0⟩ ::
      merge (some (upperRank d (quantiles + 1) 0))
        ((List.range' 1 quantiles).map fun q => (q, upperRank d (quantiles + 1) q)) := by
  rw [ofDistribution, if_neg hd, List.range_eq_range', List.range'_succ, List.map_cons]
  rfl

/-- The intervals of a distribution tile its values from the first on. -/
theorem tiles_ofDistribution {d : Distribution} (hd : d.values ≠ []) (quantiles : ℕ) :
    ∃ behind ≤ d.valueCount, Tiles 0 (ofDistribution d (quantiles + 1)) behind := by
  have hupper : ∀ x ∈ (List.range' 1 quantiles).map fun q => (q, upperRank d (quantiles + 1) q),
      x.2 < d.valueCount := by
    intro x hx
    obtain ⟨q, -, rfl⟩ := List.mem_map.mp hx
    exact upperRank_lt hd _ q
  obtain ⟨behind, hle, htiles⟩ := tiles_merge _ _ (upperRank_lt hd (quantiles + 1) 0) hupper
  rw [ofDistribution_succ hd]
  exact ⟨behind, hle, Tiles.cons rfl (Nat.zero_le _) htiles⟩

/-! ## Bounds -/

/-- The bounds of an interval, made from values that are there: a value that is not leaves nothing
to say, not even whether there are bounds. -/
def indexedBounds? (d : Distribution) (q : Quantile) : Option (Option (Float × Float)) :=
  let between (i j : ℕ) := Option.map₂ readableMean? d.values[i]? d.values[j]?
  Option.map₂ (Option.map₂ Prod.mk)
    (if q.first = 0 then some (some missing) else between q.first (q.first - 1))
    (if d.valueCount ≤ q.last + 1 then some (some maxValue) else between q.last (q.last + 1))

theorem getElem?_values {d : Distribution} {i : ℕ} (hi : i < d.valueCount) :
    d.values[i]? = some (d.valueAt i) := by
  have hlt : i < d.values.length := hi
  rw [Distribution.valueAt, List.getD_eq_getElem?_getD, List.getElem?_eq_getElem hlt]
  rfl

theorem indexedBounds?_eq {d : Distribution} (hle : q.first ≤ q.last)
    (hlast : q.last < d.valueCount) : indexedBounds? d q = some (q.bounds? d) := by
  have hlower : (if q.first = 0 then some (some missing)
      else Option.map₂ readableMean? d.values[q.first]? d.values[q.first - 1]?) =
        some (q.lower? d) := by
    rw [getElem?_values (by omega : q.first < d.valueCount),
      getElem?_values (by omega : q.first - 1 < d.valueCount), lower?]
    split <;> rfl
  have hupper : (if d.valueCount ≤ q.last + 1 then some (some maxValue)
      else Option.map₂ readableMean? d.values[q.last]? d.values[q.last + 1]?) =
        some (q.upper? d) := by
    rw [upper?]
    split
    · rfl
    · rename_i hend
      rw [getElem?_values hlast, getElem?_values (not_le.mp hend)]
      rfl
  rw [indexedBounds?, hlower, hupper, bounds?]
  cases q.lower? d <;> cases q.upper? d <;> rfl

/-! ## The intervals of a sample -/

/-- What intervals at a number of quantiles are to be: they tile the values from the first on, each
under the number of the quantile that closes it. -/
structure Tiling (d : Distribution) (quantiles : ℕ) (l : List Quantile) : Prop where
  start : ∃ q, l.head? = some q ∧ q.first = 0 ∧ q.quantile = 0
  contiguous : l.IsChain fun p q => q.first = p.last + 1
  within : ∀ q ∈ l, q.first ≤ q.last ∧ q.last < d.valueCount
  increasing : (l.map (·.quantile)).Pairwise (· < ·)
  below : ∀ q ∈ l, q.quantile < quantiles
  covers : ∃ behind ≤ d.valueCount, l.flatMap ranks = List.range behind
  apart : l.Pairwise fun p q => ∀ i ∈ p.ranks, ∀ j ∈ q.ranks, d.valueAt i < d.valueAt j
  length_le : l.length ≤ min quantiles d.valueCount
  bounded : ∀ q ∈ l, indexedBounds? d q = some (q.bounds? d)

end Quantile

namespace Distribution

theorem Lists.values_ne_nil {samples : List Float} {d : Distribution} (h : Lists samples d)
    (hne : samples ≠ []) : d.values ≠ [] := by
  obtain ⟨x, hx⟩ := List.exists_mem_of_ne_nil samples hne
  obtain ⟨v, hv, -⟩ := h.listed x hx
  exact List.ne_nil_of_mem hv

theorem Lists.valueAt_lt {samples : List Float} {d : Distribution} (h : Lists samples d) {i j : ℕ}
    (hij : i < j) (hj : j < d.valueCount) : d.valueAt i < d.valueAt j := by
  have hi : i < d.values.length := hij.trans hj
  have hlt := List.pairwise_iff_getElem.mp h.increasing i j hi hj hij
  rw [valueAt, valueAt, List.getD_eq_getElem?_getD, List.getD_eq_getElem?_getD,
    List.getElem?_eq_getElem hi, List.getElem?_eq_getElem hj]
  exact hlt

end Distribution

open Quantile in
/-- The distinct values of a sample are listed in increasing order.  At every number of quantiles
there is an interval; the first one starts at the first value, each other one right behind the one
before, and all end at a value.  They are numbered by increasing quantiles from the first on.  So no
value is in two of them, they are no more than the quantiles and than the values, and their bounds
look up no value that is not there. -/
theorem ofSamples_tiles (samples : List Float) (hne : samples ≠ []) :
    Distribution.Lists samples (.ofSamples samples) ∧
      ∀ quantiles, 0 < quantiles → Tiling (.ofSamples samples) quantiles
        (ofDistribution (.ofSamples samples) quantiles) := by
  have hlists := Distribution.lists_ofSamples samples
  refine ⟨hlists, fun quantiles hpos => ?_⟩
  have hd := hlists.values_ne_nil hne
  generalize Distribution.ofSamples samples = d at hlists hd ⊢
  obtain ⟨quantiles, rfl⟩ := Nat.exists_eq_add_one_of_ne_zero hpos.ne'
  obtain ⟨behind, hbehind, htiles⟩ := tiles_ofDistribution hd quantiles
  have hnumbers := ofDistribution_sublist d (quantiles + 1)
  have hwithin : ∀ q ∈ ofDistribution d (quantiles + 1), q.first ≤ q.last ∧ q.last < d.valueCount :=
    fun q hq => ⟨(htiles.within q hq).2.1, (htiles.within q hq).2.2.trans_le hbehind⟩
  exact {
    start := ⟨_, by rw [ofDistribution_succ hd]; rfl, rfl, rfl⟩
    contiguous := htiles.isChain
    within := hwithin
    increasing := List.pairwise_lt_range.sublist hnumbers
    below := fun q hq => List.mem_range.mp (hnumbers.subset (List.mem_map_of_mem hq))
    covers := ⟨behind, hbehind, by rw [htiles.flatMap_ranks, List.range_eq_range', Nat.sub_zero]⟩
    apart := htiles.pairwise.imp_of_mem fun {p q} _ hq hpq i hi j hj => by
      rw [mem_ranks] at hi hj
      exact hlists.valueAt_lt (by omega) (hj.2.trans_lt (hwithin q hq).2)
    length_le := by
      have hlength := htiles.length_le
      have hquantiles := hnumbers.length_le
      rw [List.length_map, List.length_range] at hquantiles
      omega
    bounded := fun q hq => indexedBounds?_eq (hwithin q hq).1 (hwithin q hq).2 }

/-- Six of eight samples share one value. -/
theorem heavy_tiles : ([1, 5, 5, 5, 5, 5, 5, 9] : List Float) ≠ [] ∧ 0 < 4 ∧
    Quantile.Tiling (.ofSamples [1, 5, 5, 5, 5, 5, 5, 9]) 4
      (Quantile.ofDistribution (.ofSamples [1, 5, 5, 5, 5, 5, 5, 9]) 4) :=
  ⟨List.cons_ne_nil _ _, by decide,
    (ofSamples_tiles [1, 5, 5, 5, 5, 5, 5, 9] (List.cons_ne_nil _ _)).2 4 (by decide)⟩

end Partile

end FeatureSynth
