/-
# Samples that can be cut

The bounds of the intervals of a sample lie between neighbouring distinct values
(`isChain_runs`), so a sample can be cut wherever there is a bound between two
different values of it.  Values far apart have one.  Two adjacent doubles may have
none: the limits between which it is looked for can be in the wrong order
(`close_values_cross`).
-/
import FeatureSynth.Proofs.Partile.Mean

namespace FeatureSynth

open Scalar

namespace Partile

/-! ## Neighbouring distinct values -/

namespace Distribution

/-- The values of runs are some of the samples, in order. -/
theorem runs_sublist : ∀ (seen : ℕ) (l : List Float), ((runs seen l).map (·.1)).Sublist l := by
  intro seen l
  induction l generalizing seen with
  | nil => exact .slnil
  | cons x xs ih =>
    have htail := ih (seen + 1)
    rw [runs]
    split
    · rename_i y count rest hruns
      rw [hruns] at htail
      split
      · exact ((List.sublist_cons_self ..).trans htail).cons_cons x
      · exact htail.cons_cons x
    · exact (List.nil_sublist xs).cons_cons x

/-- Neighbouring values of runs are different numbers. -/
theorem isChain_runs : ∀ {l : List Float} {seen : ℕ}, (∀ x ∈ l, isNaN x = false) →
    ((runs seen l).map (·.1)).IsChain fun x y => (x == y) = false := by
  intro l
  induction l with
  | nil => exact fun _ => .nil
  | cons x xs ih =>
    intro seen hl
    have htail := @ih (seen + 1) fun y hy => hl y (List.mem_cons_of_mem _ hy)
    have hvalues := runs_sublist (seen + 1) xs
    rw [runs]
    split
    · rename_i y count rest hruns
      rw [hruns] at htail hvalues
      have hy := hl y (List.mem_cons_of_mem _ (hvalues.subset List.mem_cons_self))
      have hx := hl x List.mem_cons_self
      by_cases hxy : (x == y) = true
      · -- a value that takes the place of an equal one differs from the same neighbour
        rw [if_pos hxy]
        cases rest with
        | nil => exact .singleton _
        | cons z rest =>
          rw [List.map_cons, List.map_cons, List.isChain_cons_cons] at htail ⊢
          refine ⟨?_, htail.2⟩
          have hz := hl z.1 (List.mem_cons_of_mem _
            (hvalues.subset (List.mem_cons_of_mem _ List.mem_cons_self)))
          rw [Bool.eq_false_iff, ne_eq, beq_iff_number hy hz] at htail
          rw [Bool.eq_false_iff, ne_eq, beq_iff_number hx hz, (beq_iff_number hx hy).mp hxy]
          exact htail.1
      · rw [if_neg hxy]
        rw [List.map_cons, List.map_cons, List.isChain_cons_cons]
        exact ⟨Bool.eq_false_iff.mpr hxy, htail⟩
    · exact .singleton _

/-- The values of a distribution are samples, and missing where one was NaN. -/
theorem mem_values {samples : List Float} {x : Float} (h : x ∈ (ofSamples samples).values) :
    isNaN x = false ∧ (x ∈ samples ∨ x = missing) := by
  have hcleaned := (List.mergeSort_perm _ _).mem_iff.mp ((runs_sublist 0 _).subset h)
  obtain ⟨y, hy, rfl⟩ := List.mem_map.mp hcleaned
  cases hnan : isNaN y with
  | true => exact ⟨isNaN_missing, .inr rfl⟩
  | false => exact ⟨hnan, .inl hy⟩

theorem isChain_values (samples : List Float) :
    (ofSamples samples).values.IsChain fun x y => (x == y) = false := by
  refine isChain_runs fun x hx => ?_
  obtain ⟨y, hy, rfl⟩ := List.mem_map.mp ((List.mergeSort_perm _ _).mem_iff.mp hx)
  cases hnan : isNaN y with
  | true => exact isNaN_missing
  | false => exact hnan

/-- Numbers that are in order stay where they are. -/
theorem ofSamples_of_pairwise {samples : List Float} (hnumbers : ∀ x ∈ samples, isNaN x = false)
    (hsorted : samples.Pairwise fun x y => decide (rank x ≤ rank y) = true) :
    ofSamples samples = ⟨(runs 0 samples).map (·.1), (runs 0 samples).map (·.2)⟩ := by
  have hclean : samples.map (fun x => if isNaN x then missing else x) = samples := by
    refine (List.map_congr_left fun x hx => ?_).trans (List.map_id _)
    rw [hnumbers x hx]
    rfl
  unfold ofSamples
  dsimp only
  rw [hclean, List.mergeSort_of_pairwise hsorted]

/-- There is a bound between neighbouring values, in both orders. -/
structure Separated (d : Distribution) : Prop where
  upwards : ∀ i, (readableMean? (d.valueAt i) (d.valueAt (i + 1))).isSome = true
  downwards : ∀ i, (readableMean? (d.valueAt (i + 1)) (d.valueAt i)).isSome = true

theorem Separated.exists_bounds {d : Distribution} (h : d.Separated) (q : Quantile) :
    ∃ b, q.bounds? d = some b := by
  obtain ⟨lower, hlower⟩ : ∃ lower, q.lower? d = some lower := by
    unfold Quantile.lower?
    cases hfirst : q.first with
    | zero => exact ⟨missing, rfl⟩
    | succ i => exact Option.isSome_iff_exists.mp (h.downwards i)
  obtain ⟨upper, hupper⟩ : ∃ upper, q.upper? d = some upper := by
    unfold Quantile.upper?
    split
    · exact ⟨maxValue, rfl⟩
    · exact Option.isSome_iff_exists.mp (h.upwards q.last)
  refine ⟨(lower, upper), ?_⟩
  rw [Quantile.bounds?, hlower, hupper]
  rfl

theorem Separated.exists_added {d : Distribution} (h : d.Separated) (seen : List Seen)
    (quantiles : List Quantile) : ∃ added, addedIntervals? d seen quantiles = some added := by
  obtain ⟨found, hfound⟩ : ∃ found, withBounds? d quantiles = some found := by
    induction quantiles with
    | nil => exact ⟨[], rfl⟩
    | cons q rest ih =>
      obtain ⟨b, hb⟩ := h.exists_bounds q
      obtain ⟨found, hfound⟩ := ih
      refine ⟨⟨b.1, b.2, q.quantile⟩ :: found, ?_⟩
      rw [withBounds?] at hfound ⊢
      rw [List.mapM_cons, hb, hfound]
      rfl
  unfold addedIntervals?
  split
  · exact ⟨_, congrArg (Option.map (newIntervals seen)) hfound⟩
  · exact ⟨_, rfl⟩

theorem Separated.exists_levels {d : Distribution} (h : d.Separated) (tried : List ℕ) :
    ∀ seen : List Seen, ∃ levels, intervalLevels? d seen tried = some levels := by
  induction tried with
  | nil => exact fun _ => ⟨[], rfl⟩
  | cons granularity finer ih =>
    intro seen
    obtain ⟨⟨partiles, seen'⟩, hadded⟩ :=
      h.exists_added seen (Quantile.ofDistribution d granularity)
    obtain ⟨rest, hrest⟩ : ∃ rest, (if (Quantile.ofDistribution d granularity).length = d.valueCount
        then some [] else intervalLevels? d seen' finer) = some rest := by
      split
      · exact ⟨[], rfl⟩
      · exact ih seen'
    refine ⟨if partiles = [] then rest else ⟨granularity, partiles⟩ :: rest, ?_⟩
    rw [intervalLevels?, hadded]
    exact congrArg (Option.bind · _) hrest

/-- The values of a sample are separated if different ones are far apart. -/
theorem separated_of_farApart {samples : List Float}
    (h : ∀ x ∈ samples, ∀ y ∈ samples, (x == y) = false → FarApart x y) :
    (ofSamples samples).Separated := by
  have hmean {x y : Float} (hx : x ∈ (ofSamples samples).values) (hy : y ∈ (ofSamples samples).values)
      (hxy : (x == y) = false) : (readableMean? x y).isSome = true ∧ (readableMean? y x).isSome = true := by
    obtain ⟨hxnan, hx⟩ := mem_values hx
    obtain ⟨hynan, hy⟩ := mem_values hy
    have hmissing : isFinite missing = false := by decide +kernel
    have hfar : FarApart x y := by
      obtain hx | rfl := hx
      · obtain hy | rfl := hy
        · exact h x hx y hy hxy
        · intro _ hfinite
          rw [hmissing] at hfinite
          cases hfinite
      · intro hfinite
        rw [hmissing] at hfinite
        cases hfinite
    exact ⟨Option.isSome_iff_exists.mpr (exists_readableMean hxnan hynan hfar),
      Option.isSome_iff_exists.mpr (exists_readableMean hynan hxnan hfar.symm)⟩
  have hneighbours (i : ℕ) :
      (readableMean? ((ofSamples samples).valueAt i) ((ofSamples samples).valueAt (i + 1))).isSome = true ∧
        (readableMean? ((ofSamples samples).valueAt (i + 1)) ((ofSamples samples).valueAt i)).isSome = true := by
    by_cases hi : i + 1 < (ofSamples samples).values.length
    · have hpair := List.isChain_iff_getElem.mp (isChain_values samples) i hi
      rw [valueAt, valueAt, List.getD_eq_getElem?_getD, List.getD_eq_getElem?_getD,
        List.getElem?_eq_getElem hi, List.getElem?_eq_getElem (by omega)]
      exact hmean (List.getElem_mem _) (List.getElem_mem _) hpair
    · -- beyond the last value there is none
      have hnone : (ofSamples samples).valueAt (i + 1) = missing := by
        rw [valueAt, List.getD_eq_getElem?_getD, List.getElem?_eq_none (not_lt.mp hi)]
        rfl
      have hbeq : (missing == missing) = true := by decide +kernel
      rw [hnone, readableMean?, readableMean?, hbeq, Bool.or_true, Bool.true_or]
      exact ⟨rfl, rfl⟩
  exact ⟨fun i => (hneighbours i).1, fun i => (hneighbours i).2⟩

end Distribution

end Partile

namespace Levels

/-- A sample whose different values are far apart can be cut. -/
theorem cuttable_of_farApart {samples : List Float} {maxPartiles : ℕ}
    (h : ∀ x ∈ samples, ∀ y ∈ samples, (x == y) = false → Partile.FarApart x y) :
    cuttable samples maxPartiles = true :=
  Option.isSome_iff_exists.mpr
    ((Partile.Distribution.separated_of_farApart h).exists_levels _ _)

/-- A sample that cannot be cut has two different values too close for a bound. -/
theorem exists_close {samples : List Float} {maxPartiles : ℕ}
    (h : ofContinuous? samples maxPartiles = none) :
    ∃ x ∈ samples, ∃ y ∈ samples, (x == y) = false ∧ ¬ Partile.FarApart x y := by
  by_contra hno
  push Not at hno
  have hcuttable : cuttable samples maxPartiles = true := cuttable_of_farApart hno
  rw [cuttable, h] at hcuttable
  cases hcuttable

end Levels

namespace Partile

/-! ## Bounds exist and separate -/

/-- Between two values far apart there is a bound.  Of two finite values it is not below the lower
one, and it is below the upper one.  A sample whose different values are far apart can be cut. -/
theorem bounds_of_farApart (a b : Float) (samples : List Float) (maxPartiles : ℕ) :
    (isNaN a = false → isNaN b = false → FarApart a b → ∃ v, readableMean? a b = some v) ∧
    (isFinite a = true → isFinite b = true → a < b →
      ∀ v, readableMean? a b = some v → a ≤ v ∧ v < b) ∧
    ((∀ x ∈ samples, ∀ y ∈ samples, (x == y) = false → FarApart x y) →
      Levels.cuttable samples maxPartiles = true) :=
  ⟨exists_readableMean, fun ha hb hab _ => readableMean_between ha hb hab,
    Levels.cuttable_of_farApart⟩

theorem farApart_one_two : FarApart 1 2 := by
  intro _ _
  rw [reads_one.number, reads_two.number]
  norm_num

theorem farApart_of_one_or_two {x y : Float} (hx : x = 1 ∨ x = 2) (hy : y = 1 ∨ y = 2)
    (hxy : (x == y) = false) : FarApart x y := by
  obtain rfl | rfl := hx
  all_goals obtain rfl | rfl := hy
  · exact absurd hxy (by decide +kernel)
  · exact farApart_one_two
  · exact farApart_one_two.symm
  · exact absurd hxy (by decide +kernel)

theorem bounds_of_one_two : FarApart 1 2 ∧ (∃ v, readableMean? 1 2 = some v ∧ 1 ≤ v ∧ v < 2) ∧
    Levels.cuttable [2, 1] 2 = true := by
  obtain ⟨hmean, hbetween, hcuttable⟩ := bounds_of_farApart 1 2 [2, 1] 2
  obtain ⟨v, hv⟩ := hmean (by decide +kernel) (by decide +kernel) farApart_one_two
  have hcase {z : Float} (hz : z ∈ ([2, 1] : List Float)) : z = 1 ∨ z = 2 :=
    (List.mem_cons.mp hz).symm.imp_left List.mem_singleton.mp
  exact ⟨farApart_one_two,
    ⟨v, hv, hbetween (by decide +kernel) (by decide +kernel) (by decide +kernel) v hv⟩,
    hcuttable fun x hx y hy => farApart_of_one_or_two (hcase hx) (hcase hy)⟩

/-- Two adjacent doubles. -/
def closeLower : Float := .ofBits 0x3ffe5cf3e262b4d4

def closeUpper : Float := .ofBits 0x3ffe5cf3e262b4d5

theorem limits_cross : ¬ lowMean closeLower closeUpper ≤ highMean closeLower closeUpper := by
  decide +kernel

theorem middleAt_close {magnitude : ℤ} (hleast : -100 ≤ magnitude) (hmost : magnitude < 100) :
    middleAt? (lowMean closeLower closeUpper) (highMean closeLower closeUpper) magnitude = none := by
  rw [middleAt?, if_neg (by omega), if_neg (by omega), clamp?, if_neg limits_cross]

theorem readableMean_close {magnitude : ℤ} (hleast : -100 ≤ magnitude) (hmost : magnitude < 100)
    (hmagnitude : magnitude = floorInt32 (Float.log10
      ((lowMean closeLower closeUpper + highMean closeLower closeUpper) / 2).abs) + 1) :
    readableMean? closeLower closeUpper = none := by
  have hle : closeLower ≤ closeUpper := by decide +kernel
  have hpresent : (closeLower == missing || closeUpper == missing) = false := by decide +kernel
  have hfinite : isInfinite ((lowMean closeLower closeUpper + highMean closeLower closeUpper) / 2) =
    false := by decide +kernel
  have hnonzero : ((lowMean closeLower closeUpper + highMean closeLower closeUpper) / 2 == 0) =
    false := by decide +kernel
  have hmiddle : readableMiddle? (lowMean closeLower closeUpper) (highMean closeLower closeUpper) =
      none := by
    unfold readableMiddle?
    dsimp only
    rw [hfinite, if_neg Bool.false_ne_true, hnonzero, if_neg Bool.false_ne_true, ← hmagnitude,
      middleAt_close hleast hmost]
  unfold readableMean?
  rw [hpresent, if_neg Bool.false_ne_true, if_pos hle, if_pos hle]
  dsimp only
  rw [hmiddle]
  rfl

/-- The limits between two adjacent doubles are in the wrong order, so there is no bound between them,
whatever number of digits below a hundred their middle is found to have. -/
theorem close_values_cross : isFinite closeLower = true ∧ isFinite closeUpper = true ∧
    closeLower < closeUpper ∧ ¬ lowMean closeLower closeUpper ≤ highMean closeLower closeUpper ∧
    ∀ magnitude : ℤ, -100 ≤ magnitude → magnitude < 100 →
      middleAt? (lowMean closeLower closeUpper) (highMean closeLower closeUpper) magnitude = none ∧
      (magnitude = floorInt32 (Float.log10
          ((lowMean closeLower closeUpper + highMean closeLower closeUpper) / 2).abs) + 1 →
        readableMean? closeLower closeUpper = none) :=
  ⟨by decide +kernel, by decide +kernel, by decide +kernel, limits_cross,
    fun _ hleast hmost => ⟨middleAt_close hleast hmost, readableMean_close hleast hmost⟩⟩

/-- Four samples of each of two adjacent doubles. -/
def closeSamples : List Float :=
  [closeLower, closeLower, closeLower, closeLower, closeUpper, closeUpper, closeUpper, closeUpper]

/-- A level of two needs the bound between the two doubles. -/
theorem ofContinuous_closeSamples (h : readableMean? closeLower closeUpper = none) :
    Levels.ofContinuous? closeSamples 2 = none := by
  have hd : Distribution.ofSamples closeSamples = ⟨[closeLower, closeUpper], [4, 8]⟩ := by
    have hruns : Distribution.runs 0 closeSamples = [(closeLower, 4), (closeUpper, 8)] := by
      decide +kernel
    rw [Distribution.ofSamples_of_pairwise (by decide +kernel) (by decide +kernel), hruns]
    rfl
  have hquantiles : Quantile.ofDistribution ⟨[closeLower, closeUpper], [4, 8]⟩ 2 =
      [⟨0, 0, 0⟩, ⟨1, 1, 1⟩] := by decide +kernel
  have hgranularities : Levels.candidates 8 2 = [2] := by decide +kernel
  have hupper : Quantile.upper? ⟨[closeLower, closeUpper], [4, 8]⟩ ⟨0, 0, 0⟩ = none := by
    rw [Quantile.upper?, if_neg (by decide)]
    exact h
  have hbounds : Quantile.bounds? ⟨[closeLower, closeUpper], [4, 8]⟩ ⟨0, 0, 0⟩ = none := by
    rw [Quantile.bounds?, hupper]
    rfl
  have hfound : withBounds? ⟨[closeLower, closeUpper], [4, 8]⟩ [⟨0, 0, 0⟩, ⟨1, 1, 1⟩] = none := by
    rw [withBounds?, List.mapM_cons, hbounds]
    rfl
  unfold Levels.ofContinuous?
  rw [hd]
  show intervalLevels? _ [] (Levels.candidates 8 2) = none
  rw [hgranularities, intervalLevels?, hquantiles, addedIntervals?, hfound]
  rfl

end Partile

end FeatureSynth
