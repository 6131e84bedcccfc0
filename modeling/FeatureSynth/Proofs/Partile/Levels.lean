/-
# Levels that can be searched

A partile is looked up by two searches, for its granularity among the levels and for its
index in the level.  Both rely on order.  The granularities tried double, and the levels are
some of them; a level is kept only if it adds partiles, and their indexes increase below its
granularity.  For intervals this is so because the index is the number of a quantile, and
the quantiles are gone through in order; for groups because there are no more of them than
quantiles, so that the last one, which takes the index of the last quantile, is above the
ranks of the others.
-/
import FeatureSynth.Proofs.Bisect
import FeatureSynth.Proofs.Partile.Cuttable
import FeatureSynth.Proofs.Space.Groups

namespace FeatureSynth

/-- A level adds partiles, under increasing indexes below its granularity. -/
structure Level.Ordered (l : Level) : Prop where
  inhabited : l.partiles ≠ []
  increasing : (l.partiles.map (·.index)).Pairwise (· < ·)
  below : ∀ p ∈ l.partiles, p.index < l.granularity

namespace Levels

/-- Ordered levels for some of the granularities tried, in the order in which they are tried. -/
inductive Among : (tried : List Nat) → Levels → Prop
  | nil {tried : List Nat} : Among tried []
  | skip {tried : List Nat} {levels : Levels} (g : Nat) : Among tried levels → Among (g :: tried) levels
  | keep {tried : List Nat} {levels : Levels} {l : Level} : l.Ordered → Among tried levels →
      Among (l.granularity :: tried) (l :: levels)

variable {tried : List Nat} {levels : Levels} {l : Level} {p : Partile} {g i limit count maxPartiles : Nat}

theorem Among.sublist (h : Among tried levels) : levels.granularities.Sublist tried := by
  induction h with
  | nil => exact List.nil_sublist _
  | skip g _ ih => exact ih.cons g
  | keep _ _ ih => exact ih.cons_cons _

theorem Among.ordered (h : Among tried levels) : ∀ l ∈ levels, l.Ordered := by
  induction h with
  | nil => exact fun l hl => nomatch hl
  | skip g _ ih => exact ih
  | keep hl _ ih => exact List.forall_mem_cons.mpr ⟨hl, ih⟩

/-! ## Granularities -/

theorem mem_doublesWithin {start : Nat} {h : 0 < start} :
    g ∈ doublesWithin limit start h ↔ ∃ k, g = start * 2 ^ k ∧ g ≤ limit := by
  fun_induction doublesWithin limit start h with
  | case1 start h hle ih =>
    rw [List.mem_cons, ih]
    constructor
    · rintro (rfl | ⟨k, rfl, hk⟩)
      · exact ⟨0, (Nat.mul_one _).symm, hle⟩
      · exact ⟨k + 1, by rw [Nat.pow_succ', Nat.mul_assoc], hk⟩
    · rintro ⟨k, rfl, hk⟩
      cases k with
      | zero => exact .inl (Nat.mul_one start)
      | succ k => exact .inr ⟨k, by rw [Nat.pow_succ', Nat.mul_assoc], hk⟩
  | case2 start h hgt =>
    refine ⟨fun hmem => absurd hmem List.not_mem_nil, ?_⟩
    rintro ⟨k, rfl, hk⟩
    exact absurd ((Nat.le_mul_of_pos_right start (Nat.two_pow_pos k)).trans hk) hgt

theorem pairwise_doublesWithin (limit start : Nat) (h : 0 < start) :
    (doublesWithin limit start h).Pairwise (· < ·) := by
  fun_induction doublesWithin limit start h with
  | case1 start h hle ih =>
    refine List.pairwise_cons.mpr ⟨fun g hg => ?_, ih⟩
    obtain ⟨k, rfl, -⟩ := mem_doublesWithin.mp hg
    have hdouble := Nat.le_mul_of_pos_right (start * 2) (Nat.two_pow_pos k)
    omega
  | case2 start h hgt => exact .nil

/-- Levels of increasing granularities, which are powers of two and leave enough of a sample of
`count` values for each partile. -/
structure Graded (count maxPartiles : Nat) (levels : Levels) : Prop where
  increasing : levels.granularities.Pairwise (· < ·)
  powers : ∀ g ∈ levels.granularities, 2 ≤ g ∧ ∃ k, g = 2 ^ k
  capped : ∀ g ∈ levels.granularities, g ≤ maxPartiles ∧ g ≤ count / 4
  ordered : ∀ l ∈ levels, l.Ordered

theorem Among.graded (h : Among (candidates count maxPartiles) levels) :
    Graded count maxPartiles levels where
  increasing := (pairwise_doublesWithin _ _ _).sublist h.sublist
  powers := by
    intro g hg
    obtain ⟨k, rfl, -⟩ := mem_doublesWithin.mp (h.sublist.subset hg)
    exact ⟨Nat.le_mul_of_pos_right 2 (Nat.two_pow_pos k), k + 1, (Nat.pow_succ' ..).symm⟩
  capped := by
    intro g hg
    obtain ⟨k, -, hle⟩ := mem_doublesWithin.mp (h.sublist.subset hg)
    exact ⟨hle.trans (Nat.min_le_right ..), hle.trans (Nat.min_le_left ..)⟩
  ordered := h.ordered

/-! ## Searches -/

theorem search?_eq_some (h : l.Ordered) : search? l.partiles i = some p ↔
    p ∈ l.partiles ∧ p.index = i :=
  bisectList_bind_eq_some (List.pairwise_map.mp h.increasing)

/-- A partile is found under a granularity and an index exactly if it has the index in the level of
the granularity. -/
theorem Graded.partile?_eq_some (h : Graded count maxPartiles levels) :
    levels.partile? g i = some p ↔
      ∃ l ∈ levels, l.granularity = g ∧ p ∈ l.partiles ∧ p.index = i := by
  have hposition : ∀ k, levels.position? g = some k ↔ ∃ l, levels[k]? = some l ∧ l.granularity = g :=
    fun k => bisectList_found?_iff (List.pairwise_map.mp h.increasing)
  simp only [partile?, Option.bind_eq_some_iff, hposition]
  constructor
  · rintro ⟨k, ⟨l, hl, hg⟩, hp⟩
    have hmem := List.mem_of_getElem? hl
    rw [partilesAt, hl] at hp
    exact ⟨l, hmem, hg, (search?_eq_some (h.ordered l hmem)).mp hp⟩
  · rintro ⟨l, hmem, hg, hp⟩
    obtain ⟨k, hl⟩ := List.mem_iff_getElem?.mp hmem
    refine ⟨k, ⟨l, hl, hg⟩, ?_⟩
    rw [partilesAt, hl]
    exact (search?_eq_some (h.ordered l hmem)).mpr hp

end Levels

namespace Partile

/-! ## Intervals -/

open Levels (Among)

theorem Distribution.getLastD_runs : ∀ (seen : Nat) (l : List Float),
    ((runs seen l).map (·.2)).getLastD seen = seen + l.length := by
  intro seen l
  induction l generalizing seen with
  | nil => rfl
  | cons x xs ih =>
    have htail := ih (seen + 1)
    rw [runs]
    split
    · rename_i y count rest hruns
      rw [hruns, List.map_cons, List.getLastD_cons] at htail
      split
      · rw [List.map_cons, List.getLastD_cons, htail, List.length_cons]
        omega
      · rw [List.map_cons, List.map_cons, List.getLastD_cons, List.getLastD_cons, htail,
          List.length_cons]
        omega
    · rename_i hruns
      rw [hruns] at htail
      have hlength : seen + 1 = seen + 1 + xs.length := htail
      show seen + 1 = _
      rw [List.length_cons]
      omega

theorem Distribution.sampleCount_ofSamples (samples : List Float) :
    (ofSamples samples).sampleCount = samples.length := by
  rw [sampleCount, ofSamples, getLastD_runs, Nat.zero_add, List.length_mergeSort, List.length_map]

theorem Quantile.merge_sublist (l : List (Nat × Nat)) : ∀ previous : Option Nat,
    ((merge previous l).map (·.quantile)).Sublist (l.map (·.1)) := by
  induction l with
  | nil =>
    intro previous
    cases previous <;> exact .slnil
  | cons x xs ih =>
    intro previous
    obtain ⟨q, upper⟩ := x
    cases previous with
    | none => exact (ih (some upper)).cons_cons q
    | some last =>
      rw [merge]
      split
      · exact (ih (some upper)).cons_cons q
      · exact (ih (some last)).cons q

/-- The intervals go by some of the numbers of quantiles, in order. -/
theorem Quantile.ofDistribution_sublist (d : Distribution) (quantiles : Nat) :
    ((ofDistribution d quantiles).map (·.quantile)).Sublist (List.range quantiles) := by
  unfold ofDistribution
  split
  · exact List.nil_sublist _
  · have hmerge := merge_sublist ((List.range quantiles).map fun q => (q, upperRank d quantiles q))
      none
    rwa [List.map_map, show (Prod.fst ∘ fun q => (q, upperRank d quantiles q)) = id from rfl,
      List.map_id] at hmerge

theorem newIntervals_sublist (found : List Seen) : ∀ seen : List Seen,
    ((newIntervals seen found).1.map (·.index)).Sublist (found.map (·.index)) := by
  induction found with
  | nil =>
    intro seen
    exact .slnil
  | cons s rest ih =>
    intro seen
    rw [newIntervals]
    split
    · exact (ih seen).cons s.index
    · exact (ih (seen ++ [s])).cons_cons s.index

/-- Partiles indexed by some of the quantiles of a granularity make a level. -/
theorem ordered_of_sublist {partiles : List Partile} {granularity : Nat} (hne : partiles ≠ [])
    (h : (partiles.map (·.index)).Sublist (List.range granularity)) :
    Level.Ordered ⟨granularity, partiles⟩ where
  inhabited := hne
  increasing := List.pairwise_lt_range.sublist h
  below := fun _ hp => List.mem_range.mp (h.subset (List.mem_map_of_mem hp))

theorem withBounds?_index {d : Distribution} {quantiles : List Quantile} : ∀ {found : List Seen},
    withBounds? d quantiles = some found → found.map (·.index) = quantiles.map (·.quantile) := by
  induction quantiles with
  | nil =>
    intro found h
    cases h
    rfl
  | cons q rest ih =>
    intro found h
    rw [withBounds?, List.mapM_cons] at h
    obtain ⟨s, hs, htail⟩ := Option.bind_eq_some_iff.mp h
    obtain ⟨others, hothers, hfound⟩ := Option.bind_eq_some_iff.mp htail
    obtain ⟨b, -, rfl⟩ := Option.map_eq_some_iff.mp hs
    obtain rfl := Option.some.inj hfound
    rw [List.map_cons, List.map_cons, ih hothers]

/-- The intervals that a granularity adds go by some of the numbers of quantiles. -/
theorem addedIntervals?_sublist {d : Distribution} {seen seen' : List Seen} {granularity : Nat}
    {partiles : List Partile} (h : addedIntervals? d seen (Quantile.ofDistribution d granularity) =
      some (partiles, seen')) : (partiles.map (·.index)).Sublist (List.range granularity) := by
  unfold addedIntervals? at h
  split at h
  · obtain ⟨found, hfound, hnew⟩ := Option.map_eq_some_iff.mp h
    have hsublist := newIntervals_sublist found seen
    rw [hnew, withBounds?_index hfound] at hsublist
    exact hsublist.trans (Quantile.ofDistribution_sublist d granularity)
  · cases h
    exact List.nil_sublist _

theorem among_intervalLevels? (d : Distribution) (tried : List Nat) :
    ∀ (seen : List Seen) (levels : Levels), intervalLevels? d seen tried = some levels →
      Among tried levels := by
  induction tried with
  | nil =>
    intro seen levels h
    cases h
    exact .nil
  | cons granularity finer ih =>
    intro seen levels h
    obtain ⟨⟨partiles, seen'⟩, hadded, hrest⟩ := Option.bind_eq_some_iff.mp h
    obtain ⟨rest, hfiner, hlevels⟩ := Option.bind_eq_some_iff.mp hrest
    have hothers : Among finer rest := by
      split at hfiner
      · cases hfiner
        exact .nil
      · exact ih seen' rest hfiner
    obtain rfl := Option.some.inj hlevels
    split
    · exact hothers.skip granularity
    · rename_i hne
      exact .keep (l := ⟨granularity, partiles⟩)
        (ordered_of_sublist hne (addedIntervals?_sublist hadded)) hothers

/-! ## Groups -/

namespace Frequencies

theorem sum_runs (l : List String) : ((runs l).map (·.2)).sum = l.length := by
  induction l with
  | nil => rfl
  | cons x xs ih =>
    rw [runs]
    split
    · rename_i y count rest hruns
      rw [hruns, List.map_cons, List.sum_cons] at ih
      split
      · rw [List.map_cons, List.sum_cons, List.length_cons, ← ih]
        omega
      · rw [List.map_cons, List.map_cons, List.sum_cons, List.sum_cons, List.length_cons, ← ih]
        omega
    · rename_i hruns
      rw [hruns] at ih
      rw [List.length_cons, ← ih]
      rfl

theorem sampleCount_ofSamples (samples : List String) :
    (ofSamples samples).sampleCount = samples.length := by
  have hperm := ((List.mergeSort_perm (runs (samples.mergeSort valueLE)) entryLE).map (·.2)).sum_nat
  have hlength := sum_runs (samples.mergeSort valueLE)
  rw [List.length_mergeSort] at hlength
  exact hperm.trans hlength

end Frequencies

theorem CutsOff.ordered {coarser apart : List String} {rest : String} {partiles : List Partile}
    {granularity : Nat} (hpos : 0 < granularity)
    (h : CutsOff coarser apart rest (granularity - 1) partiles) :
    Level.Ordered ⟨granularity, partiles⟩ := by
  have hindexes : partiles.map (·.index) =
      List.range' coarser.length apart.length ++ [granularity - 1] := by
    rw [h.partiles, List.map_append, singles_index, List.map_singleton]
    rfl
  have hranks : ∀ i ∈ List.range' coarser.length apart.length, i < granularity - 1 := by
    intro i hi
    exact (List.mem_range'_1.mp hi).2.trans_le h.last
  constructor
  · rintro rfl
    exact List.concat_ne_nil _ _ hindexes.symm
  · rw [hindexes]
    refine List.pairwise_append.mpr ⟨List.pairwise_lt_range', List.pairwise_singleton .., ?_⟩
    intro i hi j hj
    exact List.mem_singleton.mp hj ▸ hranks i hi
  · intro p hp
    have hmem : p.index ∈ partiles.map (·.index) := List.mem_map_of_mem hp
    rw [hindexes, List.mem_append, List.mem_singleton] at hmem
    rcases hmem with hmem | hmem
    · have := hranks _ hmem
      dsimp only
      omega
    · rw [hmem]
      exact Nat.sub_lt hpos Nat.one_pos

theorem among_groupLevels {f : Frequencies} (h : f.Lawful) (tried : List Nat) : ∀ kept : Nat,
    1 ≤ kept → Among tried (groupLevels f kept tried) := by
  induction tried with
  | nil =>
    intro kept _
    exact .nil
  | cons granularity finer ih =>
    intro kept hkept
    have hrest : ∀ kept, 1 ≤ kept → Among finer
        (if f.groupCount granularity = f.valueCount then [] else groupLevels f kept finer) := by
      intro kept hkept
      split
      · exact .nil
      · exact ih kept hkept
    rw [groupLevels]
    dsimp only
    split
    · rename_i hlt
      have hquantiles := h.groupCount_le granularity
      have hcuts := cutsOff_ofGroup h hkept hlt (h.groupCount_le_valueCount granularity) hquantiles
      exact .keep (l := ⟨granularity, _⟩) (hcuts.ordered (by omega)) (hrest _ (hkept.trans hlt.le))
    · exact (hrest kept hkept).skip granularity

end Partile

namespace Levels

/-- The words that a word of 64 bits goes through when it is doubled as long as it is within a
limit, provided that this ends within some number of steps.  A product that needs more than 64
bits would wrap round. -/
def doubles (limit : UInt64) : (steps : Nat) → UInt64 → Option (List UInt64)
  | 0, _ => none
  | steps + 1, g => if g ≤ limit then (doubles limit steps (g * 2)).map (g :: ·) else some []

/-- Doubling ends, and no double wraps round, where the limit leaves two binary digits of a word. -/
theorem doubles_eq {limit : UInt64} (hlimit : limit.toNat < 2 ^ 62) (steps : Nat) :
    ∀ (g : UInt64) (hpos : 0 < g.toNat), limit.toNat < g.toNat * 2 ^ steps →
      doubles limit (steps + 1) g =
        some ((doublesWithin limit.toNat g.toNat hpos).map UInt64.ofNat) := by
  induction steps with
  | zero =>
    intro g hpos hless
    have hgt : ¬ g.toNat ≤ limit.toNat := by omega
    rw [doubles, doublesWithin, if_neg hgt, if_neg fun hle => hgt (UInt64.le_iff_toNat_le.mp hle)]
    rfl
  | succ steps ih =>
    intro g hpos hless
    rw [doubles, doublesWithin]
    by_cases hle : g.toNat ≤ limit.toNat
    · have hnext : (g * 2).toNat = g.toNat * 2 := by
        rw [UInt64.toNat_mul]
        exact Nat.mod_eq_of_lt (by show g.toNat * 2 < 2 ^ 64; omega)
      have hrest := ih (g * 2) (by omega) (by rwa [hnext, Nat.mul_assoc, ← Nat.pow_succ'])
      simp only [hnext] at hrest
      rw [if_pos hle, if_pos (UInt64.le_iff_toNat_le.mpr hle), hrest, List.map_cons,
        UInt64.ofNat_toNat]
      rfl
    · rw [if_neg hle, if_neg fun h => hle (UInt64.le_iff_toNat_le.mp h)]
      rfl

/-- The granularities to try are those that doubling goes through in words of 64 bits: it ends, and
no word wraps round. -/
theorem doubles_eq_candidates (hcount : count < 2 ^ 64) (maxPartiles : Nat) :
    doubles (UInt64.ofNat (min (count / minFrequency) maxPartiles)) 64 2 =
      some ((candidates count maxPartiles).map UInt64.ofNat) := by
  obtain ⟨limit, hlimit⟩ : ∃ limit, limit = min (count / minFrequency) maxPartiles := ⟨_, rfl⟩
  have hquarter : limit < 2 ^ 62 := by
    have hle : limit ≤ count / 4 := hlimit ▸ Nat.min_le_left ..
    omega
  have hword : (UInt64.ofNat limit).toNat = limit := UInt64.toNat_ofNat_of_lt' (by
    show limit < 2 ^ 64
    omega)
  have hbounded : (UInt64.ofNat limit).toNat < 2 ^ 62 := by rwa [hword]
  have hdoubles := doubles_eq hbounded 63 2 (by decide)
    (by rw [hword]; exact hquarter.trans_le (by decide))
  rw [candidates, ← hlimit, hdoubles]
  simp only [hword]
  rfl

/-- Levels that can be searched: those of a granularity, with an index, are found where they are,
and nothing else is. -/
structure Searchable (count maxPartiles : Nat) (levels : Levels) : Prop where
  graded : Graded count maxPartiles levels
  found : ∀ g i p, levels.partile? g i = some p ↔
    ∃ l ∈ levels, l.granularity = g ∧ p ∈ l.partiles ∧ p.index = i

theorem Among.searchable (h : Among (candidates count maxPartiles) levels) :
    Searchable count maxPartiles levels :=
  ⟨h.graded, fun _ _ _ => h.graded.partile?_eq_some⟩

/-- The levels of an operand can be searched: their granularities increase, are powers of two and
leave four samples for each partile, and each has partiles under increasing indexes below it.  So a
lookup answers with the partile of the index in the level of the granularity exactly if there is
one.  There are such levels for every sample of symbols, and for every sample of numbers but those
with different values that are too close for a bound.  The granularities tried are found by
doubling, which ends without a word of 64 bits wrapping round. -/
theorem levels_searchable (maxPartiles : Nat) :
    (∀ samples : List Float,
      match ofContinuous? samples maxPartiles with
      | some levels => Searchable samples.length maxPartiles levels
      | none => ∃ x ∈ samples, ∃ y ∈ samples, (x == y) = false ∧ ¬ Partile.FarApart x y) ∧
    (∀ samples : List String,
      Searchable samples.length maxPartiles (ofSymbol samples maxPartiles)) ∧
    ∀ count < 2 ^ 64, doubles (UInt64.ofNat (min (count / minFrequency) maxPartiles)) 64 2 =
      some ((candidates count maxPartiles).map UInt64.ofNat) := by
  refine ⟨fun samples => ?_, fun samples => ?_, fun count hcount =>
    doubles_eq_candidates hcount maxPartiles⟩
  · cases hlevels : ofContinuous? samples maxPartiles with
    | none => exact exists_close hlevels
    | some levels =>
      have hamong := Partile.among_intervalLevels? _ _ _ _ hlevels
      rw [Partile.Distribution.sampleCount_ofSamples] at hamong
      exact hamong.searchable
  · have hamong := Partile.among_groupLevels (Partile.Frequencies.lawful_ofSamples samples)
      (candidates samples.length maxPartiles) 1 le_rfl
    rw [ofSymbol, Partile.Frequencies.sampleCount_ofSamples]
    exact hamong.searchable

/-- Four samples of each of two numbers with opposite signs. -/
def signs : List Float := [-1, -1, -1, -1, 1, 1, 1, 1]

theorem ofContinuous_signs : ofContinuous? signs 2 =
    some [⟨2, [.interval Scalar.missing 0 0, .interval 0 Scalar.maxValue 1]⟩] := by
  have hruns : Partile.Distribution.runs 0 signs = [(-1, 4), (1, 8)] := by decide +kernel
  have hd : Partile.Distribution.ofSamples signs = ⟨[-1, 1], [4, 8]⟩ := by
    rw [Partile.Distribution.ofSamples_of_pairwise (by decide +kernel) (by decide +kernel), hruns]
    rfl
  rw [ofContinuous?, hd]
  decide +kernel

/-- Eight numbers are cut in halves, sixteen orders by channel twice, and both levels can be
searched; of 64 samples and at most 16 partiles, doubling tries four granularities. -/
theorem levels_searchable_halves :
    (∃ levels, ofContinuous? signs 2 = some levels ∧ Searchable 8 2 levels ∧
      levels.partile? 2 1 = some (.interval 0 Scalar.maxValue 1)) ∧
    (Searchable 16 4 (ofSymbol Orders.channels 4) ∧
      (ofSymbol Orders.channels 4).partile? 4 1 = some (.value "desk" 1 [])) ∧
    64 < 2 ^ 64 ∧
      doubles (UInt64.ofNat (min (64 / minFrequency) 16)) 64 2 = some [2, 4, 8, 16] := by
  obtain ⟨hnumbers, -, -⟩ := levels_searchable 2
  obtain ⟨-, hsymbols, -⟩ := levels_searchable 4
  obtain ⟨-, -, hdoubles⟩ := levels_searchable 16
  have hsigns := hnumbers signs
  have hchannels := hsymbols Orders.channels
  rw [ofContinuous_signs] at hsigns
  refine ⟨⟨_, ofContinuous_signs, hsigns, ?_⟩, ⟨hchannels, ?_⟩, by decide, ?_⟩
  · rw [hsigns.found]
    exact ⟨_, List.mem_cons_self, rfl, List.mem_cons_of_mem _ List.mem_cons_self, rfl⟩
  · rw [hchannels.found, Orders.channels_levels]
    exact ⟨_, List.mem_cons_of_mem _ List.mem_cons_self, rfl, List.mem_cons_self, rfl⟩
  · rw [hdoubles 64 (by decide)]
    decide +kernel

/-- Four samples of each of two adjacent doubles have no levels, if the logarithm of their middle is
not far off: two is tried as a granularity, and the program ends where it looks for the bound. -/
theorem closeSamples_unsearchable : candidates Partile.closeSamples.length 2 = [2] ∧
    ∀ magnitude : ℤ, -100 ≤ magnitude → magnitude < 100 →
      magnitude = Scalar.floorInt32 (Float.log10 ((Partile.lowMean Partile.closeLower
        Partile.closeUpper + Partile.highMean Partile.closeLower Partile.closeUpper) / 2).abs) + 1 →
      ofContinuous? Partile.closeSamples 2 = none :=
  ⟨by decide +kernel, fun _ hleast hmost hmagnitude =>
    Partile.ofContinuous_closeSamples (Partile.readableMean_close hleast hmost hmagnitude)⟩

end Levels

end FeatureSynth
