/-
# Cells of groups

Each level of a symbol operand cuts off the next values by rank: the values that
coarser levels keep apart are the first ones, the level keeps some more apart, and
one partile gathers all values but these.  So a level is known by two lists of
values, and the criteria of its partiles and the groups of its descriptor are read
off the same lists.  The criterion of the last partile leaves out both; its group
lists one value only, and takes every value no group lists, while the values of
coarser levels have a group that belongs to no partile.
-/
import Mathlib.Data.List.Nodup
import Mathlib.Data.List.Range
import FeatureSynth.Proofs.Partile.Criterion
import FeatureSynth.Proofs.Partile.Frequencies

namespace FeatureSynth

namespace Partile

/-! ## Levels -/

/-- Partiles of single values, indexed by rank. -/
def singles : (rank : Nat) → List String → List Partile
  | _, [] => []
  | rank, v :: vs => .value v rank [] :: singles (rank + 1) vs

/-- A level that keeps some values apart beside those that coarser levels do; the last partile
gathers all others, of which `rest` is the most frequent. -/
structure CutsOff (coarser apart : List String) (rest : String) (last : Nat)
    (partiles : List Partile) : Prop where
  partiles : partiles = singles coarser.length apart ++ [.value rest last (coarser ++ apart)]
  nodup : (coarser ++ apart ++ [rest]).Nodup
  leavesOut : coarser ++ apart ≠ []
  last : coarser.length + apart.length ≤ last

theorem map_range'_single (f : Frequencies) : ∀ n rank : Nat,
    (List.range' rank n).map (fun i => Partile.value (f.valueAt i) i []) =
      singles rank ((List.range' rank n).map f.valueAt)
  | 0, _ => rfl
  | n + 1, rank => by
      rw [List.range'_succ, List.map_cons, List.map_cons, singles, map_range'_single f n]

/-- The value of a partile that holds no other. -/
def ownValue : Partile → Option String
  | .value v _ [] => some v
  | _ => none

theorem coarserValues_eq (levels : List (List Partile)) :
    coarserValues levels = levels.flatten.filterMap ownValue := by
  rfl

theorem filterMap_singles : ∀ (vs : List String) (rank : Nat),
    (singles rank vs).filterMap ownValue = vs
  | [], _ => rfl
  | v :: vs, rank => by
      rw [singles, List.filterMap_cons_some (by rfl), filterMap_singles vs]

/-- The values of a level that are kept apart from then on. -/
theorem CutsOff.coarserValues_cons {coarser apart : List String} {rest : String} {last : Nat}
    {partiles : List Partile} (h : CutsOff coarser apart rest last partiles)
    (levels : List (List Partile)) :
    coarserValues (partiles :: levels) = apart ++ coarserValues levels := by
  have hrest : ownValue (.value rest last (coarser ++ apart)) = none := by
    obtain ⟨v, vs, hvs⟩ := List.exists_cons_of_ne_nil h.leavesOut
    rw [hvs]
    rfl
  rw [coarserValues_eq, List.flatten_cons, List.filterMap_append, h.partiles, List.filterMap_append,
    filterMap_singles, List.filterMap_cons_none hrest, List.filterMap_nil, List.append_nil,
    ← coarserValues_eq]

/-- A level kept with some groups, after one with fewer. -/
theorem cutsOff_ofGroup {f : Frequencies} (h : f.Lawful) {kept groups quantiles : Nat}
    (hpos : 1 ≤ kept) (hkept : kept < groups) (hcount : groups ≤ f.valueCount)
    (hquantiles : groups ≤ quantiles) :
    CutsOff ((List.range (kept - 1)).map f.valueAt)
      ((List.range' (kept - 1) (groups - kept)).map f.valueAt) (f.valueAt (groups - 1))
      (quantiles - 1)
      (((List.range (groups - (kept - 1))).map (kept - 1 + ·)).map (ofGroup f groups quantiles)) := by
  have hranks : (List.range (groups - (kept - 1))).map (kept - 1 + ·) =
      List.range' (kept - 1) (groups - kept) ++ [groups - 1] := by
    rw [← List.range'_eq_map_range, show groups - (kept - 1) = groups - kept + 1 by omega,
      List.range'_concat, show kept - 1 + 1 * (groups - kept) = groups - 1 by omega]
  have hvalues : (List.range (kept - 1)).map f.valueAt ++
      (List.range' (kept - 1) (groups - kept)).map f.valueAt =
        (List.range (groups - 1)).map f.valueAt := by
    rw [← List.map_append, List.range_eq_range', List.range_eq_range',
      show groups - 1 = kept - 1 + (groups - kept) by omega]
    have happend := @List.range'_append_1 0 (kept - 1) (groups - kept)
    rw [Nat.zero_add] at happend
    rw [happend]
  have hsingle : ∀ i ∈ List.range' (kept - 1) (groups - kept),
      ofGroup f groups quantiles i = .value (f.valueAt i) i [] := by
    intro i hi
    have hlt : i + 1 < groups := by
      have := List.mem_range'_1.mp hi
      omega
    rw [ofGroup, groupIndex, if_pos hlt, if_neg hlt.ne]
  exact {
    partiles := by
      rw [hranks, List.map_append, List.map_congr_left hsingle, map_range'_single, hvalues,
        List.length_map, List.length_range, List.map_singleton, ofGroup, groupIndex,
        if_neg (by omega), if_pos (by omega)]
    nodup := by
      rw [hvalues, ← List.map_singleton, ← List.map_append, ← List.range_succ]
      exact h.nodup_valueAt (by omega)
    leavesOut := by
      rw [hvalues, ne_eq, List.map_eq_nil_iff, List.range_eq_nil]
      omega
    last := by
      rw [List.length_map, List.length_map, List.length_range, List.length_range']
      omega }

/-- A level at a position among levels that go on where some groups were kept: it leaves out what
those and the levels before keep apart. -/
def CutsOffAt (f : Frequencies) (kept : Nat) (levels : Levels) (k : Nat) (level : Level) : Prop :=
  ∃ n apart rest last,
    coarserValues ((levels.take k).map (·.partiles)) = (List.range' (kept - 1) n).map f.valueAt ∧
    CutsOff ((List.range (kept - 1 + n)).map f.valueAt) apart rest last level.partiles

theorem groupLevels_cutsOff {f : Frequencies} (h : f.Lawful) :
    ∀ {granularities : List Nat} {kept k : Nat} {level : Level}, 1 ≤ kept →
      (groupLevels f kept granularities)[k]? = some level →
      CutsOffAt f kept (groupLevels f kept granularities) k level
  | [], _, _, _, _, hk => by cases hk
  | granularity :: finer, kept, k, level, hpos, hk => by
      -- no level follows one where every value is a group
      have hfiner : ∀ {kept k : Nat} {finer' : Levels},
          finer' = (if f.groupCount granularity = f.valueCount then []
            else groupLevels f kept finer) →
          1 ≤ kept → finer'[k]? = some level → CutsOffAt f kept finer' k level := by
        rintro kept k finer' rfl hpos hk
        by_cases hall : f.groupCount granularity = f.valueCount
        · rw [if_pos hall] at hk
          cases hk
        · rw [if_neg hall] at hk ⊢
          exact groupLevels_cutsOff h hpos hk
      rw [groupLevels] at hk ⊢
      dsimp only at hk ⊢
      by_cases hlt : kept < f.groupCount granularity
      · rw [if_pos hlt] at hk ⊢
        have hcuts := cutsOff_ofGroup h hpos hlt (h.groupCount_le_valueCount granularity)
          (h.groupCount_le granularity)
        cases k with
        | zero =>
          cases hk
          exact ⟨0, _, _, _, rfl, hcuts⟩
        | succ k =>
          rw [List.getElem?_cons_succ] at hk
          obtain ⟨n, apart, rest, last, hvalues, hnext⟩ := hfiner rfl (hpos.trans hlt.le) hk
          have hstart : kept - 1 + (f.groupCount granularity - kept) = f.groupCount granularity - 1 := by
            omega
          refine ⟨f.groupCount granularity - kept + n, apart, rest, last, ?_, ?_⟩
          · rw [List.take_succ_cons, List.map_cons, hcuts.coarserValues_cons, hvalues,
              ← List.map_append, ← List.range'_append_1, hstart]
          · rwa [← Nat.add_assoc, hstart]
      · rw [if_neg hlt] at hk ⊢
        exact hfiner rfl hpos hk

/-- Every level of a symbol operand keeps some values apart beside those of the coarser levels. -/
theorem cutsOff_ofSymbol {samples : List String} {maxPartiles k : Nat} {level : Level}
    (hk : (Levels.ofSymbol samples maxPartiles)[k]? = some level) :
    ∃ apart rest last, CutsOff
      (coarserValues (((Levels.ofSymbol samples maxPartiles).take k).map (·.partiles)))
      apart rest last level.partiles := by
  obtain ⟨n, apart, rest, last, hvalues, hcuts⟩ :=
    groupLevels_cutsOff (Frequencies.lawful_ofSamples samples) le_rfl hk
  refine ⟨apart, rest, last, ?_⟩
  rw [Levels.ofSymbol, hvalues, ← List.range_eq_range']
  rwa [Nat.sub_self, Nat.zero_add] at hcuts

end Partile

/-! ## Groups -/

/-- The values that the group of a cell lists.  The group of the last partile has a catch-all
appended, which is not one of them. -/
def listed (partiles : List Partile) (φ : Formula) (cell : Nat) : List Operand :=
  match φ.operands[cell]? with
  | some (.nested _ operands) => if cell + 1 = partiles.length then operands.dropLast else operands
  | _ => []

/-- Whether a value falls in the group of a cell: the group lists it, or no group does and this is
the group of the last partile. -/
def FallsIn (partiles : List Partile) (φ : Formula) (v : String) (cell : Nat) : Prop :=
  .symbol v ∈ listed partiles φ cell ∨
    cell + 1 = partiles.length ∧ ∀ c, .symbol v ∉ listed partiles φ c

namespace Partile

theorem length_singles : ∀ (rank : Nat) (vs : List String), (singles rank vs).length = vs.length
  | _, [] => rfl
  | rank, _ :: vs => congrArg (· + 1) (length_singles (rank + 1) vs)

theorem singles_index : ∀ (rank : Nat) (vs : List String),
    (singles rank vs).map (·.index) = List.range' rank vs.length
  | _, [] => rfl
  | rank, v :: vs => by
      rw [singles, List.map_cons, singles_index (rank + 1) vs, List.length_cons, List.range'_succ]
      rfl

theorem mem_singles : ∀ {vs : List String} {rank : Nat} {p : Partile}, p ∈ singles rank vs ↔
    ∃ i v, vs[i]? = some v ∧ p = .value v (rank + i) []
  | [], _, _ => by simp [singles]
  | v :: vs, rank, p => by
      rw [singles, List.mem_cons, mem_singles]
      constructor
      · rintro (rfl | ⟨i, w, hw, rfl⟩)
        · exact ⟨0, v, rfl, rfl⟩
        · exact ⟨i + 1, w, hw, by rw [Nat.add_assoc, Nat.add_comm 1 i]⟩
      · rintro ⟨_ | i, w, hw, rfl⟩
        · cases hw
          exact .inl rfl
        · exact .inr ⟨i, w, hw, by rw [Nat.add_assoc, Nat.add_comm 1 i]⟩

/-- The groups of the values kept apart, and the one of the last partile. -/
theorem groupsFrom_singles (rest : String) (last : Nat) (outside : List String) :
    ∀ (cell rank : Nat) (vs : List String),
      groupsFrom cell (singles rank vs ++ [.value rest last outside]) =
        (vs.map (fun v => .nested "ValueGroup" [.symbol v]) ++
            [.nested "ValueGroup" [.symbol rest, .symbol "*"]],
          (List.range' rank vs.length).zip (List.range' cell vs.length) ++ [(last, cell + vs.length)])
  | cell, rank, [] => rfl
  | cell, rank, v :: vs => by
      have ih := groupsFrom_singles rest last outside (cell + 1) (rank + 1) vs
      have hnext : (singles (rank + 1) vs ++ [value rest last outside]).isEmpty = false :=
        List.isEmpty_eq_false_iff.mpr (List.concat_ne_nil _ _)
      rw [singles, List.cons_append, groupsFrom, ih, hnext, List.length_cons, List.range'_succ,
        List.range'_succ, List.zip_cons_cons, Nat.add_assoc, Nat.add_comm 1]
      rfl

namespace CutsOff

variable {coarser apart : List String} {rest v : String} {last : Nat} {partiles : List Partile}

theorem mem_partiles (h : CutsOff coarser apart rest last partiles) {p : Partile} :
    p ∈ partiles ↔ (∃ i v, apart[i]? = some v ∧ p = .value v (coarser.length + i) []) ∨
      p = .value rest last (coarser ++ apart) := by
  rw [h.partiles, List.mem_append, mem_singles, List.mem_singleton]

theorem isOf (h : CutsOff coarser apart rest last partiles) :
    ∀ p ∈ partiles, p.isOf .symbol = true := by
  intro p hp
  rcases h.mem_partiles.mp hp with ⟨i, v, -, rfl⟩ | rfl <;> rfl

theorem length (h : CutsOff coarser apart rest last partiles) :
    partiles.length = apart.length + 1 := by
  rw [h.partiles, List.length_append, length_singles, List.length_singleton]

theorem nodup_indexes (h : CutsOff coarser apart rest last partiles) :
    (partiles.map (·.index)).Nodup := by
  rw [h.partiles, List.map_append, singles_index, List.map_singleton]
  refine List.nodup_append.mpr ⟨List.nodup_range', List.nodup_singleton _, fun i hi j hj => ?_⟩
  obtain rfl := List.mem_singleton.mp hj
  exact ((List.mem_range'_1.mp hi).2.trans_le h.last).ne

variable {levels : List (List Partile)}

/-- The groups of a level, with that of the values of the coarser ones if there are any. -/
theorem operands (h : CutsOff coarser apart rest last partiles) :
    (groupDescriptor partiles levels).1.operands =
      apart.map (fun v => .nested "ValueGroup" [.symbol v]) ++
        .nested "ValueGroup" [.symbol rest, .symbol "*"] ::
          if levels.isEmpty then []
          else [.nested "ValueGroup" ((coarserValues levels).map .symbol)] := by
  rw [groupDescriptor, h.partiles, groupsFrom_singles]
  dsimp only
  split <;> simp

/-- The cell of a partile is its rank in the level. -/
theorem cellOf (h : CutsOff coarser apart rest last partiles) :
    (∀ i < apart.length,
      (groupDescriptor partiles levels).2.cellOf.lookup (coarser.length + i) = some i) ∧
    (groupDescriptor partiles levels).2.cellOf.lookup last = some apart.length := by
  have hperm := groupDescriptor_cells levels h.isOf h.nodup_indexes
  have hnodup : ((groupDescriptor partiles levels).2.cellOf.map (·.1)).Nodup := by
    rw [(hperm.map _).nodup_iff, groupsFrom_indexes h.isOf]
    exact h.nodup_indexes
  have hentries : (groupsFrom 0 partiles).2 =
      (List.range' coarser.length apart.length).zip (List.range' 0 apart.length) ++
        [(last, apart.length)] := by
    rw [h.partiles, groupsFrom_singles, Nat.zero_add]
  rw [hentries] at hperm
  refine ⟨fun i hi => lookup_of_mem hnodup (hperm.mem_iff.mpr ?_),
    lookup_of_mem hnodup (hperm.mem_iff.mpr (List.mem_append_right _ List.mem_cons_self))⟩
  refine List.mem_append_left _ (List.mem_iff_getElem?.mpr ⟨i, ?_⟩)
  rw [List.getElem?_zip_eq_some]
  simp [hi]

/-- What the groups list: one value each, and the last one those of coarser levels. -/
theorem listed_iff (h : CutsOff (coarserValues levels) apart rest last partiles) (cell : Nat) :
    .symbol v ∈ listed partiles (groupDescriptor partiles levels).1 cell ↔
      (apart ++ [rest])[cell]? = some v ∨ cell = apart.length + 1 ∧ v ∈ coarserValues levels := by
  rw [listed, h.operands, h.length]
  rcases lt_trichotomy cell apart.length with hlt | rfl | hgt
  · rw [List.getElem?_append_left (by rwa [List.length_map]), List.getElem?_map,
      List.getElem?_append_left hlt, List.getElem?_eq_getElem hlt, Option.map_some]
    dsimp only
    rw [if_neg (by omega), List.mem_singleton, Operand.symbol_inj, Option.some_inj]
    exact ⟨fun h => .inl h.symm, fun h => (h.resolve_right fun h => by omega).symm⟩
  · rw [List.getElem?_append_right (by rw [List.length_map]), List.length_map, Nat.sub_self,
      List.getElem?_cons_zero, List.getElem?_append_right le_rfl, Nat.sub_self,
      List.getElem?_cons_zero]
    dsimp only
    rw [if_pos rfl, List.dropLast_cons_cons, List.dropLast_singleton, List.mem_singleton,
      Operand.symbol_inj, Option.some_inj]
    exact ⟨fun h => .inl h.symm, fun h => (h.resolve_right fun h => by omega).symm⟩
  · obtain ⟨extra, rfl⟩ : ∃ extra, cell = apart.length + (extra + 1) :=
      ⟨cell - apart.length - 1, by omega⟩
    rw [List.getElem?_append_right (by rw [List.length_map]; omega), List.length_map,
      Nat.add_sub_cancel_left, List.getElem?_cons_succ,
      List.getElem?_append_right (Nat.le_add_right ..), Nat.add_sub_cancel_left,
      List.getElem?_cons_succ, List.getElem?_nil]
    match levels, extra with
    | [], _ => simp [coarserValues]
    | _ :: _, 0 =>
      rw [List.isEmpty_cons, if_neg Bool.false_ne_true, List.getElem?_cons_zero]
      dsimp only
      rw [if_neg (by omega), Operand.symbol_mem_map]
      simp
    | _ :: _, extra + 1 => simp

/-- No value is in two groups. -/
theorem listed_inj (h : CutsOff (coarserValues levels) apart rest last partiles) {c d : Nat}
    (hc : .symbol v ∈ listed partiles (groupDescriptor partiles levels).1 c)
    (hd : .symbol v ∈ listed partiles (groupDescriptor partiles levels).1 d) : c = d := by
  have hnodup := h.nodup
  rw [List.append_assoc, List.nodup_append] at hnodup
  obtain ⟨-, hown, hdisjoint⟩ := hnodup
  have hcoarser : ∀ {i : Nat}, (apart ++ [rest])[i]? = some v → v ∉ coarserValues levels :=
    fun hi hv => hdisjoint v hv v (List.mem_of_getElem? hi) rfl
  rcases (h.listed_iff c).mp hc with hc | ⟨rfl, hc'⟩
  · rcases (h.listed_iff d).mp hd with hd | ⟨-, hd⟩
    · exact (List.getElem?_inj (List.getElem?_eq_some_iff.mp hc).1 hown).mp (hc.trans hd.symm)
    · exact absurd hd (hcoarser hc)
  · rcases (h.listed_iff d).mp hd with hd | ⟨rfl, -⟩
    · exact absurd hc' (hcoarser hd)
    · rfl

/-- A value falls in the group of a value kept apart if it is that value. -/
theorem fallsIn_apart (h : CutsOff (coarserValues levels) apart rest last partiles) {i : Nat}
    (hi : i < apart.length) :
    FallsIn partiles (groupDescriptor partiles levels).1 v i ↔ apart[i]? = some v := by
  rw [FallsIn, h.listed_iff, h.length, List.getElem?_append_left hi]
  constructor
  · rintro ((heq | ⟨rfl, -⟩) | ⟨heq, -⟩)
    · exact heq
    · omega
    · omega
  · exact fun heq => .inl (.inl heq)

/-- A value falls in the last group if it is not left out. -/
theorem fallsIn_rest (h : CutsOff (coarserValues levels) apart rest last partiles) :
    FallsIn partiles (groupDescriptor partiles levels).1 v apart.length ↔
      v ∉ coarserValues levels ++ apart := by
  have hlast : (apart ++ [rest])[apart.length]? = some rest := by
    rw [List.getElem?_append_right le_rfl, Nat.sub_self, List.getElem?_cons_zero]
  rw [FallsIn, h.listed_iff, h.length, hlast]
  constructor
  · rintro ((heq | ⟨hcell, -⟩) | ⟨-, hnone⟩) hv
    · obtain rfl := Option.some.inj heq
      exact (List.nodup_append.mp h.nodup).2.2 _ hv _ List.mem_cons_self rfl
    · omega
    · rcases List.mem_append.mp hv with hv | hv
      · exact hnone _ ((h.listed_iff _).mpr (.inr ⟨rfl, hv⟩))
      · obtain ⟨i, hi⟩ := List.mem_iff_getElem?.mp (List.mem_append_left [rest] hv)
        exact hnone i ((h.listed_iff i).mpr (.inl hi))
  · intro hv
    by_cases heq : rest = v
    · exact .inl (.inl (congrArg some heq))
    · refine .inr ⟨rfl, fun c hc => hv ?_⟩
      rcases (h.listed_iff c).mp hc with hc | ⟨-, hc⟩
      · rcases List.mem_append.mp (List.mem_of_getElem? hc) with hc | hc
        · exact List.mem_append_right _ hc
        · exact absurd (List.mem_singleton.mp hc).symm heq
      · exact List.mem_append_left _ hc

/-- Each partile has the group its criterion speaks of. -/
theorem criterion_iff_fallsIn (h : CutsOff (coarserValues levels) apart rest last partiles)
    (operand : Operand) {p : Partile} (hp : p ∈ partiles) :
    ∃ f cell met, p.criterion operand .symbol = .ok f ∧
      (groupDescriptor partiles levels).2.cellOf.lookup p.index = some cell ∧
      operand.meets (.symbol v) f = some met ∧
      (met = true ↔ FallsIn partiles (groupDescriptor partiles levels).1 v cell) := by
  rcases h.mem_partiles.mp hp with ⟨i, w, hw, rfl⟩ | rfl
  · obtain ⟨f, hf, hmeets⟩ := criterion_value operand w ((coarserValues levels).length + i) [] v
    have hi : i < apart.length := (List.getElem?_eq_some_iff.mp hw).1
    refine ⟨f, i, _, hf, h.cellOf.1 i hi, hmeets, ?_⟩
    rw [h.fallsIn_apart hi, hw, if_pos rfl, beq_iff_eq, Option.some_inj]
    exact eq_comm
  · obtain ⟨f, hf, hmeets⟩ := criterion_value operand rest last (coarserValues levels ++ apart) v
    refine ⟨f, apart.length, _, hf, h.cellOf.2, hmeets, ?_⟩
    rw [h.fallsIn_rest, if_neg h.leavesOut, decide_eq_true_iff]

end CutsOff

/-- Whether a value meets the criterion of a partile. -/
def MetBy (operand : Operand) (v : String) (p : Partile) : Prop :=
  ∃ f, p.criterion operand .symbol = .ok f ∧ operand.meets (.symbol v) f = some true

theorem metBy_value {operand : Operand} {v value : String} {index : Nat} {outside : List String} :
    MetBy operand v (.value value index outside) ↔
      (if outside = [] then v == value else decide (v ∉ outside)) = true := by
  obtain ⟨f, hf, hmeets⟩ := criterion_value operand value index outside v
  constructor
  · rintro ⟨g, hg, hmet⟩
    obtain rfl := Except.ok.inj (hf.symm.trans hg)
    exact Option.some.inj (hmeets.symm.trans hmet)
  · exact fun h => ⟨f, hf, hmeets.trans (congrArg some h)⟩

theorem metBy_single {operand : Operand} {v value : String} {index : Nat} :
    MetBy operand v (.value value index []) ↔ v = value := by
  rw [metBy_value, if_pos rfl, beq_iff_eq]

namespace CutsOff

variable {coarser apart : List String} {rest v : String} {last : Nat} {partiles : List Partile}
  {operand : Operand}

theorem metBy_rest (h : CutsOff coarser apart rest last partiles) :
    MetBy operand v (.value rest last (coarser ++ apart)) ↔ v ∉ coarser ++ apart := by
  rw [metBy_value, if_neg h.leavesOut, decide_eq_true_iff]

/-- A value meets the criterion of one partile at most. -/
theorem metBy_inj (h : CutsOff coarser apart rest last partiles) {p q : Partile}
    (hp : p ∈ partiles) (hq : q ∈ partiles) (hmetp : MetBy operand v p) (hmetq : MetBy operand v q) :
    p = q := by
  have happart : apart.Nodup := (List.nodup_append.mp (List.nodup_append.mp h.nodup).1).2.1
  have hmem : ∀ {i : Nat}, apart[i]? = some v → v ∈ coarser ++ apart := fun hi =>
    List.mem_append_right _ (List.mem_of_getElem? hi)
  rcases h.mem_partiles.mp hp with ⟨i, w, hi, rfl⟩ | rfl
  · obtain rfl := metBy_single.mp hmetp
    rcases h.mem_partiles.mp hq with ⟨j, w, hj, rfl⟩ | rfl
    · obtain rfl := metBy_single.mp hmetq
      rw [(List.getElem?_inj (List.getElem?_eq_some_iff.mp hi).1 happart).mp (hi.trans hj.symm)]
    · exact absurd (hmem hi) (h.metBy_rest.mp hmetq)
  · rcases h.mem_partiles.mp hq with ⟨j, w, hj, rfl⟩ | rfl
    · obtain rfl := metBy_single.mp hmetq
      exact absurd (hmem hj) (h.metBy_rest.mp hmetp)
    · rfl

/-- What meets no criterion of the level has been kept apart before. -/
theorem not_metBy_iff (h : CutsOff coarser apart rest last partiles) :
    (∀ p ∈ partiles, ¬MetBy operand v p) ↔ v ∈ coarser := by
  constructor
  · intro hnone
    have hrest := hnone _ (h.mem_partiles.mpr (.inr rfl))
    rw [h.metBy_rest, not_not] at hrest
    refine (List.mem_append.mp hrest).resolve_right fun hv => ?_
    obtain ⟨i, hi⟩ := List.mem_iff_getElem?.mp hv
    exact hnone _ (h.mem_partiles.mpr (.inl ⟨i, v, hi, rfl⟩)) (metBy_single.mpr rfl)
  · intro hv p hp hmet
    rcases h.mem_partiles.mp hp with ⟨i, w, hi, rfl⟩ | rfl
    · obtain rfl := metBy_single.mp hmet
      have hdisjoint := (List.nodup_append.mp (List.nodup_append.mp h.nodup).1).2.2
      exact hdisjoint v hv v (List.mem_of_getElem? hi) rfl
    · exact h.metBy_rest.mp hmet (List.mem_append_left _ hv)

end CutsOff

theorem mem_coarserValues {levels : List (List Partile)} {v : String} :
    v ∈ coarserValues levels ↔
      ∃ q ∈ levels.flatten, q.isGarbage = false ∧ ∃ index outside, q = .value v index outside := by
  rw [coarserValues_eq, List.mem_filterMap]
  refine exists_congr fun q => and_congr_right fun _ => ?_
  match q with
  | .interval .. => simp [ownValue]
  | .value w index [] => simp [ownValue, isGarbage]
  | .value w index (_ :: _) => simp [ownValue, isGarbage]

end Partile

/-- Partiles of a symbol operand and the groups of their descriptor cut the values the same way.  At
most one group lists a value, and a value meets the criterion of a partile if and only if it falls
in the group of the partile.  So it meets one criterion at most, and none if it is the value of a
partile of its own in a coarser level. -/
theorem groupDescriptor_cuts {samples : List String} {maxPartiles k : Nat} {level : Level}
    (hk : (Levels.ofSymbol samples maxPartiles)[k]? = some level) (operand : Operand) (v : String) :
    let coarser := ((Levels.ofSymbol samples maxPartiles).take k).map (·.partiles)
    let φ := (groupDescriptor level.partiles coarser).1
    let cells := (groupDescriptor level.partiles coarser).2
    (∀ c d, .symbol v ∈ listed level.partiles φ c → .symbol v ∈ listed level.partiles φ d → c = d) ∧
    (∀ p ∈ level.partiles, ∃ f cell met, p.criterion operand .symbol = .ok f ∧
      cells.cellOf.lookup p.index = some cell ∧ operand.meets (.symbol v) f = some met ∧
      (met = true ↔ FallsIn level.partiles φ v cell)) ∧
    (∀ p ∈ level.partiles, ∀ q ∈ level.partiles, p.MetBy operand v → q.MetBy operand v → p = q) ∧
    ((∀ p ∈ level.partiles, ¬p.MetBy operand v) ↔
      ∃ q ∈ coarser.flatten, q.isGarbage = false ∧ ∃ index outside, q = .value v index outside) := by
  obtain ⟨apart, rest, last, h⟩ := Partile.cutsOff_ofSymbol hk
  refine ⟨fun c d => h.listed_inj, fun p hp => h.criterion_iff_fallsIn operand hp,
    fun p hp q hq => h.metBy_inj hp hq, ?_⟩
  rw [h.not_metBy_iff, Partile.mem_coarserValues]

namespace Orders

/-- Channels of orders: half of them by app, a quarter at the desk. -/
def channels : List String :=
  ["app", "app", "app", "app", "app", "app", "app", "app", "desk", "desk", "desk", "desk",
    "fax", "fax", "phone", "phone"]

theorem channels_frequencies : Partile.Frequencies.ofSamples channels =
    ⟨["app", "desk", "fax", "phone"], [8, 4, 2, 2]⟩ := by
  have hsorted : channels.Pairwise fun a b => Partile.Frequencies.valueLE a b = true := by decide
  have hruns : Partile.Frequencies.runs channels =
      [("app", 8), ("desk", 4), ("fax", 2), ("phone", 2)] := by decide
  have hentries : [("app", 8), ("desk", 4), ("fax", 2), ("phone", 2)].Pairwise
      fun a b => Partile.Frequencies.entryLE a b = true := by decide
  rw [Partile.Frequencies.ofSamples, List.mergeSort_of_pairwise hsorted, hruns,
    List.mergeSort_of_pairwise hentries]
  rfl

/-- The partiles of the finer of the two levels of channels. -/
def finer : List Partile := [.value "desk" 1 [], .value "fax" 3 ["app", "desk"]]

/-- Those of the coarser one. -/
def coarser : List Partile := [.value "app" 0 [], .value "desk" 1 ["app"]]

theorem channels_levels : Levels.ofSymbol channels 4 = [⟨2, coarser⟩, ⟨4, finer⟩] := by
  rw [Levels.ofSymbol, channels_frequencies]
  decide +kernel

end Orders

/-- Orders by app have a group that is no partile's; those by post have none of their own and fall in
the last partile's, whose criterion they meet. -/
theorem channels_cut :
    (∀ p ∈ Orders.finer, ¬p.MetBy (.field "channel") "app") ∧
      FallsIn Orders.finer (groupDescriptor Orders.finer [Orders.coarser]).1 "post" 1 := by
  have hk : (Levels.ofSymbol Orders.channels 4)[1]? = some ⟨4, Orders.finer⟩ := by
    rw [Orders.channels_levels]
    rfl
  have hcoarser : ((Levels.ofSymbol Orders.channels 4).take 1).map (·.partiles) =
      [Orders.coarser] := by
    rw [Orders.channels_levels]
    rfl
  obtain ⟨-, -, -, happ⟩ := groupDescriptor_cuts hk (.field "channel") "app"
  obtain ⟨-, hpost, -, -⟩ := groupDescriptor_cuts hk (.field "channel") "post"
  rw [hcoarser] at happ hpost
  refine ⟨happ.mpr ⟨.value "app" 0 [], by decide, rfl, 0, [], rfl⟩, ?_⟩
  obtain ⟨f, cell, met, hf, hcell, hmeets, hiff⟩ :=
    hpost (.value "fax" 3 ["app", "desk"]) (by decide)
  obtain rfl : cell = 1 := Option.some.inj (hcell.symm.trans (by decide))
  refine hiff.mp (Option.some.inj (hmeets.symm.trans ?_))
  cases hf
  decide

end FeatureSynth
