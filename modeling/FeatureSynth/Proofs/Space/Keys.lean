/-
# Keys of parts

The key of a part is one more than the number of its cell, and the number of a cell
is written in a mixed radix: one digit per axis, the first axis fastest.  Encoding
looks each index up in the table of its axis and puts the digits together; decoding
takes a number apart and looks each digit up the other way.  Not every digit is the
cell of a partile, so decoding is partial, but where the tables are one to one the
two are inverse to each other: the index vectors of the tables and the keys that
decode correspond.
-/
import Mathlib.Algebra.BigOperators.Group.List.Basic
import Mathlib.Data.List.Forall2
import Mathlib.Data.Set.Card
import FeatureSynth.Proofs.Space.Cells
import FeatureSynth.Proofs.Space.Links

namespace FeatureSynth

namespace Space

/-- Number of cells of a partition. -/
def cellCount (cells : List Cells) : Nat := (cells.map (·.count)).prod

/-- Number of index vectors that have a cell. -/
def mappedCount (cells : List Cells) : Nat := (cells.map (·.cellOf.length)).prod

/-- An index vector whose components are all in the tables. -/
def Mapped : List Cells → List Nat → Prop :=
  List.Forall₂ fun c index => ∃ cell, (index, cell) ∈ c.cellOf

/-- The cell of a number on each axis. -/
def digits : List Cells → Nat → List Nat
  | [], _ => []
  | c :: cells, number => number % c.count :: digits cells (number / c.count)

/-- Every cell of a number is the cell of an index. -/
def Analysed (cells : List Cells) (number : Nat) : Prop :=
  List.Forall₂ (fun c cell => ∃ index, (index, cell) ∈ c.cellOf) cells (digits cells number)

/-! ## Numbers and index vectors -/

section Number

variable {key number rest : Nat} {indexes : List Nat}

/-- A digit in front of a number in range makes a number in range. -/
theorem digit_add_lt {digit base number bound : Nat} (hdigit : digit < base) (hlt : number < bound) :
    digit + base * number < base * bound :=
  calc digit + base * number
      < base + base * number := Nat.add_lt_add_right hdigit _
    _ = base * (number + 1) := by rw [Nat.mul_succ, Nat.add_comm]
    _ ≤ base * bound := Nat.mul_le_mul_left _ hlt

theorem exists_cellNumber : ∀ {cells : List Cells} {indexes : List Nat},
    (∀ c ∈ cells, c.OneToOne) → Mapped cells indexes →
      ∃ number, cellNumber cells indexes = .ok number ∧ number < cellCount cells
  | [], [], _, .nil => ⟨0, rfl, Nat.one_pos⟩
  | c :: cells, index :: indexes, hc, .cons ⟨cell, hcell⟩ hmapped => by
      obtain ⟨number, hnumber, hlt⟩ :=
        exists_cellNumber (fun c hmem => hc c (List.mem_cons_of_mem _ hmem)) hmapped
      have hc := hc c List.mem_cons_self
      refine ⟨cell + c.count * number, ?_, ?_⟩
      · rw [cellNumber, hc.lookup_eq_some.mpr hcell]
        simp only [hnumber]
      · exact digit_add_lt (hc.bounded _ hcell) hlt

/-- Decoding takes apart what encoding put together, whatever is left over. -/
theorem indexesOf_cellNumber : ∀ {cells : List Cells} {indexes : List Nat} {number : Nat},
    (∀ c ∈ cells, c.OneToOne) → Mapped cells indexes → cellNumber cells indexes = .ok number →
      indexesOf key cells number = .ok (indexes, 0)
  | [], [], _, _, .nil, hnumber => by cases hnumber; rfl
  | c :: cells, index :: indexes, number, hc, .cons ⟨cell, hcell⟩ hmapped, hnumber => by
      have hcs := fun c hmem => hc c (List.mem_cons_of_mem _ hmem)
      have hc := hc c List.mem_cons_self
      have hlt := hc.bounded _ hcell
      obtain ⟨upper, hupper, -⟩ := exists_cellNumber hcs hmapped
      rw [cellNumber, hc.lookup_eq_some.mpr hcell] at hnumber
      simp only [hupper] at hnumber
      cases hnumber
      have hmod : (cell + c.count * upper) % c.count = cell := by
        rw [Nat.add_mul_mod_self_left, Nat.mod_eq_of_lt hlt]
      have hdiv : (cell + c.count * upper) / c.count = upper := by
        rw [Nat.add_mul_div_left _ _ hc.positive, Nat.div_eq_of_lt hlt, Nat.zero_add]
      rw [indexesOf, hmod, hc.index?_eq_some.mpr hcell]
      simp only [hdiv, indexesOf_cellNumber hcs hmapped hupper]

/-- Encoding puts together what decoding took apart, up to what is left over. -/
theorem cellNumber_indexesOf : ∀ {cells : List Cells} {indexes : List Nat} {number : Nat},
    (∀ c ∈ cells, c.OneToOne) → indexesOf key cells number = .ok (indexes, rest) →
      Mapped cells indexes ∧ ∃ lower, cellNumber cells indexes = .ok lower ∧
        number = lower + cellCount cells * rest
  | [], _, number, _, h => by
      cases h
      exact ⟨.nil, 0, rfl, by simp [cellCount]⟩
  | c :: cells, _, number, hc, h => by
      have hcs := fun c hmem => hc c (List.mem_cons_of_mem _ hmem)
      have hc := hc c List.mem_cons_self
      rw [indexesOf] at h
      split at h
      · cases h
      · rename_i index hindex
        split at h
        · rename_i indexes rest hrest
          cases h
          have hcell := hc.index?_eq_some.mp hindex
          obtain ⟨hmapped, lower, hlower, hdiv⟩ := cellNumber_indexesOf hcs hrest
          refine ⟨.cons ⟨_, hcell⟩ hmapped, number % c.count + c.count * lower, ?_, ?_⟩
          · rw [cellNumber, hc.lookup_eq_some.mpr hcell]
            simp only [hlower]
          · have hparts := Nat.mod_add_div number c.count
            rw [hdiv, Nat.mul_add, ← Nat.add_assoc, ← Nat.mul_assoc] at hparts
            exact hparts.symm
        · cases h

/-- A number decodes exactly when each of its cells is the cell of an index. -/
theorem indexesOf_isOk_iff (key : Nat) : ∀ {cells : List Cells} {number : Nat},
    (∀ c ∈ cells, c.OneToOne) →
      ((∃ indexes, indexesOf key cells number = .ok (indexes, number / cellCount cells)) ↔
        Analysed cells number)
  | [], number, _ => by simp [indexesOf, Analysed, digits, cellCount]
  | c :: cells, number, hc => by
      have ih : (∃ indexes, indexesOf key cells (number / c.count) =
          .ok (indexes, number / c.count / cellCount cells)) ↔ Analysed cells (number / c.count) :=
        indexesOf_isOk_iff key fun c hmem => hc c (List.mem_cons_of_mem _ hmem)
      have hc := hc c List.mem_cons_self
      rw [show cellCount (c :: cells) = c.count * cellCount cells from List.prod_cons,
        ← Nat.div_div_eq_div_mul, Analysed, digits, List.forall₂_cons, ← Analysed, ← ih, indexesOf]
      constructor
      · rintro ⟨_, h⟩
        split at h
        · cases h
        · rename_i index hindex
          split at h
          · rename_i indexes rest hrest
            cases h
            exact ⟨⟨index, hc.index?_eq_some.mp hindex⟩, indexes, hrest⟩
          · cases h
      · rintro ⟨⟨index, hindex⟩, indexes, hindexes⟩
        refine ⟨index :: indexes, ?_⟩
        simp only [hc.index?_eq_some.mpr hindex, hindexes]

end Number

/-! ## Number of index vectors -/

/-- The index vectors of tables. -/
def vectors : List Cells → List (List Nat)
  | [] => [[]]
  | c :: cells => c.cellOf.flatMap fun e => (vectors cells).map (e.1 :: ·)

theorem mem_vectors : ∀ {cells : List Cells} {indexes : List Nat},
    indexes ∈ vectors cells ↔ Mapped cells indexes
  | [], indexes => by simp [vectors, Mapped]
  | c :: cells, indexes => by
      simp only [vectors, List.mem_flatMap, List.mem_map, mem_vectors]
      constructor
      · rintro ⟨⟨index, cell⟩, hcell, rest, hrest, rfl⟩
        exact .cons ⟨cell, hcell⟩ hrest
      · rintro (_ | ⟨⟨cell, hcell⟩, hrest⟩)
        exact ⟨_, hcell, _, hrest, rfl⟩

theorem length_vectors : ∀ cells : List Cells, (vectors cells).length = mappedCount cells
  | [] => rfl
  | c :: cells => by
      simp [vectors, mappedCount, List.length_flatMap, length_vectors cells]

theorem nodup_vectors : ∀ {cells : List Cells}, (∀ c ∈ cells, c.OneToOne) → (vectors cells).Nodup
  | [], _ => List.nodup_singleton _
  | c :: cells, hc => by
      have htail := nodup_vectors fun c hmem => hc c (List.mem_cons_of_mem _ hmem)
      refine List.nodup_flatMap.mpr ⟨fun e _ => htail.map fun _ _ h => (List.cons.inj h).2, ?_⟩
      -- vectors with different first components have nothing in common
      refine (List.pairwise_map.mp (hc c List.mem_cons_self).indexes).imp fun hne => ?_
      intro v hv hv'
      obtain ⟨_, -, rfl⟩ := List.mem_map.mp hv
      obtain ⟨_, -, heq⟩ := List.mem_map.mp hv'
      exact hne (List.cons.inj heq).1.symm

/-! ## Keys -/

section Key

variable {s : Space} {rank key : Nat} {p : Partition} {indexes : List Nat}

theorem no_empty_axis (hcells : ∀ c ∈ p.cells, c.OneToOne) :
    p.cells.any (·.count == 0) = false := by
  refine List.any_eq_false.mpr fun c hc => ?_
  simpa using (hcells c hc).positive.ne'

theorem ofKey_eq_ok (hp : s.partitions[rank]? = some p) (hcells : ∀ c ∈ p.cells, c.OneToOne) :
    s.ofKey rank key = .ok indexes ↔
      1 ≤ key ∧ indexesOf key p.cells (key - 1) = .ok (indexes, 0) := by
  simp only [ofKey, hp, no_empty_axis hcells, Bool.false_eq_true, or_false]
  rcases Nat.eq_zero_or_pos key with rfl | hkey
  · simp [breach]
  · rw [if_neg hkey.ne']
    split
    · rename_i h
      simp [h, Nat.succ_le_of_lt hkey]
    · rename_i rest hrest h
      have hne : rest ≠ (indexes, 0) := hrest indexes
      simp [h, breach, hne]
    · rename_i h
      simp [h]

theorem key_of_cellNumber (hp : s.partitions[rank]? = some p)
    (hcells : ∀ c ∈ p.cells, c.OneToOne) (hmapped : Mapped p.cells indexes) {number : Nat}
    (hnumber : cellNumber p.cells indexes = .ok number) (hlt : number + 1 < keyBound) :
    s.key ⟨rank, indexes⟩ = .ok (number + 1) := by
  simp only [Space.key, hp, no_empty_axis hcells, hmapped.length_eq, hnumber, ne_eq,
    not_true_eq_false, Bool.false_eq_true, or_self, if_false, Nat.mod_eq_of_lt hlt]

end Key

/-! ## Sizes -/

/-- The level that an axis is cut by holds partiles of the kind of its dimension, under different
indexes. -/
def CutByKind (s : Space) (a : Axis) : Prop :=
  ∀ d ∈ s.dimensions[a.dimension]?, ∀ levels ∈ d.levels, ∀ position ∈ levels.position? a.granularity,
    (∀ x ∈ levels.partilesAt position, x.isOf d.kind = true) ∧
      ((levels.partilesAt position).map (·.index)).Nodup

instance (s : Space) (a : Axis) : Decidable (s.CutByKind a) :=
  inferInstanceAs (Decidable (∀ d ∈ s.dimensions[a.dimension]?, ∀ levels ∈ d.levels,
    ∀ position ∈ levels.position? a.granularity,
      (∀ x ∈ levels.partilesAt position, x.isOf d.kind = true) ∧
        ((levels.partilesAt position).map (·.index)).Nodup))

/-- A size times the number of partiles of an axis. -/
def timesPartiles (s : Space) (size : Nat) (a : Axis) : Option Nat := do
  let levels ← (← s.dimensions[a.dimension]?).levels
  let position ← levels.position? a.granularity
  return size * (levels.partilesAt position).length

theorem timesPartiles_of_described {s : Space} {a : Axis} {φ : Formula} {c : Cells} (size : Nat)
    (h : s.axisDescriptor a = .ok (φ, c)) (hcut : s.CutByKind a) :
    s.timesPartiles size a = some (size * c.cellOf.length) := by
  unfold axisDescriptor at h
  split at h
  · cases h
  · rename_i d hd
    split at h
    · cases h
    · rename_i levels hlevels
      split at h
      · cases h
      · rename_i position hposition
        obtain ⟨hof, hnodup⟩ := hcut d hd levels hlevels position hposition
        have hlength : (levels.partilesAt position).length = c.cellOf.length := by
          dsimp only at h
          split at h
          · rename_i hkind
            cases h
            exact (length_intervalDescriptor (fun x hx => hkind ▸ hof x hx) hnodup).symm
          · rename_i hkind
            cases h
            exact (length_groupDescriptor _ (fun x hx => hkind ▸ hof x hx) hnodup).symm
          · cases h
        simp [timesPartiles, hd, hlevels, hposition, hlength]

theorem foldlM_timesPartiles {s : Space} : ∀ {axes : List Axis} {described : List (Formula × Cells)}
    (size : Nat), axes.mapM s.axisDescriptor = .ok described → (∀ a ∈ axes, s.CutByKind a) →
      axes.foldlM s.timesPartiles size = some (size * mappedCount (described.map (·.2)))
  | [], _, size, h, _ => by
      cases h
      simp [mappedCount]
  | a :: axes, _, size, h, hcuts => by
      rw [List.mapM_cons] at h
      cases ha : s.axisDescriptor a with
      | error e => rw [ha] at h; cases h
      | ok described =>
        cases hrest : axes.mapM s.axisDescriptor with
        | error e => rw [ha, hrest] at h; cases h
        | ok rest =>
          rw [ha, hrest] at h
          cases h
          have hone := timesPartiles_of_described size ha (hcuts a List.mem_cons_self)
          rw [List.foldlM_cons, hone]
          refine (foldlM_timesPartiles _ hrest fun b hb => hcuts b (List.mem_cons_of_mem _ hb)).trans ?_
          simp [mappedCount, Nat.mul_assoc]

/-- Once a partition is described, its size is the number of index vectors that have a cell. -/
theorem actualSize?_of_describe {s₀ s : Space} {rank : Nat} {φ : Formula} {p : Partition}
    (h : s₀.describe rank = .ok (φ, s)) (hp : s.partitions[rank]? = some p)
    (hcuts : ∀ a ∈ p.axes, s.CutByKind a) :
    s.actualSize? rank = some (mappedCount p.cells) := by
  obtain ⟨cells, hdescriptor, rfl⟩ := describe_eq_ok h
  rw [modifyPartition, List.getElem?_modify_eq] at hp
  obtain ⟨q, hq, rfl⟩ := Option.map_eq_some_iff.mp hp
  simp only [descriptor, hq, Option.map_some, Option.getD_some] at hdescriptor
  cases hdescribed : q.axes.mapM s₀.axisDescriptor with
  | error e => rw [hdescribed] at hdescriptor; cases hdescriptor
  | ok described =>
    rw [hdescribed] at hdescriptor
    cases hdescriptor
    have hsize := foldlM_timesPartiles 1 hdescribed hcuts
    rw [Nat.one_mul] at hsize
    rw [actualSize?, modifyPartition, List.getElem?_modify_eq, hq]
    exact hsize

/-! ## Encoding and decoding -/

section OneToOne

variable {s : Space} {rank key : Nat} {p : Partition} {indexes : List Nat}

theorem exists_key (hp : s.partitions[rank]? = some p) (hcells : ∀ c ∈ p.cells, c.OneToOne)
    (hbound : cellCount p.cells < keyBound) (hmapped : Mapped p.cells indexes) :
    ∃ key, s.key ⟨rank, indexes⟩ = .ok key ∧ 1 ≤ key ∧ key ≤ cellCount p.cells ∧
      s.ofKey rank key = .ok indexes := by
  obtain ⟨number, hnumber, hlt⟩ := exists_cellNumber hcells hmapped
  refine ⟨number + 1, ?_, Nat.le_add_left 1 number, hlt, ?_⟩
  · exact key_of_cellNumber hp hcells hmapped hnumber (Nat.lt_of_le_of_lt hlt hbound)
  · rw [ofKey_eq_ok hp hcells, Nat.add_sub_cancel]
    exact ⟨Nat.le_add_left 1 number, indexesOf_cellNumber hcells hmapped hnumber⟩

theorem key_of_ofKey (hp : s.partitions[rank]? = some p) (hcells : ∀ c ∈ p.cells, c.OneToOne)
    (hbound : cellCount p.cells < keyBound) (hkey : s.ofKey rank key = .ok indexes) :
    Mapped p.cells indexes ∧ s.key ⟨rank, indexes⟩ = .ok key := by
  obtain ⟨hpos, hindexes⟩ := (ofKey_eq_ok hp hcells).mp hkey
  obtain ⟨hmapped, number, hnumber, hsum⟩ := cellNumber_indexesOf hcells hindexes
  obtain ⟨number', hnumber', hlt⟩ := exists_cellNumber hcells hmapped
  obtain rfl : number = number' := Except.ok.inj (hnumber.symm.trans hnumber')
  rw [Nat.mul_zero, Nat.add_zero] at hsum
  have hencoded := key_of_cellNumber hp hcells hmapped hnumber (Nat.lt_of_le_of_lt hlt hbound)
  rw [← hsum, Nat.sub_add_cancel hpos] at hencoded
  exact ⟨hmapped, hencoded⟩

/-- The keys that decode are those of cells that all belong to partiles. -/
theorem ofKey_isOk_iff (hp : s.partitions[rank]? = some p) (hcells : ∀ c ∈ p.cells, c.OneToOne)
    (hbound : cellCount p.cells < keyBound) :
    (∃ indexes, s.ofKey rank key = .ok indexes) ↔
      1 ≤ key ∧ key ≤ cellCount p.cells ∧ Analysed p.cells (key - 1) := by
  constructor
  · rintro ⟨indexes, hkey⟩
    obtain ⟨hmapped, hencoded⟩ := key_of_ofKey hp hcells hbound hkey
    obtain ⟨key', hkey', hpos, hle, -⟩ := exists_key hp hcells hbound hmapped
    obtain rfl : key = key' := Except.ok.inj (hencoded.symm.trans hkey')
    refine ⟨hpos, hle, (indexesOf_isOk_iff key hcells).mp ⟨indexes, ?_⟩⟩
    rw [Nat.div_eq_of_lt (Nat.sub_one_lt_of_le hpos hle)]
    exact ((ofKey_eq_ok hp hcells).mp hkey).2
  · rintro ⟨hpos, hle, hanalysed⟩
    obtain ⟨indexes, hindexes⟩ := (indexesOf_isOk_iff key hcells).mpr hanalysed
    rw [Nat.div_eq_of_lt (Nat.sub_one_lt_of_le hpos hle)] at hindexes
    exact ⟨indexes, (ofKey_eq_ok hp hcells).mpr ⟨hpos, hindexes⟩⟩

/-- As many keys decode as there are index vectors: each is the key of one of them. -/
theorem encard_keys (hp : s.partitions[rank]? = some p) (hcells : ∀ c ∈ p.cells, c.OneToOne)
    (hbound : cellCount p.cells < keyBound) :
    {key | ∃ indexes, s.ofKey rank key = .ok indexes}.encard = mappedCount p.cells := by
  let keyOf : List Nat → Nat := fun indexes => (s.key ⟨rank, indexes⟩).toOption.getD 0
  have hkeyOf : ∀ {indexes key}, s.key ⟨rank, indexes⟩ = .ok key → keyOf indexes = key := by
    intro indexes key h
    simp [keyOf, h, Except.toOption]
  have himage : {key | ∃ indexes, s.ofKey rank key = .ok indexes} =
      keyOf '' (vectors p.cells).toFinset := by
    ext key
    simp only [Set.mem_ofPred_eq, Set.mem_image, List.coe_toFinset, mem_vectors]
    constructor
    · rintro ⟨indexes, hkey⟩
      obtain ⟨hmapped, hencoded⟩ := key_of_ofKey hp hcells hbound hkey
      exact ⟨indexes, hmapped, hkeyOf hencoded⟩
    · rintro ⟨indexes, hmapped, rfl⟩
      obtain ⟨key, hencoded, -, -, hdecoded⟩ := exists_key hp hcells hbound hmapped
      exact ⟨indexes, hkeyOf hencoded ▸ hdecoded⟩
  have hinj : Set.InjOn keyOf (vectors p.cells).toFinset := by
    intro v hv w hw heq
    simp only [List.coe_toFinset, Set.mem_ofPred_eq, mem_vectors] at hv hw
    obtain ⟨k, hk, -, -, hv⟩ := exists_key hp hcells hbound hv
    obtain ⟨l, hl, -, -, hw⟩ := exists_key hp hcells hbound hw
    rw [hkeyOf hk, hkeyOf hl] at heq
    exact Except.ok.inj (hv.symm.trans (heq ▸ hw))
  rw [himage, hinj.encard_image, Set.encard_coe_eq_coe_finsetCard,
    List.toFinset_card_of_nodup (nodup_vectors hcells), length_vectors]

/-- Where the tables of a partition are one to one, index vectors and keys correspond.  The vectors
of the tables are encoded between one and the number of cells and decode to themselves; what
decodes is encoded by its key; the keys that decode are those in range whose cells all belong to
partiles, and there are as many as vectors.  In tables of levels that is the size of the partition. -/
theorem key_correspondence (hp : s.partitions[rank]? = some p)
    (hcells : ∀ c ∈ p.cells, c.OneToOne) (hbound : cellCount p.cells < keyBound) :
    (∀ indexes, Mapped p.cells indexes → ∃ key, s.key ⟨rank, indexes⟩ = .ok key ∧ 1 ≤ key ∧
      key ≤ cellCount p.cells ∧ s.ofKey rank key = .ok indexes) ∧
    (∀ key indexes, s.ofKey rank key = .ok indexes → s.key ⟨rank, indexes⟩ = .ok key) ∧
    (∀ key, (∃ indexes, s.ofKey rank key = .ok indexes) ↔
      1 ≤ key ∧ key ≤ cellCount p.cells ∧ Analysed p.cells (key - 1)) ∧
    {key | ∃ indexes, s.ofKey rank key = .ok indexes}.encard = mappedCount p.cells ∧
    ∀ (s₀ : Space) φ, s₀.describe rank = .ok (φ, s) → (∀ a ∈ p.axes, s.CutByKind a) →
      s.actualSize? rank = some (mappedCount p.cells) := by
  refine ⟨fun indexes hmapped => exists_key hp hcells hbound hmapped,
    fun key indexes hkey => (key_of_ofKey hp hcells hbound hkey).2,
    fun key => ofKey_isOk_iff hp hcells hbound, encard_keys hp hcells hbound, ?_⟩
  intro s₀ φ hdescribe hcuts
  exact actualSize?_of_describe hdescribe hp hcuts

end OneToOne

end Space

/-! ## Orders by amount and channel -/

namespace Orders

/-- Amounts up to 10 and above 25; those in between belong to no partile of the level. -/
def amount : Dimension :=
  ⟨"Orders", .field "amount" .continuous, 0,
    some [⟨4, [.interval Scalar.missing 10 0, .interval 25 Scalar.maxValue 3]⟩], none⟩

def channel : Dimension :=
  ⟨"Orders", .field "channel" .symbol, 0,
    some [⟨2, [.value "web" 0 [], .value "store" 1 ["web"]]⟩], none⟩

/-- The orders of customers, cut by amount and channel, with the tables of the axes. -/
def byAmountAndChannel (cells : List Cells) : Partition :=
  ⟨"Orders", "Customer", "Orders", [⟨0, 4⟩, ⟨1, 2⟩], [], 0, none, none, cells⟩

def space (cells : List Cells) : Space := ⟨[amount, channel], [byAmountAndChannel cells]⟩

/-- Three cells of amounts, the middle one a gap, and two of channels. -/
def tables : List Cells := [⟨3, [(0, 0), (3, 2)]⟩, ⟨2, [(0, 0), (1, 1)]⟩]

theorem describe_space : ∃ φ, (space []).describe 0 = .ok (φ, space tables) := by
  have htables : ((space []).descriptor 0).toOption.map (·.2) = some tables := by decide +kernel
  unfold Space.describe
  cases hdescriptor : (space []).descriptor 0 with
  | error e =>
    rw [hdescriptor] at htables
    cases htables
  | ok d =>
    obtain ⟨φ, cells⟩ := d
    rw [hdescriptor] at htables
    obtain rfl : cells = tables := Option.some.inj htables
    exact ⟨φ, rfl⟩

end Orders

/-- Of the six keys of orders by amount and channel, four decode; the part of large amounts in
stores has the last one, and the second is that of the gap. -/
theorem orders_keys :
    (Orders.space Orders.tables).key ⟨0, [3, 1]⟩ = .ok 6 ∧
      (Orders.space Orders.tables).ofKey 0 6 = .ok [3, 1] ∧
      (¬∃ indexes, (Orders.space Orders.tables).ofKey 0 2 = .ok indexes) ∧
      {key | ∃ indexes, (Orders.space Orders.tables).ofKey 0 key = .ok indexes}.encard = 4 ∧
      (Orders.space Orders.tables).actualSize? 0 = some 4 := by
  have hp : (Orders.space Orders.tables).partitions[0]? =
      some (Orders.byAmountAndChannel Orders.tables) := rfl
  obtain ⟨encode, -, isOk, count, size⟩ :=
    Space.key_correspondence hp (by decide : ∀ c ∈ Orders.tables, c.OneToOne) (by decide)
  obtain ⟨φ, hdescribe⟩ := Orders.describe_space
  obtain ⟨key, hkey, -, -, hdecoded⟩ := encode [3, 1] (.cons ⟨2, by decide⟩ (.cons ⟨1, by decide⟩ .nil))
  have hsix : (Orders.space Orders.tables).key ⟨0, [3, 1]⟩ = .ok 6 := rfl
  obtain rfl : key = 6 := Except.ok.inj (hkey.symm.trans hsix)
  refine ⟨hkey, hdecoded, fun h => ?_, count, size _ φ hdescribe (by decide +kernel)⟩
  -- the cell of the second key on the first axis is the gap
  obtain ⟨-, -, hanalysed⟩ := (isOk 2).mp h
  obtain ⟨index, hindex⟩ := (List.forall₂_cons.mp hanalysed).1
  have hgap : 1 ∉ [(0, 0), (3, 2)].map (·.2) := by decide
  exact hgap (List.mem_map_of_mem (f := (·.2)) hindex)

end FeatureSynth
