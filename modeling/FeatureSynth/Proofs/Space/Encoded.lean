/-
# Selecting and encoding

A part is used in two ways.  Records are selected by its criterion, for which each index is
searched among the partiles of its axis; or they are looked up under its key, for which the whole
levels of the axes are described first and each index is looked up among their cells.

What can be selected can be encoded, whatever the levels hold: the search finds a partile only of
the kind of the dimension, and every such partile of the level is given a cell.  Cells are numbered
below the count of their axis where a level holds partiles of one kind only, so there keys stay in
range; groups are counted without the intervals that may stand among them, which are numbered
nevertheless.

Rules that resolve are those that have a formula.
-/
import FeatureSynth.Proofs.Space.Costs
import FeatureSynth.Proofs.Space.Located

namespace FeatureSynth

/-! ## Cells in range -/

namespace Cells

/-- Every cell in the table of an axis is one of those counted. -/
def InRange (c : Cells) : Prop := ∀ e ∈ c.cellOf, e.2 < c.count

theorem of_mem_insert {index cell : Nat} {e : Nat × Nat} : ∀ {l : List (Nat × Nat)},
    e ∈ insert index cell l → e.2 = cell ∨ e ∈ l
  | [], h => .inl (congrArg Prod.snd (List.mem_singleton.mp h))
  | x :: rest, h => by
      unfold insert at h
      split at h
      · rcases List.mem_cons.mp h with rfl | h
        · exact .inl rfl
        · exact .inr h
      · rcases List.mem_cons.mp h with rfl | h
        · exact .inl rfl
        · exact .inr (List.mem_cons_of_mem _ h)
      · rcases List.mem_cons.mp h with rfl | h
        · exact .inr List.mem_cons_self
        · exact (of_mem_insert h).imp_right (List.mem_cons_of_mem _)

theorem of_mem_foldl_insert {e : Nat × Nat} : ∀ {entries l : List (Nat × Nat)},
    e ∈ entries.foldl (fun cells x => insert x.1 x.2 cells) l →
      (∃ x ∈ entries, e.2 = x.2) ∨ e ∈ l
  | [], _, h => .inr h
  | x :: entries, l, h => by
      rw [List.foldl_cons] at h
      rcases of_mem_foldl_insert h with ⟨y, hy, heq⟩ | h
      · exact .inl ⟨y, List.mem_cons_of_mem _ hy, heq⟩
      · exact (of_mem_insert h).imp_left fun heq => ⟨x, List.mem_cons_self, heq⟩

end Cells

namespace Bounds

/-- No cell lies above the last bound. -/
def InRange (b : Bounds) : Prop := ∀ e ∈ b.cellOf, e.2 ≤ b.bounds.length

/-- More bounds, and one more cell among them. -/
theorem exists_add (b : Bounds) (lower upper : Float) (index : Nat) :
    ∃ cell, (b.add (.interval lower upper index)).cellOf = Cells.insert index cell b.cellOf ∧
      b.bounds.length ≤ (b.add (.interval lower upper index)).bounds.length ∧
      cell ≤ (b.add (.interval lower upper index)).bounds.length := by
  unfold add separateMissing push
  dsimp only
  repeat' split
  all_goals refine ⟨_, rfl, ?_, ?_⟩ <;> simp_all <;> omega

theorem InRange.add {b : Bounds} (h : b.InRange) : ∀ x : Partile, (b.add x).InRange
  | .value .. => h
  | .interval lower upper index => by
      obtain ⟨cell, hcells, hbounds, hcell⟩ := b.exists_add lower upper index
      intro e he
      rw [hcells] at he
      rcases Cells.of_mem_insert he with heq | he
      · exact heq ▸ hcell
      · exact (h e he).trans hbounds

theorem InRange.foldl_add {b : Bounds} (h : b.InRange) (partiles : List Partile) :
    (partiles.foldl Bounds.add b).InRange :=
  List.foldlRecOn partiles _ h fun _ h x _ => h.add x

end Bounds

theorem inRange_intervalDescriptor (partiles : List Partile) :
    (intervalDescriptor partiles).2.InRange := by
  have hempty : Bounds.empty.InRange := fun e he => absurd he List.not_mem_nil
  exact fun e he => Nat.lt_succ_of_le (hempty.foldl_add partiles e he)

/-- Groups of values are numbered one after the other. -/
theorem groupsFrom_inRange : ∀ {partiles : List Partile} (cell : Nat),
    (∀ x ∈ partiles, x.isOf .symbol = true) → (groupsFrom cell partiles).1.length = partiles.length ∧
      ∀ e ∈ (groupsFrom cell partiles).2, e.2 < cell + partiles.length
  | [], _, _ => ⟨rfl, fun _ he => absurd he List.not_mem_nil⟩
  | .interval .. :: _, _, h => Bool.noConfusion (h _ List.mem_cons_self)
  | .value value index outside :: rest, cell, h => by
      obtain ⟨hlength, hcells⟩ :=
        groupsFrom_inRange (cell + 1) fun x hx => h x (List.mem_cons_of_mem _ hx)
      rw [groupsFrom]
      refine ⟨by simp [hlength], fun e he => ?_⟩
      rw [List.length_cons]
      rcases List.mem_cons.mp he with rfl | he
      · exact Nat.lt_add_of_pos_right (Nat.succ_pos _)
      · have := hcells e he
        omega

theorem inRange_groupDescriptor {partiles : List Partile} (coarser : List (List Partile))
    (h : ∀ x ∈ partiles, x.isOf .symbol = true) :
    (groupDescriptor partiles coarser).2.InRange := by
  obtain ⟨hlength, hcells⟩ := groupsFrom_inRange 0 h
  intro e he
  rcases Cells.of_mem_foldl_insert he with ⟨x, hx, heq⟩ | he
  · have hx := hcells x hx
    rw [heq]
    unfold groupDescriptor
    dsimp only
    split
    · omega
    · rw [List.length_append]
      omega
  · cases he

namespace Space

variable {s s' : Space} {part : Part}

/-! ## Keys in range -/

/-- The level that an axis is cut by holds partiles of the kind of its dimension. -/
def LevelOfKind (s : Space) (a : Axis) : Prop :=
  ∀ d ∈ s.dimensions[a.dimension]?, ∀ levels ∈ d.levels, ∀ position ∈ levels.position? a.granularity,
    ∀ x ∈ levels.partilesAt position, x.isOf d.kind = true

instance (s : Space) (a : Axis) : Decidable (s.LevelOfKind a) :=
  inferInstanceAs (Decidable (∀ d ∈ s.dimensions[a.dimension]?, ∀ levels ∈ d.levels,
    ∀ position ∈ levels.position? a.granularity, ∀ x ∈ levels.partilesAt position,
      x.isOf d.kind = true))

theorem inRange_axisDescriptor {a : Axis} {φ : Formula} {c : Cells}
    (h : s.axisDescriptor a = .ok (φ, c)) (hkind : s.LevelOfKind a) : c.InRange := by
  unfold axisDescriptor at h
  split at h
  · cases h
  · rename_i d hd
    split at h
    · cases h
    · rename_i levels hlevels
      split at h
      · cases h
      · rename_i position hposition
        have hof := hkind d hd levels hlevels position hposition
        dsimp only at h
        split at h
        · cases h
          exact inRange_intervalDescriptor _
        · rename_i hsymbol
          cases h
          exact inRange_groupDescriptor _ fun x hx => hsymbol ▸ hof x hx
        · cases h

theorem inRange_of_described : ∀ {axes : List Axis} {described : List (Formula × Cells)},
    List.Forall₂ (fun a y => s.axisDescriptor a = .ok y) axes described →
      (∀ a ∈ axes, s.LevelOfKind a) → ∀ c ∈ described.map (·.2), c.InRange
  | [], _, .nil, _, c, hc => absurd hc List.not_mem_nil
  | a :: axes, y :: described, .cons hy hrest, hkinds, c, hc => by
      rcases List.mem_cons.mp hc with rfl | hc
      · exact inRange_axisDescriptor hy (hkinds a List.mem_cons_self)
      · exact inRange_of_described hrest (fun b hb => hkinds b (List.mem_cons_of_mem _ hb)) c hc

/-- Cells in range have numbers in range. -/
theorem cellNumber_lt : ∀ {cells : List Cells} {indexes : List Nat} {number : Nat},
    (∀ c ∈ cells, c.InRange) → (∀ c ∈ cells, 0 < c.count) →
      cellNumber cells indexes = .ok number → number < cellCount cells
  | [], _, _, _, _, h => by
      cases h
      exact Nat.one_pos
  | c :: cells, [], _, _, hpositive, h => by
      cases h
      exact List.prod_pos fun n hn => by
        obtain ⟨c', hc', rfl⟩ := List.mem_map.mp hn
        exact hpositive c' hc'
  | c :: cells, index :: indexes, _, hrange, hpositive, h => by
      rw [cellNumber] at h
      cases hcell : c.cellOf.lookup index with
      | none =>
        rw [hcell] at h
        cases h
      | some cell =>
        rw [hcell] at h
        dsimp only at h
        cases hrest : cellNumber cells indexes with
        | error e =>
          rw [hrest] at h
          cases h
        | ok number =>
          rw [hrest] at h
          cases h
          have hlt : number < cellCount cells :=
            cellNumber_lt (fun c hc => hrange c (List.mem_cons_of_mem _ hc))
              (fun c hc => hpositive c (List.mem_cons_of_mem _ hc)) hrest
          have hcount : cell < c.count := hrange c List.mem_cons_self _ (mem_of_lookup hcell)
          exact digit_add_lt hcount hlt

/-- The described cells of a partition are in range if its levels hold one kind of partiles. -/
theorem inRange_of_descriptor {rank : Nat} {φ : Formula} {cells : List Cells}
    (h : s.descriptor rank = .ok (φ, cells))
    (hkinds : ∀ p, s.partitions[rank]? = some p → ∀ a ∈ p.axes, s.LevelOfKind a) :
    ∀ c ∈ cells, c.InRange := by
  unfold descriptor at h
  dsimp only at h
  cases hdescribed : ((s.partitions[rank]?.map (·.axes)).getD []).mapM s.axisDescriptor with
  | error e =>
    rw [hdescribed] at h
    cases h
  | ok described =>
    rw [hdescribed] at h
    obtain rfl : described.map (·.2) = cells := congrArg Prod.snd (Except.ok.inj h)
    refine inRange_of_described (forall₂_of_mapM hdescribed) fun a ha => ?_
    cases hp : s.partitions[rank]? with
    | none =>
      rw [hp] at ha
      cases ha
    | some p =>
      rw [hp, Option.map_some, Option.getD_some] at ha
      exact hkinds p hp a ha

/-! ## Selecting and encoding -/

/-- A resolved part can be encoded: its partition is described, and then the part has a key, within
the number of cells where no level mixes kinds and the cells can be numbered. -/
theorem Resolved.encoded (h : s.Resolved part) :
    ∃ φ s' p key, s.describe part.partition = .ok (φ, s') ∧
      s'.partitions[part.partition]? = some p ∧ s'.key part = .ok key ∧
      ((∀ a ∈ p.axes, s.LevelOfKind a) → cellCount p.cells < keyBound →
        1 ≤ key ∧ key ≤ cellCount p.cells) := by
  obtain ⟨p, hp, -⟩ := h.shaped
  obtain ⟨φ, cells, hφ⟩ := h.exists_descriptor
  obtain ⟨hlength, hpositive, number, hnumber⟩ := h.exists_cellNumber hφ
  have hp' : (s.modifyPartition part.partition fun p => { p with cells }).partitions[part.partition]?
      = some { p with cells } := by
    rw [modifyPartition, List.getElem?_modify_eq, hp]
    rfl
  refine ⟨φ, _, _, _, describe_of_descriptor hφ, hp',
    key_eq_of_cellNumber hp' hlength hpositive hnumber, fun hkinds hbound => ?_⟩
  have hrange : ∀ c ∈ cells, c.InRange := inRange_of_descriptor hφ fun q hq => by
    obtain rfl : p = q := Option.some.inj (hp.symm.trans hq)
    exact hkinds
  have hlt : number < cellCount cells := cellNumber_lt hrange hpositive hnumber
  rw [Nat.mod_eq_of_lt (Nat.lt_of_le_of_lt hlt hbound)]
  exact ⟨Nat.succ_pos _, hlt⟩

/-- The rules that resolve are those that have a formula. -/
theorem resolves_eq (s : Space) : s.resolves = fun r => (s.formula r).isOk :=
  funext fun r => (Rule.formulaWith_isOk r).symm

/-- A part that is there and can be selected can be encoded, whatever the levels hold: its partition
is described and the part has a key then, which is within the number of cells where no level mixes
kinds and the cells can be numbered.  The rules kept because they resolve are those, in order, that
have a formula. -/
theorem selected_encoded (hs : s.PartsFit) :
    (∀ part, (s.part? part).isSome = true → (s.partFormula part).isOk = true →
      ∃ φ s' p key, s.describe part.partition = .ok (φ, s') ∧
        s'.partitions[part.partition]? = some p ∧ s'.key part = .ok key ∧
        ((∀ a ∈ p.axes, s.LevelOfKind a) → cellCount p.cells < keyBound →
          1 ≤ key ∧ key ≤ cellCount p.cells)) ∧
    ∀ rules : List Rule, rules.filter s.resolves = rules.filter fun r => (s.formula r).isOk :=
  ⟨fun _ hpart hok => (resolved_of_isOk (hs.shaped hpart) hok).encoded,
    fun rules => by rw [resolves_eq]⟩

end Space

namespace Orders

/-- The part of large amounts in stores is kept, and so is one of amounts that no partile of the
level holds. -/
def kept : Space :=
  { space [] with
    partitions := [{ byAmountAndChannel [] with
      parts := [([1, 1], ⟨0, 1⟩), ([3, 1], ⟨0, 1⟩)] }] }

/-- The number of orders in a part. -/
def count (indexes : List Nat) : Rule :=
  ⟨.tableCount, "Customer",
    [.rule ⟨.tableSelection, "Customer", [.field "Orders" (.objectArray "Orders"),
      .part ⟨0, indexes⟩], 0, 0⟩], 1, 0⟩

end Orders

open Orders in
/-- Large orders in stores can be selected and have a key among six; of the two counts, that of
orders of an amount outside the level is dropped. -/
theorem orders_selected_encoded :
    kept.PartsFit ∧ (kept.part? ⟨0, [3, 1]⟩).isSome = true ∧
      (kept.partFormula ⟨0, [3, 1]⟩).isOk = true ∧
      (∃ φ s' p key, kept.describe 0 = .ok (φ, s') ∧ s'.partitions[0]? = some p ∧
        s'.key ⟨0, [3, 1]⟩ = .ok key ∧
        ((∀ a ∈ p.axes, kept.LevelOfKind a) → Space.cellCount p.cells < Space.keyBound →
          1 ≤ key ∧ key ≤ Space.cellCount p.cells)) ∧
      [count [1, 1], count [3, 1]].filter (fun r => (kept.formula r).isOk) = [count [3, 1]] := by
  have hfit : kept.PartsFit :=
    show ∀ p ∈ kept.partitions, ∀ entry ∈ p.parts, Space.fits p.axes entry.1 = true by decide
  have hpart : (kept.part? ⟨0, [3, 1]⟩).isSome = true := rfl
  have hok : (kept.partFormula ⟨0, [3, 1]⟩).isOk = true := by decide +kernel
  obtain ⟨hencoded, hfilter⟩ := Space.selected_encoded hfit
  refine ⟨hfit, hpart, hok, hencoded _ hpart hok, ?_⟩
  rw [← hfilter]
  have hout : kept.resolves (count [1, 1]) = false := by decide +kernel
  have hin : kept.resolves (count [3, 1]) = true := by decide +kernel
  rw [List.filter_cons_of_neg (by simp [hout]), List.filter_cons_of_pos hin, List.filter_nil]

end FeatureSynth
