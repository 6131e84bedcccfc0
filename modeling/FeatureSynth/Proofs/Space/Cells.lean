/-
# The cells of a descriptor

The table of an axis maps the partile indexes of its level to cells.  It is built
by insertions, one partile after the other, so where the indexes of the level
differ it has one entry per partile, whatever the order: `Cells.insert_perm`.  That
is all that keys and sizes need to know of it.  What the cells mean is another
matter, and is proved of intervals and of groups apart.
-/
import FeatureSynth.Proofs.Registry.Index
import FeatureSynth.Space.Descriptor

namespace FeatureSynth

namespace Cells

/-! ## Tables -/

theorem insert_perm (index cell : Nat) : ∀ {l : List (Nat × Nat)}, index ∉ l.map (·.1) →
    (insert index cell l).Perm ((index, cell) :: l)
  | [], _ => .refl _
  | p :: rest, h => by
      obtain ⟨hp, hrest⟩ := not_or.mp (mt List.mem_cons.mpr h)
      unfold insert
      split
      · exact .refl _
      · rename_i heq
        exact absurd (Std.LawfulEqOrd.eq_of_compare heq) hp
      · exact ((insert_perm index cell hrest).cons p).trans (.swap _ _ _)

/-- Entries under different indexes that no entry has yet are all there in the end. -/
theorem foldl_insert_perm : ∀ {entries l : List (Nat × Nat)},
    ((l ++ entries).map (·.1)).Nodup →
      (entries.foldl (fun cells e => insert e.1 e.2 cells) l).Perm (l ++ entries)
  | [], l, _ => by simp
  | e :: entries, l, h => by
      have hperm : (insert e.1 e.2 l).Perm (e :: l) := by
        refine insert_perm e.1 e.2 fun hmem => ?_
        rw [List.map_append, List.nodup_append] at h
        exact h.2.2 e.1 hmem e.1 (by simp) rfl
      have hnext : (insert e.1 e.2 l ++ entries).Perm (l ++ e :: entries) :=
        (hperm.append_right entries).trans List.perm_middle.symm
      have hnodup : ((insert e.1 e.2 l ++ entries).map (·.1)).Nodup :=
        (hnext.map (·.1)).nodup_iff.mpr h
      rw [List.foldl_cons]
      exact (foldl_insert_perm hnodup).trans hnext

/-- A table that maps indexes to cells below the count, one to one. -/
structure OneToOne (c : Cells) : Prop where
  positive : 0 < c.count
  indexes : (c.cellOf.map (·.1)).Nodup
  cells : (c.cellOf.map (·.2)).Nodup
  bounded : ∀ e ∈ c.cellOf, e.2 < c.count

instance (c : Cells) : Decidable c.OneToOne :=
  decidable_of_iff (0 < c.count ∧ (c.cellOf.map (·.1)).Nodup ∧ (c.cellOf.map (·.2)).Nodup ∧
      ∀ e ∈ c.cellOf, e.2 < c.count)
    ⟨fun ⟨hpos, hindexes, hcells, hlt⟩ => ⟨hpos, hindexes, hcells, hlt⟩,
      fun h => ⟨h.positive, h.indexes, h.cells, h.bounded⟩⟩

namespace OneToOne

variable {c : Cells} {index cell : Nat}

theorem lookup_eq_some (h : c.OneToOne) :
    c.cellOf.lookup index = some cell ↔ (index, cell) ∈ c.cellOf :=
  ⟨mem_of_lookup, lookup_of_mem h.indexes⟩

theorem index?_eq_some (h : c.OneToOne) :
    c.index? cell = some index ↔ (index, cell) ∈ c.cellOf := by
  unfold index?
  rw [Option.map_eq_some_iff]
  constructor
  · rintro ⟨e, hfind, rfl⟩
    have hcell : e.2 = cell := by simpa using List.find?_some hfind
    exact hcell ▸ List.mem_of_find?_eq_some hfind
  · intro hmem
    obtain ⟨l₁, l₂, hl⟩ := List.append_of_mem hmem
    refine ⟨(index, cell), ?_, rfl⟩
    have hnodup := h.cells
    rw [hl, List.map_append, List.nodup_append] at hnodup
    rw [hl, List.find?_append, Option.or_eq_some_iff]
    refine .inr ⟨List.find?_eq_none.mpr fun e he => ?_, by simp⟩
    simpa using hnodup.2.2 e.2 (List.mem_map_of_mem he) cell (by simp)

end OneToOne

end Cells

/-! ## Tables of levels -/

namespace Partile

/-- Whether a partile is a piece of the values of a kind. -/
def isOf : Kind → Partile → Bool
  | .continuous, .interval .. => true
  | .symbol, .value .. => true
  | _, _ => false

end Partile

namespace Bounds

theorem add_cellOf (b : Bounds) (lower upper : Float) (index : Nat) :
    ∃ cell, (b.add (.interval lower upper index)).cellOf = Cells.insert index cell b.cellOf := by
  unfold add separateMissing push
  dsimp only
  repeat' split
  all_goals exact ⟨_, rfl⟩

theorem add_indexes (b : Bounds) (lower upper : Float) {index : Nat}
    (h : index ∉ b.cellOf.map (·.1)) :
    ((b.add (.interval lower upper index)).cellOf.map (·.1)).Perm (b.cellOf.map (·.1) ++ [index]) := by
  obtain ⟨cell, hcell⟩ := add_cellOf b lower upper index
  rw [hcell]
  exact ((Cells.insert_perm index cell h).map (·.1)).trans (List.perm_append_singleton _ _).symm

theorem foldl_add_indexes : ∀ {partiles : List Partile} {b : Bounds},
    (∀ p ∈ partiles, p.isOf .continuous = true) →
    (b.cellOf.map (·.1) ++ partiles.map (·.index)).Nodup →
      ((partiles.foldl add b).cellOf.map (·.1)).Perm (b.cellOf.map (·.1) ++ partiles.map (·.index))
  | [], b, _, _ => by simp
  | .interval lower upper index :: rest, b, hof, hnodup => by
      have hnew : index ∉ b.cellOf.map (·.1) := fun hmem =>
        (List.nodup_append.mp hnodup).2.2 index hmem index (by simp [Partile.index]) rfl
      have hadd := (add_indexes b lower upper hnew).append_right
        (rest.map (·.index))
      rw [List.append_assoc, List.singleton_append] at hadd
      rw [List.foldl_cons]
      exact (foldl_add_indexes (fun p hp => hof p (List.mem_cons_of_mem _ hp))
        (hadd.nodup_iff.mpr hnodup)).trans hadd
  | .value .. :: _, _, hof, _ => Bool.noConfusion (hof _ List.mem_cons_self)

end Bounds

theorem length_intervalDescriptor {partiles : List Partile}
    (hof : ∀ p ∈ partiles, p.isOf .continuous = true) (hnodup : (partiles.map (·.index)).Nodup) :
    (intervalDescriptor partiles).2.cellOf.length = partiles.length := by
  have hperm := (Bounds.foldl_add_indexes (b := .empty) hof hnodup).length_eq
  rwa [List.length_map, List.length_append, List.length_map, List.length_map,
    show Bounds.empty.cellOf.length = 0 from rfl, Nat.zero_add] at hperm

theorem groupsFrom_indexes : ∀ {partiles : List Partile} {cell : Nat},
    (∀ p ∈ partiles, p.isOf .symbol = true) →
      (groupsFrom cell partiles).2.map (·.1) = partiles.map (·.index)
  | [], _, _ => rfl
  | .value _ index _ :: rest, cell, hof => by
      rw [groupsFrom, List.map_cons, List.map_cons,
        groupsFrom_indexes fun p hp => hof p (List.mem_cons_of_mem _ hp)]
      rfl
  | .interval .. :: _, _, hof => Bool.noConfusion (hof _ List.mem_cons_self)

/-- The table of groups has the entries that the groups were numbered by. -/
theorem groupDescriptor_cells {partiles : List Partile} (coarser : List (List Partile))
    (hof : ∀ p ∈ partiles, p.isOf .symbol = true) (hnodup : (partiles.map (·.index)).Nodup) :
    (groupDescriptor partiles coarser).2.cellOf.Perm (groupsFrom 0 partiles).2 :=
  Cells.foldl_insert_perm (l := []) (by rwa [List.nil_append, groupsFrom_indexes hof])

theorem length_groupDescriptor {partiles : List Partile} (coarser : List (List Partile))
    (hof : ∀ p ∈ partiles, p.isOf .symbol = true) (hnodup : (partiles.map (·.index)).Nodup) :
    (groupDescriptor partiles coarser).2.cellOf.length = partiles.length := by
  rw [(groupDescriptor_cells coarser hof hnodup).length_eq, ← List.length_map (f := (·.1)),
    groupsFrom_indexes hof, List.length_map]

end FeatureSynth
