/-
# Fields at the tail

A build puts its own fields behind those that were there, and then orders them by moves to
the tail.  A field that is moved changes places with those behind it only, so what is moved
one after the other stands at the tail in just that order, and everything else stands in
front of it in the order it had.

That a class is prolonged says it in the terms of a build: the fields it had come first, as
they were, and behind them comes a tail under names of its own.
-/
import Mathlib.Data.List.Nodup
import FeatureSynth.Proofs.Schema.Later
import FeatureSynth.Proofs.Schema.WellFormed

namespace FeatureSynth

namespace Entity

/-! ## One move -/

/-- If there is one such element at most, it is the tail. -/
theorem firstToTail_eq_filter {α : Type} {p : α → Bool} : ∀ {l : List α},
    (l.filter p).length ≤ 1 → firstToTail p l = l.filter (!p ·) ++ l.filter p
  | [], _ => rfl
  | x :: xs, h => by
      rw [firstToTail]
      by_cases hx : p x = true
      · rw [List.filter_cons_of_pos hx, List.length_cons] at h
        have hnone : xs.filter p = [] := List.length_eq_zero_iff.mp (by omega)
        have hrest : xs.filter (!p ·) = xs := List.filter_eq_self.mpr fun y hy => by
          simpa using List.filter_eq_nil_iff.mp hnone y hy
        simp [hx, hnone, hrest]
      · rw [List.filter_cons_of_neg hx] at h
        simp [hx, firstToTail_eq_filter h]

/-- Of different names one at most is a given one. -/
theorem filter_name {l : List Field} (hnodup : (l.map (·.name)).Nodup) {n : String} :
    (l.filter (·.name == n)).map (·.name) = if n ∈ l.map (·.name) then [n] else [] := by
  have hmap : (l.filter (·.name == n)).map (·.name) = (l.map (·.name)).filter (· == n) := by
    rw [List.filter_map]
    rfl
  rw [hmap, List.filter_beq]
  split
  · rename_i hmem
    rw [List.count_eq_one_of_mem hnodup hmem, List.replicate_one]
  · rename_i hmem
    rw [List.count_eq_zero_of_not_mem hmem, List.replicate_zero]

variable {e e' : Entity} {names : List String} {n : String}

theorem fields_moveFieldToTail (hnodup : (e.fields.map (·.name)).Nodup) (n : String) :
    (e.moveFieldToTail n).fields =
      e.fields.filter (!·.name == n) ++ e.fields.filter (·.name == n) := by
  refine firstToTail_eq_filter ?_
  have hlength := congrArg List.length (filter_name hnodup (n := n))
  rw [List.length_map] at hlength
  rw [hlength]
  split <;> simp

/-! ## Moves in a row -/

/-- The entity with the fields of some names moved to the tail, one after the other. -/
def moveAll (e : Entity) (names : List String) : Entity := names.foldl moveFieldToTail e

@[simp] theorem moveAll_nil (e : Entity) : e.moveAll [] = e := rfl

@[simp] theorem moveAll_cons (e : Entity) (n : String) (names : List String) :
    e.moveAll (n :: names) = (e.moveFieldToTail n).moveAll names := rfl

@[simp] theorem name_moveAll (e : Entity) (names : List String) : (e.moveAll names).name = e.name := by
  induction names generalizing e with
  | nil => rfl
  | cons n names ih => exact ih (e.moveFieldToTail n)

theorem moveAll_perm (e : Entity) (names : List String) :
    (e.moveAll names).fields.Perm e.fields := by
  induction names generalizing e with
  | nil => exact .refl _
  | cons n names ih => exact (ih (e.moveFieldToTail n)).trans (e.moveFieldToTail_perm n)

/-- What is moved stands at the tail in the order of the moves, and all else in front of it in the
order it had. -/
theorem fields_moveAll (hnodup : (e.fields.map (·.name)).Nodup) (hnames : names.Nodup) :
    (e.moveAll names).fields =
      e.fields.filter (·.name ∉ names) ++ names.flatMap fun n => e.fields.filter (·.name == n) := by
  induction names generalizing e with
  | nil => simp
  | cons n names ih =>
    obtain ⟨hn, hnames⟩ := List.nodup_cons.mp hnames
    have hnodup' : ((e.moveFieldToTail n).fields.map (·.name)).Nodup :=
      (((e.moveFieldToTail_perm n).map _).nodup_iff).mpr hnodup
    rw [moveAll_cons, ih hnodup' hnames, fields_moveFieldToTail hnodup, List.flatMap_cons]
    have hfront : (e.fields.filter (!·.name == n) ++ e.fields.filter (·.name == n)).filter
        (·.name ∉ names) = e.fields.filter (·.name ∉ n :: names) ++
          e.fields.filter (·.name == n) := by
      rw [List.filter_append, List.filter_filter, List.filter_filter]
      congr 1
      · refine List.filter_congr fun f _ => ?_
        by_cases hf : f.name = n <;> simp [hf]
      · refine List.filter_congr fun f _ => ?_
        by_cases hf : f.name = n <;> simp [hf, hn]
    have htail : ∀ m ∈ names,
        (e.fields.filter (!·.name == n) ++ e.fields.filter (·.name == n)).filter (·.name == m) =
          e.fields.filter (·.name == m) := by
      intro m hm
      have hne : m ≠ n := fun heq => hn (heq ▸ hm)
      rw [List.filter_append, List.filter_filter, List.filter_filter]
      have hnone : e.fields.filter (fun f => f.name == m && f.name == n) = [] := by
        refine List.filter_eq_nil_iff.mpr fun f _ h => ?_
        simp only [Bool.and_eq_true, beq_iff_eq] at h
        exact hne (h.1.symm.trans h.2)
      rw [hnone, List.append_nil]
      refine List.filter_congr fun f _ => ?_
      by_cases hf : f.name = m <;> simp [hf, hne]
    rw [hfront, List.flatMap_congr htail, List.append_assoc]

/-! ## Prolonged entities -/

/-- An entity with the fields of another in front, as they were, and a tail under other names. -/
structure ProlongedBy (e e' : Entity) (tail : List Field) : Prop where
  cores_eq : e'.cores = e.cores ++ tail
  nodup : (e'.fields.map (·.name)).Nodup

variable {tail : List Field}

theorem prolongedBy_nil (h : e.names.Nodup) : e.ProlongedBy e [] where
  cores_eq := (List.append_nil _).symm
  nodup := (List.nodup_append.mp h).1

namespace ProlongedBy

theorem names_eq (h : e.ProlongedBy e' tail) :
    e'.fields.map (·.name) = e.fields.map (·.name) ++ tail.map (·.name) := by
  rw [← map_name_cores, h.cores_eq, List.map_append, map_name_cores]

/-- The tail has names of its own. -/
theorem not_mem_tail (h : e.ProlongedBy e' tail) (hn : n ∈ e.fields.map (·.name)) :
    n ∉ tail.map (·.name) := by
  have hnodup := h.nodup
  rw [h.names_eq] at hnodup
  exact fun htail => (List.nodup_append.mp hnodup).2.2 n hn n htail rfl

/-- Marks and costs do not matter. -/
theorem of_cores {e'' : Entity} (h : e.ProlongedBy e' tail) (hcores : e''.cores = e'.cores) :
    e.ProlongedBy e'' tail where
  cores_eq := hcores.trans h.cores_eq
  nodup := by
    rw [← map_name_cores, hcores, map_name_cores]
    exact h.nodup

/-- A field of a new name makes the tail longer. -/
theorem insertField {f : Field} (h : e.ProlongedBy e' tail) (hf : f.name ∉ e'.names) :
    e.ProlongedBy (e'.insertField f) (tail ++ [f.core]) where
  cores_eq := by
    rw [← List.append_assoc, ← h.cores_eq]
    exact List.map_append
  nodup := by
    simp only [Entity.insertField, List.map_append, List.map_cons, List.map_nil]
    refine h.nodup.append (List.nodup_singleton _) ?_
    intro m hm hm'
    rw [List.mem_singleton.mp hm'] at hm
    exact hf (List.mem_append_left _ hm)

/-- Fields of the tail that are moved stand at its end, in the order of the moves. -/
theorem moveAll (h : e.ProlongedBy e' tail) (hnames : names.Nodup)
    (hsub : ∀ n ∈ names, n ∈ tail.map (·.name)) : ∃ tail', e.ProlongedBy (e'.moveAll names) tail' ∧
      tail'.map (·.name) = (tail.map (·.name)).filter (· ∉ names) ++ names ∧ tail'.Perm tail := by
  let moved := (names.flatMap fun n => e'.fields.filter (·.name == n)).map Field.core
  have hfront : e.cores.filter (·.name ∉ names) = e.cores := by
    refine List.filter_eq_self.mpr fun f hf => ?_
    have hname : f.name ∈ e.fields.map (·.name) := by
      rw [← map_name_cores]
      exact List.mem_map_of_mem hf
    simpa using fun hmem => h.not_mem_tail hname (hsub _ hmem)
  have hcores : (e'.moveAll names).cores = e.cores ++ (tail.filter (·.name ∉ names) ++ moved) := by
    have hfilter : (e'.fields.filter (·.name ∉ names)).map Field.core =
        e'.cores.filter (·.name ∉ names) := by
      rw [cores, List.filter_map]
      rfl
    rw [cores, fields_moveAll h.nodup hnames, List.map_append, hfilter, h.cores_eq, List.filter_append,
      hfront, List.append_assoc]
  have hmoved : moved.map (·.name) = names := by
    have hone : ∀ n ∈ names, (e'.fields.filter (·.name == n)).map (·.name) = [n] := by
      intro n hn
      rw [filter_name h.nodup, if_pos]
      rw [h.names_eq]
      exact List.mem_append_right _ (hsub n hn)
    simp only [moved, List.map_map, List.map_flatMap]
    exact (List.flatMap_congr hone).trans (List.flatMap_singleton' names)
  refine ⟨_, ⟨hcores, ?_⟩, ?_, ?_⟩
  · exact (((e'.moveAll_perm names).map _).nodup_iff).mpr h.nodup
  · rw [List.map_append, hmoved]
    congr 1
    rw [List.filter_map]
    rfl
  · have hperm := (e'.moveAll_perm names).map Field.core
    rw [show (e'.moveAll names).fields.map Field.core = _ from hcores,
      show e'.fields.map Field.core = _ from h.cores_eq] at hperm
    exact (List.perm_append_left_iff _).mp hperm

end ProlongedBy

end Entity

end FeatureSynth
