/-
# Links settle

Where blocks are built, a partition is linked to two names of the schema in work:
the field that holds its descriptor and the block of its parts.  Each link is set
once and stays, and the cells that keys are computed from are fixed with the first.
So what is built on a link, the formula of the block and the keys in it, is the
same at the end as it was when it was built.
-/
import FeatureSynth.Proofs.Space.Lawful
import FeatureSynth.Proofs.Space.Uses
import FeatureSynth.Space.Descriptor

namespace FeatureSynth

/-- A partition before and after: links that were set are as they were, and so are the cells, once
they were described. -/
structure Partition.Settles (p p' : Partition) : Prop where
  cut : p'.cut = p.cut
  costs : p'.costs = p.costs
  described : ∀ P, p.descriptorField = some P → p'.descriptorField = some P ∧ p'.cells = p.cells
  tabled : ∀ T, p.tableBlock = some T → p'.tableBlock = some T

namespace Partition.Settles

variable {p p' p'' : Partition}

protected theorem refl (p : Partition) : p.Settles p :=
  ⟨rfl, rfl, fun _ h => ⟨h, rfl⟩, fun _ h => h⟩

protected theorem trans (h : p.Settles p') (h' : p'.Settles p'') : p.Settles p'' where
  cut := h'.cut.trans h.cut
  costs := h'.costs.trans h.costs
  described := by
    intro P hP
    obtain ⟨hP', hcells⟩ := h.described P hP
    obtain ⟨hP'', hcells'⟩ := h'.described P hP'
    exact ⟨hP'', hcells'.trans hcells⟩
  tabled := fun T hT => h'.tabled T (h.tabled T hT)

theorem parentClass (h : p.Settles p') : p'.parentClass = p.parentClass :=
  congrArg (·.2.1) h.cut

theorem table (h : p.Settles p') : p'.table = p.table := congrArg (·.2.2.1) h.cut

theorem axes (h : p.Settles p') : p'.axes = p.axes := congrArg (·.2.2.2) h.cut

end Partition.Settles

namespace Space

/-- A space before and after partitions settle. -/
structure Settles (s s' : Space) : Prop where
  dimensions : s'.dimensions = s.dimensions
  length : s'.partitions.length = s.partitions.length
  partition : ∀ (k : Nat) (p : Partition), s.partitions[k]? = some p →
    ∃ p', s'.partitions[k]? = some p' ∧ p.Settles p'

namespace Settles

variable {s s' s'' : Space}

protected theorem refl (s : Space) : Settles s s := ⟨rfl, rfl, fun _ p hp => ⟨p, hp, .refl p⟩⟩

protected theorem trans (h : Settles s s') (h' : Settles s' s'') : Settles s s'' where
  dimensions := h'.dimensions.trans h.dimensions
  length := h'.length.trans h.length
  partition := by
    intro k p hp
    obtain ⟨p', hp', hsettles⟩ := h.partition k p hp
    obtain ⟨p'', hp'', hsettles'⟩ := h'.partition k p' hp'
    exact ⟨p'', hp'', hsettles.trans hsettles'⟩

theorem of_modify {k : Nat} {change : Partition → Partition}
    (h : ∀ p, s.partitions[k]? = some p → p.Settles (change p)) :
    Settles s (s.modifyPartition k change) where
  dimensions := rfl
  length := List.length_modify _ _ _
  partition := by
    intro j p hp
    by_cases hj : k = j
    · subst hj
      exact ⟨change p, by simp [modifyPartition, hp], h p hp⟩
    · exact ⟨p, by simp [modifyPartition, hj, hp], .refl p⟩

theorem sameCuts (h : Settles s s') : SameCuts s s' := by
  have hmap : ∀ {α : Type} (f : Partition → α), (∀ p p', p.Settles p' → f p' = f p) →
      s'.partitions.map f = s.partitions.map f := by
    intro α f hf
    refine List.ext_getElem? fun k => ?_
    rw [List.getElem?_map, List.getElem?_map]
    cases hp : s.partitions[k]? with
    | none =>
      have hk := h.length ▸ List.getElem?_eq_none_iff.mp hp
      rw [List.getElem?_eq_none hk]
    | some p =>
      obtain ⟨p', hp', hsettles⟩ := h.partition k p hp
      rw [hp', Option.map_some, Option.map_some, hf p p' hsettles]
  refine ⟨?_, hmap _ fun p p' h => h.costs⟩
  rw [Space.frame, Space.frame, h.dimensions]
  exact congrArg (Prod.mk _) (hmap _ fun p p' h => h.cut)

/-! ## What is built on links -/

theorem axisDescriptor_eq (h : Settles s s') : s'.axisDescriptor = s.axisDescriptor := by
  funext a
  rw [axisDescriptor, axisDescriptor, h.dimensions]

/-- The descriptor looks at no links. -/
theorem descriptor_eq (h : Settles s s') (k : Nat) : s'.descriptor k = s.descriptor k := by
  unfold descriptor
  rw [h.axisDescriptor_eq]
  cases hp : s.partitions[k]? with
  | none =>
    have hk := h.length ▸ List.getElem?_eq_none_iff.mp hp
    rw [List.getElem?_eq_none hk]
  | some p =>
    obtain ⟨p', hp', hsettles⟩ := h.partition k p hp
    rw [hp', Option.map_some, Option.map_some, hsettles.axes]

/-- The formula of a block of parts is fixed with the descriptor field. -/
theorem tableBlockFormula_eq (h : Settles s s') {k : Nat} {φ : Formula}
    (hφ : s.tableBlockFormula k = .ok φ) : s'.tableBlockFormula k = .ok φ := by
  unfold tableBlockFormula at hφ ⊢
  cases hp : s.partitions[k]? with
  | none =>
    rw [hp] at hφ
    cases hφ
  | some p =>
    obtain ⟨p', hp', hsettles⟩ := h.partition k p hp
    rw [hp] at hφ
    rw [hp']
    cases hP : p.descriptorField with
    | none =>
      simp only [hP] at hφ
      cases hφ
    | some P =>
      simp only [hP] at hφ
      simp only [(hsettles.described P hP).1, hsettles.table, hsettles.axes, h.dimensions]
      exact hφ

/-- Keys are fixed with the descriptor field. -/
theorem key_eq (h : Settles s s') {part : Part} {p : Partition} {P : String}
    (hp : s.partitions[part.partition]? = some p) (hP : p.descriptorField = some P) :
    s'.key part = s.key part := by
  obtain ⟨p', hp', hsettles⟩ := h.partition part.partition p hp
  simp only [key, hp, hp', (hsettles.described P hP).2, hsettles.table]

end Settles

/-- The field that a dimension is bound to stands for an axis along it. -/
def BoundTo (s : Space) (a : Axis) (x : Operand) : Prop :=
  ∃ d name, s.dimensions[a.dimension]? = some d ∧ d.selectionField = some name ∧ x = .field name

theorem forall₂_of_mapM {ε α β : Type} {f : α → Except ε β} : ∀ {xs : List α} {ys : List β},
    xs.mapM f = .ok ys → List.Forall₂ (fun x y => f x = .ok y) xs ys
  | [], ys, h => by
      cases h
      exact .nil
  | x :: xs, ys, h => by
      rw [List.mapM_cons] at h
      cases hx : f x with
      | error e =>
        rw [hx] at h
        cases h
      | ok y =>
        cases hxs : xs.mapM f with
        | error e =>
          rw [hx, hxs] at h
          cases h
        | ok zs =>
          rw [hx, hxs] at h
          cases h
          exact .cons hx (forall₂_of_mapM hxs)

/-- The formula of a block of parts: the table, the field of the descriptor, and the fields that
dimensions are bound to. -/
theorem tableBlockFormula_eq_ok {s : Space} {rank : Nat} {φ : Formula} {p : Partition}
    (hp : s.partitions[rank]? = some p) (h : s.tableBlockFormula rank = .ok φ) :
    ∃ P xs, p.descriptorField = some P ∧ List.Forall₂ s.BoundTo p.axes xs ∧
      φ = ⟨"TablePartition", .field p.table :: .field P :: xs⟩ := by
  unfold tableBlockFormula at h
  rw [hp] at h
  cases hP : p.descriptorField with
  | none =>
    simp only [hP] at h
    cases h
  | some P =>
    simp only [hP] at h
    generalize hfields : List.mapM (m := Except BuildError) _ p.axes = fields at h
    cases fields with
    | error e => cases h
    | ok xs =>
      cases h
      refine ⟨P, xs, rfl, (forall₂_of_mapM hfields).imp fun a x hx => ?_, rfl⟩
      split at hx
      · rename_i name hname
        cases hx
        obtain ⟨d, hd, hname⟩ := Option.bind_eq_some_iff.mp hname
        exact ⟨d, name, hd, hname, rfl⟩
      · cases hx

/-- To describe a partition is to keep the cells of its axes. -/
theorem describe_eq_ok {s s' : Space} {rank : Nat} {φ : Formula}
    (h : s.describe rank = .ok (φ, s')) :
    ∃ cells, s.descriptor rank = .ok (φ, cells) ∧
      s.modifyPartition rank (fun p => { p with cells }) = s' := by
  unfold describe at h
  cases hd : s.descriptor rank with
  | error e =>
    rw [hd] at h
    cases h
  | ok d =>
    rw [hd] at h
    cases h
    exact ⟨_, rfl, rfl⟩

theorem describe_of_descriptor {s : Space} {rank : Nat} {φ : Formula} {cells : List Cells}
    (h : s.descriptor rank = .ok (φ, cells)) :
    s.describe rank = .ok (φ, s.modifyPartition rank fun p => { p with cells }) := by
  rw [describe, h]
  rfl

theorem name_of_descriptor {s : Space} {rank : Nat} {φ : Formula} {cells : List Cells}
    (h : s.descriptor rank = .ok (φ, cells)) : φ.name = "Partition" := by
  unfold descriptor at h
  dsimp only at h
  cases hd : ((s.partitions[rank]?.map (·.axes)).getD []).mapM s.axisDescriptor with
  | error e =>
    rw [hd] at h
    cases h
  | ok described =>
    rw [hd] at h
    cases h
    rfl

/-! ## Before any link is set -/

/-- No partition is linked. -/
def Unlinked (s : Space) : Prop :=
  ∀ p ∈ s.partitions, p.descriptorField = none ∧ p.tableBlock = none

section Unlinked

variable {s s' : Space}

theorem unlinked_clearLinks (s : Space) : s.clearLinks.Unlinked := by
  intro p hp
  obtain ⟨q, -, rfl⟩ := List.mem_map.mp hp
  exact ⟨rfl, rfl⟩

theorem sameCuts_clearLinks (s : Space) : SameCuts s s.clearLinks := by
  refine ⟨frame_clearLinks s, ?_⟩
  simp [clearLinks, Partition.costs, Function.comp_def]

theorem unlinked_of_reset (h : s'.resetUses = s.resetUses) (hs : s.Unlinked) : s'.Unlinked := by
  have hlinks : ∀ t : Space, t.Unlinked ↔ t.resetUses.Unlinked := by
    intro t
    simp [Unlinked, resetUses]
  exact (hlinks s').mpr (h ▸ (hlinks s).mp hs)

theorem sameCuts_of_reset (h : s'.resetUses = s.resetUses) : SameCuts s s' := by
  have hcosts : ∀ t : Space,
      t.resetUses.partitions.map Partition.costs = t.partitions.map Partition.costs := by
    intro t
    simp [resetUses, Partition.costs, Function.comp_def]
  exact ⟨frame_of_reset h, by rw [← hcosts s', h, hcosts]⟩

end Unlinked

end Space

end FeatureSynth
