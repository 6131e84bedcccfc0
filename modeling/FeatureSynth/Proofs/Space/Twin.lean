/-
# Spaces that builds do not tell apart

A build leaves more in a space than it found there: use counts, the fields that
dimensions are bound to, the links of partitions, and the cells that keys are
computed from.  All of it is set up anew by the next build, before it is looked at.
Cells are the one thing that is not wiped at the start: those of a former build stay
until a partition is described again.

Two spaces are *twins* if they differ at most in the uses of parts and in such cells.
A build that starts from one does the same as a build that starts from the other.
-/
import FeatureSynth.Proofs.Space.Blocks
import FeatureSynth.Proofs.Space.Links
import FeatureSynth.Proofs.Space.Reached

namespace FeatureSynth

namespace Space

/-- Two spaces that differ in nothing a build looks at: each settles from the other. -/
structure Twin (s t : Space) : Prop where
  there : s.Settles t
  back : t.Settles s

/-- A space without what builds leave in it, cells apart. -/
def bare (s : Space) : Space := s.clearLinks.resetUses

namespace Twin

variable {s t u : Space}

protected theorem refl (s : Space) : Twin s s := ⟨.refl s, .refl s⟩

protected theorem symm (h : Twin s t) : Twin t s := ⟨h.back, h.there⟩

protected theorem trans (h : Twin s t) (h' : Twin t u) : Twin s u :=
  ⟨h.there.trans h'.there, h'.back.trans h.back⟩

/-- A partition has the same links in both spaces. -/
theorem partition (h : Twin s t) {k : Nat} {p : Partition} (hp : s.partitions[k]? = some p) :
    ∃ q, t.partitions[k]? = some q ∧ q.cut = p.cut ∧ q.descriptorField = p.descriptorField ∧
      q.tableBlock = p.tableBlock := by
  obtain ⟨q, hq, hpq⟩ := h.there.partition k p hp
  obtain ⟨p', hp', hqp⟩ := h.back.partition k q hq
  obtain rfl : p = p' := Option.some.inj (hp.symm.trans hp')
  refine ⟨q, hq, hpq.cut, ?_, ?_⟩
  · cases hP : p.descriptorField with
    | some P => exact (hpq.described P hP).1
    | none =>
      cases hQ : q.descriptorField with
      | none => rfl
      | some Q => cases hP.symm.trans (hqp.described Q hQ).1
  · cases hT : p.tableBlock with
    | some T => exact hpq.tabled T hT
    | none =>
      cases hU : q.tableBlock with
      | none => rfl
      | some U => cases hT.symm.trans (hqp.tabled U hU)

/-! ## What builds look at -/

/-- A partition has the same axes in both spaces. -/
theorem partition? (h : Twin s t) (k : Nat) :
    (s.partitions[k]? = none ∧ t.partitions[k]? = none) ∨
      ∃ p q, s.partitions[k]? = some p ∧ t.partitions[k]? = some q ∧ q.axes = p.axes := by
  rcases h.there.sameCuts.partition? k with hnone | ⟨p, q, hp, hq, hcut, -⟩
  · exact .inl hnone
  · exact .inr ⟨p, q, hp, hq, congrArg (·.2.2.2) hcut⟩

theorem depth (h : Twin s t) : t.depth = s.depth := by
  rw [Space.depth, Space.depth, h.there.dimensions]

theorem compareCostName (h : Twin s t) : t.compareCostName = s.compareCostName :=
  h.there.sameCuts.compareCostName

theorem compareBlock (h : Twin s t) : t.compareBlock = s.compareBlock :=
  compareBlock_congr h.there.sameCuts

theorem usedDimensions (h : Twin s t) : t.usedDimensions = s.usedDimensions := by
  rw [Space.usedDimensions, Space.usedDimensions, h.there.dimensions]

theorem actualSize? (h : Twin s t) (k : Nat) : t.actualSize? k = s.actualSize? k := by
  unfold Space.actualSize?
  rw [h.there.dimensions]
  rcases h.partition? k with ⟨hp, hq⟩ | ⟨p, q, hp, hq, haxes⟩
  · rw [hp, hq]
  · rw [hp, hq]
    show List.foldlM _ 1 q.axes = List.foldlM _ 1 p.axes
    rw [haxes]

theorem axesOf (h : Twin s t) (part : Part) : t.axesOf part = s.axesOf part := by
  unfold Space.axesOf
  rcases h.partition? part.partition with ⟨hp, hq⟩ | ⟨p, q, hp, hq, haxes⟩
  · rw [hp, hq]
  · simp only [hp, hq, haxes]

theorem partFormula (h : Twin s t) (part : Part) : t.partFormula part = s.partFormula part := by
  have haxis : ∀ parts a index,
      t.axisCriterionWith parts a index = s.axisCriterionWith parts a index := by
    intro parts a index
    rw [axisCriterionWith, axisCriterionWith, resolve, resolve, h.there.dimensions]
  have hwithin : ∀ fuel part, t.partFormulaWithin fuel part = s.partFormulaWithin fuel part := by
    intro fuel
    induction fuel with
    | zero => exact fun _ => rfl
    | succ fuel ih =>
      intro part
      rw [partFormulaWithin, partFormulaWithin, funext ih, h.axesOf]
      simp only [haxis]
  rw [Space.partFormula, Space.partFormula, h.depth, hwithin]

theorem subrules (h : Twin s t) (r : Rule) : t.subrules r = s.subrules r :=
  subrules_of_frame h.there.sameCuts.frame r

theorem blockRules (h : Twin s t) (r : Rule) : t.blockRules r = s.blockRules r :=
  blockRules_of_frame h.there.sameCuts.frame r

/-! ## What builds change -/

/-- Dimensions are changed in one way in both. -/
theorem modifyDimension (h : Twin s t) (k : Nat) (change : Dimension → Dimension) :
    Twin (s.modifyDimension k change) (t.modifyDimension k change) where
  there := ⟨by simp only [Space.modifyDimension, h.there.dimensions], h.there.length,
    h.there.partition⟩
  back := ⟨by simp only [Space.modifyDimension, h.there.dimensions], h.back.length,
    h.back.partition⟩

theorem settles_modifyPartition (h : s.Settles t) {k : Nat} {change : Partition → Partition}
    (hchange : ∀ p q, s.partitions[k]? = some p → t.partitions[k]? = some q → p.Settles q →
      (change p).Settles (change q)) :
    (s.modifyPartition k change).Settles (t.modifyPartition k change) where
  dimensions := h.dimensions
  length := by simpa [Space.modifyPartition] using h.length
  partition := by
    intro j p' hp'
    by_cases hj : k = j
    · subst hj
      simp only [Space.modifyPartition, List.getElem?_modify_eq, Option.map_eq_map,
        Option.map_eq_some_iff] at hp'
      obtain ⟨p, hp, rfl⟩ := hp'
      obtain ⟨q, hq, hpq⟩ := h.partition k p hp
      exact ⟨change q, by simp [Space.modifyPartition, hq], hchange p q hp hq hpq⟩
    · simp only [Space.modifyPartition, List.getElem?_modify_ne _ _ hj] at hp' ⊢
      exact h.partition j p' hp'

/-- A partition is changed in one way in both, if that keeps it settled. -/
theorem modifyPartition (h : Twin s t) {k : Nat} {change : Partition → Partition}
    (hchange : ∀ p q, s.partitions[k]? = some p → t.partitions[k]? = some q →
      (p.Settles q → (change p).Settles (change q)) ∧
        (q.Settles p → (change q).Settles (change p))) :
    Twin (s.modifyPartition k change) (t.modifyPartition k change) where
  there := settles_modifyPartition h.there fun p q hp hq => (hchange p q hp hq).1
  back := settles_modifyPartition h.back fun q p hq hp => (hchange p q hp hq).2

/-- Where a descriptor is still to be set, the cells may be set in both. -/
theorem setCells (h : Twin s t) {k : Nat} {p : Partition} (hp : s.partitions[k]? = some p)
    (hP : p.descriptorField = none) (cells : List Cells) :
    Twin (s.modifyPartition k fun p => { p with cells })
      (t.modifyPartition k fun p => { p with cells }) := by
  obtain ⟨q, hq, -, hdescriptor, -⟩ := h.partition hp
  refine h.modifyPartition fun p' q' hp' hq' => ?_
  obtain rfl := Option.some.inj (hp.symm.trans hp')
  obtain rfl := Option.some.inj (hq.symm.trans hq')
  refine ⟨fun h => ⟨h.cut, h.costs, fun P' hP' => ?_, h.tabled⟩,
    fun h => ⟨h.cut, h.costs, fun P' hP' => ?_, h.tabled⟩⟩
  · cases hP.symm.trans hP'
  · cases (hdescriptor.trans hP).symm.trans hP'

/-- Over the same cells the same descriptor may be set in both. -/
theorem setDescriptor (h : Twin s t) {k : Nat} {p q : Partition} (hp : s.partitions[k]? = some p)
    (hq : t.partitions[k]? = some q) (hcells : q.cells = p.cells) (P : String) :
    Twin (s.modifyPartition k fun p => { p with descriptorField := some P })
      (t.modifyPartition k fun p => { p with descriptorField := some P }) := by
  refine h.modifyPartition fun p' q' hp' hq' => ?_
  obtain rfl := Option.some.inj (hp.symm.trans hp')
  obtain rfl := Option.some.inj (hq.symm.trans hq')
  exact ⟨fun h => ⟨h.cut, h.costs, fun P' hP' => ⟨hP', hcells⟩, h.tabled⟩,
    fun h => ⟨h.cut, h.costs, fun P' hP' => ⟨hP', hcells.symm⟩, h.tabled⟩⟩

/-- The same block of parts may be set in both. -/
theorem setTableBlock (h : Twin s t) (k : Nat) (T : String) :
    Twin (s.modifyPartition k fun p => { p with tableBlock := some T })
      (t.modifyPartition k fun p => { p with tableBlock := some T }) :=
  h.modifyPartition fun _ _ _ _ =>
    ⟨fun h => ⟨h.cut, h.costs, h.described, fun _ hT => hT⟩,
      fun h => ⟨h.cut, h.costs, h.described, fun _ hT => hT⟩⟩

theorem foldl {β : Type} {step : Space → β → Space}
    (hstep : ∀ (x : β) {s t : Space}, Twin s t → Twin (step s x) (step t x)) :
    ∀ (xs : List β) {s t : Space}, Twin s t → Twin (xs.foldl step s) (xs.foldl step t)
  | [], _, _, h => h
  | x :: xs, _, _, h => foldl hstep xs (hstep x h)

theorem countPart {p q : Partition} (h : p.Settles q) (indexes : List Nat) :
    (Space.countPart indexes p).Settles (Space.countPart indexes q) := by
  have hcosts : ∀ p : Partition, (Space.countPart indexes p).costs = p.costs := by
    intro p
    simp only [Partition.costs, Space.countPart, List.map_map]
    refine List.map_congr_left fun x _ => ?_
    by_cases hx : x.1 = indexes <;> simp [hx]
  exact ⟨h.cut, by rw [hcosts, hcosts, h.costs], h.described, h.tabled⟩

/-- One use more of a part. -/
theorem usePart : ∀ (fuel : Nat) (part : Part) {s t : Space}, Twin s t →
    Twin (Space.usePart fuel s part) (Space.usePart fuel t part)
  | 0, _, _, _, h => h
  | fuel + 1, part, s, t, h => by
      have haxis : ∀ (a : Axis) {s t : Space}, Twin s t →
          Twin (useAxis fuel s a) (useAxis fuel t a) := by
        intro a s t h
        unfold useAxis
        rw [h.there.dimensions]
        split
        · exact h
        · exact foldl (usePart fuel) _ (h.modifyDimension _ _)
      unfold Space.usePart
      rcases h.partition? part.partition with ⟨hp, hq⟩ | ⟨p, q, hp, hq, haxes⟩
      · rw [hp, hq]
        exact h
      · rw [hp, hq]
        show Twin (p.axes.foldl (useAxis fuel) _) (q.axes.foldl (useAxis fuel) _)
        rw [haxes]
        exact foldl haxis _ (h.modifyPartition fun p q _ _ => ⟨(countPart · _), (countPart · _)⟩)

/-- Uses are counted anew, so spaces that differ by uses become twins. -/
theorem countUses (h : Twin s.resetUses t.resetUses) (rules : List Rule) :
    Twin (s.countUses rules) (t.countUses rules) := by
  refine foldl (fun r s t h => ?_) rules h
  rw [useRule, useRule, h.depth]
  exact foldl (usePart _) r.parts h

end Twin

/-! ## What builds leave -/

/-- What two spaces are without what builds leave in them, if they have the same cuts and the same
analysis. -/
theorem settles_bare {s t : Space} (hcuts : s.SameCuts t)
    (hlevels : t.dimensions.map (·.levels) = s.dimensions.map (·.levels)) :
    s.bare.Settles t.bare where
  dimensions := by
    have hbare : ∀ s : Space, s.bare.dimensions =
        ((s.dimensions.map fun d => (d.className, d.origin)).zip
          (s.dimensions.map (·.levels))).map fun x => ⟨x.1.1, x.1.2, 0, x.2, none⟩ := by
      intro s
      simp only [bare, clearLinks, resetUses, List.map_map, List.zip_map', Function.comp_def]
    have hframe : t.dimensions.map (fun d => (d.className, d.origin)) =
        s.dimensions.map fun d => (d.className, d.origin) := congrArg Prod.fst hcuts.frame
    rw [hbare, hbare, hlevels, hframe]
  length := by
    simpa [bare, clearLinks, resetUses] using congrArg List.length hcuts.costs
  partition := by
    intro k p hp
    simp only [bare, clearLinks, resetUses, List.getElem?_map, Option.map_map,
      Option.map_eq_some_iff] at hp ⊢
    obtain ⟨p, hp, rfl⟩ := hp
    rcases hcuts.partition? k with ⟨hnone, -⟩ | ⟨p', q, hp', hq, hcut, hcosts⟩
    · cases hp.symm.trans hnone
    · obtain rfl := Option.some.inj (hp.symm.trans hp')
      have hnone : ∀ x : String, (none : Option String) ≠ some x := fun x h => by cases h
      refine ⟨_, ⟨q, hq, rfl⟩, hcut, ?_, fun x h => absurd h (hnone x), fun x h => absurd h (hnone x)⟩
      simpa [Partition.costs, Function.comp_def] using hcosts

/-- Spaces with the same cuts and the same analysis are twins without what builds leave in them. -/
theorem twin_bare {s t : Space} (hcuts : s.SameCuts t)
    (hlevels : t.dimensions.map (·.levels) = s.dimensions.map (·.levels)) : s.bare.Twin t.bare :=
  ⟨settles_bare hcuts hlevels, settles_bare ⟨hcuts.frame.symm, hcuts.costs.symm⟩ hlevels.symm⟩

end Space

end FeatureSynth
