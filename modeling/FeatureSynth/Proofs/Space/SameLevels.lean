/-
# Spaces that differ in links and uses only

A build links dimensions and partitions to the schema in work and counts uses.  It changes
neither the frame of the space, nor its parts, nor the levels an analysis found.  Whether a
rule is checked, and what an index means on an axis, depends on nothing else.
-/
import FeatureSynth.Proofs.Rule.Grounded
import FeatureSynth.Proofs.Space.Links
import FeatureSynth.Proofs.Space.Uses

namespace FeatureSynth

namespace Space

/-- Two spaces with one frame, the same parts and the same levels. -/
structure SameLevels (s s' : Space) : Prop extends SameCuts s s' where
  levels : s'.dimensions.map (·.levels) = s.dimensions.map (·.levels)

namespace SameLevels

variable {s s' s'' : Space}

protected theorem refl (s : Space) : SameLevels s s := ⟨⟨rfl, rfl⟩, rfl⟩

protected theorem symm (h : SameLevels s s') : SameLevels s' s :=
  ⟨⟨h.frame.symm, h.costs.symm⟩, h.levels.symm⟩

protected theorem trans (h : SameLevels s s') (h' : SameLevels s' s'') : SameLevels s s'' :=
  ⟨⟨h'.frame.trans h.frame, h'.costs.trans h.costs⟩, h'.levels.trans h.levels⟩

theorem of_settles (h : Settles s s') : SameLevels s s' := ⟨h.sameCuts, by rw [h.dimensions]⟩

theorem of_modifyDimension (s : Space) (k : Nat) {change : Dimension → Dimension}
    (h : ∀ d, (change d).className = d.className ∧ (change d).origin = d.origin ∧
      (change d).levels = d.levels) : SameLevels s (s.modifyDimension k change) :=
  ⟨⟨frame_modifyDimension s k fun d => ⟨(h d).1, (h d).2.1⟩, rfl⟩,
    map_modify_of_comp (fun d => (h d).2.2) _ _⟩

theorem clearLinks (s : Space) : SameLevels s s.clearLinks :=
  ⟨sameCuts_clearLinks s, by simp [Space.clearLinks]⟩

theorem of_reset (h : s'.resetUses = s.resetUses) : SameLevels s s' := by
  refine ⟨sameCuts_of_reset h, ?_⟩
  have := congrArg (fun s => s.dimensions.map (·.levels)) h
  simpa [resetUses, Function.comp_def] using this

theorem dimension (h : SameLevels s s') {k : Nat} {d : Dimension} (hd : s.dimensions[k]? = some d) :
    ∃ d', s'.dimensions[k]? = some d' ∧ d'.className = d.className ∧ d'.origin = d.origin ∧
      d'.levels = d.levels := by
  obtain ⟨d', hd', hC, ho⟩ := dimension_of_frame h.frame hd
  have hlevels := congrArg (fun l => l[k]?) h.levels
  simp only [List.getElem?_map, hd, hd', Option.map_some, Option.some.injEq] at hlevels
  exact ⟨d', hd', hC, ho, hlevels⟩

theorem partition (h : SameLevels s s') {k : Nat} {p : Partition}
    (hp : s.partitions[k]? = some p) :
    ∃ p', s'.partitions[k]? = some p' ∧ p'.cut = p.cut ∧ p'.costs = p.costs := by
  have hcut := cut?_of_frame h.frame k
  have hcosts := congrArg (fun l => l[k]?) h.costs
  simp only [List.getElem?_map, hp, Option.map_some] at hcut hcosts
  obtain ⟨p', hp', hcut⟩ := Option.map_eq_some_iff.mp hcut
  rw [hp', Option.map_some] at hcosts
  exact ⟨p', hp', hcut, Option.some.inj hcosts⟩

theorem axes?_eq (h : SameLevels s s') (k : Nat) :
    s'.partitions[k]?.map (·.axes) = s.partitions[k]?.map (·.axes) := by
  have := congrArg (Option.map fun c : String × String × String × List Axis => c.2.2.2)
    (cut?_of_frame h.frame k)
  simpa [Partition.cut, Function.comp_def] using this

theorem axesOf_eq (h : SameLevels s s') (part : Part) : s'.axesOf part = s.axesOf part := by
  have heq : ∀ s : Space, s.axesOf part =
      ((s.partitions[part.partition]?.map (·.axes)).map (·.zip part.indexes)).getD [] := by
    intro s
    unfold axesOf
    cases s.partitions[part.partition]? <;> rfl
  rw [heq, heq, h.axes?_eq]

end SameLevels

/-- Whether a rule is checked depends on the frame and the parts of the space. -/
theorem part?_isSome_of_sameCuts {s s' : Space} (h : SameCuts s s') (part : Part) :
    (s'.part? part).isSome = (s.part? part).isSome := by
  have hlookup : ∀ (l l' : List (List Nat × PartEntry)), l'.map (·.1) = l.map (·.1) →
      (l'.lookup part.indexes).isSome = (l.lookup part.indexes).isSome := by
    intro l l' hkeys
    induction l generalizing l' with
    | nil =>
      obtain rfl := List.map_eq_nil_iff.mp hkeys
      rfl
    | cons x xs ih =>
      obtain ⟨y, ys, rfl, hy, hys⟩ := List.map_eq_cons_iff.mp hkeys
      rw [List.lookup_cons, List.lookup_cons, hy]
      cases part.indexes == x.1 with
      | true => rfl
      | false => exact ih ys hys
  have hcosts := congrArg (fun l => l[part.partition]?) h.costs
  simp only [List.getElem?_map] at hcosts
  unfold Space.part?
  cases hp : s.partitions[part.partition]? with
  | none =>
    rw [hp, Option.map_none, Option.map_eq_none_iff] at hcosts
    rw [hcosts]
  | some p =>
    rw [hp, Option.map_some, Option.map_eq_some_iff] at hcosts
    obtain ⟨p', hp', hcosts⟩ := hcosts
    rw [hp']
    refine hlookup p.parts p'.parts ?_
    have := congrArg (List.map Prod.fst) hcosts
    simpa [Partition.costs, Function.comp_def] using this

end Space

namespace Rule

variable {s s' : Space}

theorem checkPart_of_sameCuts (h : s.SameCuts s') (r : Rule) (part : Part) (index : Nat)
    (slot : Kind) : r.checkPart s' part index slot = r.checkPart s part index slot := by
  have hsome := Space.part?_isSome_of_sameCuts h part
  have hnone : (s'.part? part).isNone = (s.part? part).isNone := by
    rw [← Option.not_isSome, hsome, Option.not_isSome]
  rw [checkPart, hnone, checkPart]

theorem checkSelection_of_sameCuts (h : s.SameCuts s') (r : Rule) :
    r.checkSelection s' = r.checkSelection s := by
  unfold checkSelection
  split
  · split
    · rename_i part _ _
      have hcut := Space.cut?_of_frame h.frame part.partition
      cases hp : s.partitions[part.partition]? with
      | none =>
        rw [hp, Option.map_none, Option.map_eq_none_iff] at hcut
        rw [hcut]
      | some p =>
        rw [hp, Option.map_some, Option.map_eq_some_iff] at hcut
        obtain ⟨p', hp', hcut⟩ := hcut
        rw [Partition.cut, Partition.cut, Prod.mk.injEq, Prod.mk.injEq, Prod.mk.injEq] at hcut
        simp only [hp', hcut.2.1, hcut.2.2.1]
    · rfl
  · rfl

mutual

/-- A rule fits two spaces with one frame and the same parts alike. -/
theorem check_of_sameCuts (h : s.SameCuts s') : ∀ r : Rule, r.check s' = r.check s
  | ⟨template, className, operands, cost, tieBreak⟩ => by
      unfold check
      dsimp only
      rw [checkOperands_of_sameCuts h, checkSelection_of_sameCuts h]

theorem checkOperands_of_sameCuts (h : s.SameCuts s') (r : Rule) :
    ∀ (xs : List (RuleOperand Rule)) (index : Nat) (slots : List Kind),
      checkOperands s' r index slots xs = checkOperands s r index slots xs
  | [], _, [] | [], _, _ :: _ | _ :: _, _, [] => by simp [checkOperands]
  | .field name type :: rest, index, slot :: slots => by
      rw [checkOperands, checkOperands, checkOperands_of_sameCuts h r rest]
  | .rule inner :: rest, index, slot :: slots => by
      rw [checkOperands, checkOperands, check_of_sameCuts h inner,
        checkOperands_of_sameCuts h r rest]
  | .part part :: rest, index, slot :: slots => by
      rw [checkOperands, checkOperands, checkPart_of_sameCuts h,
        checkOperands_of_sameCuts h r rest]

end

theorem Grounded.of_sameCuts {schema : Schema} {r : Rule} (hr : r.Grounded s schema)
    (h : s.SameCuts s') : r.Grounded s' schema :=
  ⟨hr.named, (check_of_sameCuts h r).trans hr.checked, hr.fields⟩

end Rule

theorem Space.Grounded.of_sameCuts {s s' : Space} {schema : Schema} (hs : s.Grounded schema)
    (h : s.SameCuts s') : s'.Grounded schema := by
  intro d' hd' r ho
  obtain ⟨k, hk⟩ := List.mem_iff_getElem?.mp hd'
  obtain ⟨d, hd, -, ho'⟩ := dimension_of_frame h.frame.symm hk
  exact (hs d (List.mem_of_getElem? hd) r (ho'.trans ho)).of_sameCuts h

end FeatureSynth
