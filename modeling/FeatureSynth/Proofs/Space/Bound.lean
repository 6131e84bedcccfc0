/-
# Bound dimensions

A dimension is bound once a field of the schema in work holds its values; one that
is a field always is.  The criterion of a part whose dimensions are all bound refers
to these fields and to nothing else, so it stays the same while further dimensions
are bound.
-/
import FeatureSynth.Proofs.Space.Uses
import FeatureSynth.Rule.Formula

namespace FeatureSynth

/-- A field of the schema in work holds the values. -/
def Dimension.IsBound (d : Dimension) : Prop := d.rule? = none ∨ d.selectionField.isSome = true

namespace Space

/-- The dimension of a rank, if there is one, is bound. -/
def BoundAt (s : Space) (k : Nat) : Prop := ∀ d, s.dimensions[k]? = some d → d.IsBound

/-- The dimensions a part is cut along are bound. -/
def PartBound (s : Space) (part : Part) : Prop :=
  ∀ p, s.partitions[part.partition]? = some p → ∀ a ∈ p.axes, s.BoundAt a.dimension

/-- Every part a rule names is cut along bound dimensions. -/
def RuleBound (s : Space) (r : Rule) : Prop := ∀ part ∈ r.parts, s.PartBound part

/-- One space goes over into another by the binding of dimensions that had no field. -/
structure Binds (s s' : Space) : Prop where
  frame : s'.frame = s.frame
  dimension : ∀ (k : Nat) (d : Dimension), s.dimensions[k]? = some d →
    ∃ d', s'.dimensions[k]? = some d' ∧ d'.origin = d.origin ∧ d'.uses = d.uses ∧
      d'.levels = d.levels ∧
      (d.selectionField.isSome = true → d'.selectionField = d.selectionField)

namespace Binds

variable {s s' s'' : Space} {part : Part}

protected theorem refl (s : Space) : Binds s s :=
  ⟨rfl, fun _ d hd => ⟨d, hd, rfl, rfl, rfl, fun _ => rfl⟩⟩

protected theorem trans (h : Binds s s') (h' : Binds s' s'') : Binds s s'' where
  frame := h'.frame.trans h.frame
  dimension := by
    intro k d hd
    obtain ⟨d', hd', ho, hu, hl, hf⟩ := h.dimension k d hd
    obtain ⟨d'', hd'', ho', hu', hl', hf'⟩ := h'.dimension k d' hd'
    refine ⟨d'', hd'', ho'.trans ho, hu'.trans hu, hl'.trans hl, fun hsome => ?_⟩
    rw [hf' ((hf hsome).symm ▸ hsome), hf hsome]

/-- A dimension without a field gets one. -/
theorem of_modify {k : Nat} {name : String}
    (hfree : ∀ d, s.dimensions[k]? = some d → d.selectionField = none) :
    Binds s (s.modifyDimension k fun d => { d with selectionField := some name }) where
  frame := frame_modifyDimension s k fun _ => ⟨rfl, rfl⟩
  dimension := by
    intro j d hd
    by_cases hj : k = j
    · subst hj
      refine ⟨{ d with selectionField := some name }, by simp [modifyDimension, hd], rfl, rfl, rfl,
        fun hsome => ?_⟩
      rw [hfree d hd] at hsome
      cases hsome
    · exact ⟨d, by simp [modifyDimension, hj, hd], rfl, rfl, rfl, fun _ => rfl⟩

theorem boundAt (h : Binds s s') {k : Nat} (hk : s.BoundAt k) : s'.BoundAt k := by
  intro d' hd'
  obtain ⟨d, hd, -, -⟩ := dimension_of_frame h.frame.symm hd'
  obtain ⟨d'', hd'', ho, -, -, hf⟩ := h.dimension k d hd
  obtain rfl : d' = d'' := Option.some.inj (hd'.symm.trans hd'')
  rcases hk d hd with hnone | hsome
  · left
    rw [Dimension.rule?, ho]
    exact hnone
  · right
    rw [hf hsome]
    exact hsome

theorem partBound (h : Binds s s') (hp : s.PartBound part) : s'.PartBound part := by
  intro p' hp' a ha
  obtain ⟨p, hsome, -, haxes⟩ := partition_of_frame h.frame.symm hp'
  exact h.boundAt (hp p hsome a (haxes ▸ ha))

theorem ruleBound (h : Binds s s') {r : Rule} (hr : s.RuleBound r) : s'.RuleBound r :=
  fun part hpart => h.partBound (hr part hpart)

theorem axesOf_eq (h : Binds s s') : s'.axesOf part = s.axesOf part := by
  unfold axesOf
  cases hp : s.partitions[part.partition]? with
  | some p =>
    obtain ⟨p', hp', -, haxes⟩ := partition_of_frame h.frame hp
    simp only [hp', haxes]
  | none =>
    cases hp' : s'.partitions[part.partition]? with
    | none => rfl
    | some p' =>
      obtain ⟨p, hsome, -⟩ := partition_of_frame h.frame.symm hp'
      cases hp.symm.trans hsome

end Binds

/-! ## Criteria -/

/-- The operand of a bound dimension refers to its field. -/
theorem dimensionOperandWith_bound {parts parts' : Part → Except BuildError Formula}
    {d d' : Dimension} (hd : d.IsBound) (ho : d'.origin = d.origin)
    (hf : d.selectionField.isSome = true → d'.selectionField = d.selectionField) :
    dimensionOperandWith parts' d' = dimensionOperandWith parts d := by
  unfold dimensionOperandWith
  rw [ho]
  cases hr : d.origin with
  | field name type => simp
  | rule r =>
    have hsome : d.selectionField.isSome = true := by
      rcases hd with hnone | hsome
      · simp [Dimension.rule?, hr] at hnone
      · exact hsome
    obtain ⟨name, hname⟩ := Option.isSome_iff_exists.mp hsome
    rw [hf hsome, hname]

theorem kind_of_origin {d d' : Dimension} (ho : d'.origin = d.origin) : d'.kind = d.kind := by
  rw [Dimension.kind, Dimension.kind, Dimension.type, Dimension.type, ho]

variable {s s' : Space}

theorem axisCriterionWith_bound {parts parts' : Part → Except BuildError Formula} (h : Binds s s')
    {a : Axis} (ha : s.BoundAt a.dimension) (index : Nat) :
    s'.axisCriterionWith parts' a index = s.axisCriterionWith parts a index := by
  unfold axisCriterionWith resolve
  cases hd : s.dimensions[a.dimension]? with
  | none =>
    cases hd' : s'.dimensions[a.dimension]? with
    | none => rfl
    | some d' =>
      obtain ⟨d, hsome, -⟩ := dimension_of_frame h.frame.symm hd'
      cases hd.symm.trans hsome
  | some d =>
    obtain ⟨d', hd', ho, -, hl, hf⟩ := h.dimension _ d hd
    have hoperand : dimensionOperandWith parts' d' = dimensionOperandWith parts d :=
      dimensionOperandWith_bound (ha d hd) ho hf
    simp only [hd', hl]
    cases d.levels.bind fun levels => levels.partile? a.granularity index with
    | none => rfl
    | some partile =>
      show (dimensionOperandWith parts' d' >>= fun operand => partile.criterion operand d'.kind) =
        (dimensionOperandWith parts d >>= fun operand => partile.criterion operand d.kind)
      rw [hoperand, kind_of_origin ho]

theorem mapM_congr_of_mem {ε α β : Type} {f g : α → Except ε β} :
    ∀ xs : List α, (∀ x ∈ xs, f x = g x) → xs.mapM f = xs.mapM g
  | [], _ => rfl
  | x :: xs, h => by
      rw [List.mapM_cons, List.mapM_cons, h x List.mem_cons_self,
        mapM_congr_of_mem xs fun y hy => h y (List.mem_cons_of_mem _ hy)]

theorem mem_axesOf {part : Part} {a : Axis} {index : Nat} (h : (a, index) ∈ s.axesOf part) :
    ∃ p, s.partitions[part.partition]? = some p ∧ a ∈ p.axes := by
  unfold axesOf at h
  split at h
  · rename_i p hp
    exact ⟨p, hp, (List.of_mem_zip h).1⟩
  · cases h

/-- The criterion of a part stays the same while dimensions it is not cut along are bound. -/
theorem partFormula_bound (h : Binds s s') {part : Part} (hp : s.PartBound part) :
    s'.partFormula part = s.partFormula part := by
  unfold partFormula depth partFormulaWithin
  rw [h.axesOf_eq, mapM_congr_of_mem (s.axesOf part) fun x hx => ?_]
  obtain ⟨p, hsome, ha⟩ := mem_axesOf hx
  exact axisCriterionWith_bound h (hp p hsome x.1 ha) x.2

end Space

end FeatureSynth
