/-
# Use counts reach everything a rule needs

Counting the uses of a part brings the dimensions it is cut along into use, then
those that the rules of these dimensions select on, and on.  On a well-founded
space the bound for the way down is never met, so the dimensions in use are closed:
a dimension comes into use together with all that its rule selects on.
-/
import FeatureSynth.Proofs.Space.WellFounded
import FeatureSynth.Space.Use

namespace FeatureSynth

namespace Space

/-- A dimension is in use. -/
def Used (s : Space) (k : Nat) : Prop := ∃ d, s.dimensions[k]? = some d ∧ 0 < d.uses

/-- The dimensions a part is cut along are in use. -/
def PartUsed (s : Space) (part : Part) : Prop :=
  ∀ p, s.partitions[part.partition]? = some p → ∀ a ∈ p.axes, s.Used a.dimension

/-- Nothing but uses is added, and a dimension that comes into use brings along what its rule
selects on. -/
structure UsesGrow (s s' : Space) : Prop where
  reset : s'.resetUses = s.resetUses
  mono : ∀ k, s.Used k → s'.Used k
  closed : ∀ (k : Nat) (d : Dimension) (r : Rule), s'.Used k → ¬ s.Used k →
    s'.dimensions[k]? = some d → d.origin = .rule r → ∀ part ∈ r.parts, s'.PartUsed part

/-! ## Spaces that differ by uses -/

theorem frame_resetUses (s : Space) : s.resetUses.frame = s.frame := by
  simp [frame, resetUses, Function.comp_def]

theorem frame_of_reset {s s' : Space} (h : s'.resetUses = s.resetUses) : s'.frame = s.frame := by
  rw [← frame_resetUses s', h, frame_resetUses]

theorem selectionField_of_reset {s s' : Space} (h : s'.resetUses = s.resetUses) {k : Nat}
    {d' : Dimension} (hd' : s'.dimensions[k]? = some d') :
    ∃ d, s.dimensions[k]? = some d ∧ d'.selectionField = d.selectionField := by
  have hk := congrArg (fun t : Space => t.dimensions[k]?) h.symm
  simp only [resetUses, List.getElem?_map, hd', Option.map_some, Option.map_eq_some_iff] at hk
  obtain ⟨d, hd, heq⟩ := hk
  exact ⟨d, hd, (congrArg Dimension.selectionField heq).symm⟩

theorem resetUses_countDimension (s : Space) (k : Nat) :
    (s.modifyDimension k countDimension).resetUses = s.resetUses := by
  have := map_modify_of_comp (g := fun d : Dimension => { d with uses := 0 }) (f := countDimension)
    (fun _ => rfl) s.dimensions k
  simp only [resetUses, modifyDimension, this]

/-- The entry of a part without its uses. -/
def resetEntry (x : List Nat × PartEntry) : List Nat × PartEntry := (x.1, { x.2 with uses := 0 })

/-- A partition without its uses. -/
def resetPartition (p : Partition) : Partition :=
  { p with uses := 0, parts := p.parts.map resetEntry }

theorem resetPartition_countPart (indexes : List Nat) (p : Partition) :
    resetPartition (countPart indexes p) = resetPartition p := by
  have hparts : (countPart indexes p).parts.map resetEntry = p.parts.map resetEntry := by
    rw [countPart, List.map_map]
    refine List.map_congr_left fun x _ => ?_
    by_cases h : x.1 = indexes <;> simp [h, resetEntry]
  simp only [resetPartition, hparts]
  rfl

theorem resetUses_countPart (s : Space) (k : Nat) (indexes : List Nat) :
    (s.modifyPartition k (countPart indexes)).resetUses = s.resetUses :=
  congrArg (Space.mk _)
    (map_modify_of_comp (resetPartition_countPart indexes) s.partitions k)

namespace UsesGrow

variable {s s' s'' : Space}

protected theorem refl (s : Space) : UsesGrow s s :=
  ⟨rfl, fun _ h => h, fun _ _ _ h h' => absurd h h'⟩

theorem partUsed (h : UsesGrow s s') {part : Part} (hp : s.PartUsed part) : s'.PartUsed part := by
  intro p' hp' a ha
  obtain ⟨p, hsome, -, haxes⟩ := partition_of_frame (frame_of_reset h.reset).symm hp'
  exact h.mono _ (hp p hsome a (haxes ▸ ha))

protected theorem trans (h : UsesGrow s s') (h' : UsesGrow s' s'') : UsesGrow s s'' where
  reset := h'.reset.trans h.reset
  mono := fun k hk => h'.mono k (h.mono k hk)
  closed := by
    intro k d r hused hnot hd ho part hpart
    by_cases hk : s'.Used k
    · obtain ⟨d', hd', -, ho'⟩ := dimension_of_frame (frame_of_reset h'.reset).symm hd
      exact h'.partUsed (h.closed k d' r hk hnot hd' (ho'.trans ho) part hpart)
    · exact h'.closed k d r hused hk hd ho part hpart

/-- A loop whose rounds add uses adds uses, and has brought into use what its rounds have. -/
theorem foldl {β : Type} {step : Space → β → Space} {Q : Space → β → Prop} {s₀ : Space}
    (hQ : ∀ s s' x, UsesGrow s s' → Q s x → Q s' x) :
    ∀ (xs : List β) (s : Space),
      (∀ x ∈ xs, ∀ s, s.resetUses = s₀.resetUses → UsesGrow s (step s x) ∧ Q (step s x) x) →
      s.resetUses = s₀.resetUses →
      UsesGrow s (xs.foldl step s) ∧ ∀ x ∈ xs, Q (xs.foldl step s) x
  | [], s, _, _ => ⟨.refl s, by simp⟩
  | x :: xs, s, hstep, hs => by
      obtain ⟨hx, hQx⟩ := hstep x List.mem_cons_self s hs
      obtain ⟨hxs, hQxs⟩ := foldl hQ xs (step s x) (fun y hy => hstep y (List.mem_cons_of_mem _ hy))
        (hx.reset.trans hs)
      refine ⟨hx.trans hxs, fun y hy => ?_⟩
      rcases List.mem_cons.mp hy with rfl | hy
      · exact hQ _ _ _ hxs hQx
      · exact hQxs y hy

end UsesGrow

/-! ## Counting -/

section Counting

variable {s₀ s : Space}

theorem used_countDimension {k j : Nat} {d : Dimension} (hd : s.dimensions[k]? = some d) :
    (s.modifyDimension k countDimension).Used j ↔ j = k ∨ s.Used j := by
  by_cases hj : k = j
  · subst hj
    simp [Used, modifyDimension, hd, countDimension]
  · have hj' : j ≠ k := fun h => hj h.symm
    simp [Used, modifyDimension, hj, hj']

theorem usesGrow_countPart (s : Space) (k : Nat) (indexes : List Nat) :
    UsesGrow s (s.modifyPartition k (countPart indexes)) :=
  ⟨resetUses_countPart s k indexes, fun _ hj => hj, fun _ _ _ hj hnot => absurd hj hnot⟩

/-- One use of a dimension and of the parts its rule selects on. -/
theorem usesGrow_dimension {k : Nat} {d : Dimension} {s' : Space} (hd : s.dimensions[k]? = some d)
    (h : UsesGrow (s.modifyDimension k countDimension) s')
    (hparts : ∀ part ∈ (d.rule?.map Rule.parts).getD [], s'.PartUsed part) :
    UsesGrow s s' ∧ s'.Used k := by
  have hreset := h.reset.trans (resetUses_countDimension s k)
  refine ⟨⟨hreset, fun j hj => h.mono j ((used_countDimension hd).mpr (.inr hj)), ?_⟩,
    h.mono k ((used_countDimension hd).mpr (.inl rfl))⟩
  intro j e r hused hnot he ho part hpart
  by_cases hj : j = k
  · subst hj
    obtain ⟨d', hd', -, ho'⟩ := dimension_of_frame (frame_of_reset hreset).symm he
    obtain rfl : d = d' := Option.some.inj (hd.symm.trans hd')
    refine hparts part ?_
    simpa [Dimension.rule?, ho'.trans ho] using hpart
  · refine h.closed j e r hused ?_ he ho part hpart
    rw [used_countDimension hd]
    rintro (rfl | h)
    · exact hj rfl
    · exact hnot h

/-- One use of the dimension of an axis, and of the parts its rule selects on. -/
def useAxis (fuel : Nat) (s : Space) (a : Axis) : Space :=
  match s.dimensions[a.dimension]? with
  | none => s
  | some d =>
    ((d.rule?.map Rule.parts).getD []).foldl (usePart fuel)
      (s.modifyDimension a.dimension countDimension)

/-- The uses that one use of a part below a bound stands for. -/
abbrev UsesPart (s₀ : Space) (fuel : Nat) : Prop :=
  ∀ (part : Part) (s : Space), s₀.Below fuel part.partition → s.resetUses = s₀.resetUses →
    UsesGrow s (usePart fuel s part) ∧ (usePart fuel s part).PartUsed part

theorem usesGrow_useAxis (h₀ : s₀.WellFounded) {fuel : Nat} (hpart : s₀.UsesPart fuel) {a : Axis}
    {d₀ : Dimension} (hd₀ : s₀.dimensions[a.dimension]? = some d₀) (ha : a.dimension < fuel + 1)
    (hs : s.resetUses = s₀.resetUses) :
    UsesGrow s (useAxis fuel s a) ∧ (useAxis fuel s a).Used a.dimension := by
  obtain ⟨d, hd, -, ho⟩ := dimension_of_frame (frame_of_reset hs) hd₀
  have hinner : ∀ inner ∈ (d.rule?.map Rule.parts).getD [], ∀ t : Space,
      t.resetUses = s₀.resetUses →
        UsesGrow t (usePart fuel t inner) ∧ (usePart fuel t inner).PartUsed inner := by
    intro inner hmem t ht
    refine hpart inner t ?_ ht
    cases hr : d.origin with
    | field _ _ => simp [Dimension.rule?, hr] at hmem
    | rule r =>
      refine h₀.below_of_earlier ha hd₀ (ho.symm.trans hr) ?_
      simpa [Dimension.rule?, hr] using hmem
  obtain ⟨hgrow, hparts⟩ := UsesGrow.foldl (Q := PartUsed) (fun _ _ _ h => h.partUsed) _
    (s.modifyDimension a.dimension countDimension) hinner
    ((resetUses_countDimension s a.dimension).trans hs)
  simp only [useAxis, hd]
  exact usesGrow_dimension hd hgrow hparts

/-- One use of a part below the bound for the way down brings its dimensions into use. -/
theorem usesGrow_usePart (h₀ : s₀.WellFounded) : ∀ fuel, s₀.UsesPart fuel
  | 0, part, s, hbelow, hs => by
      refine ⟨.refl s, fun p hp a ha => ?_⟩
      obtain ⟨p₀, hp₀, -, haxes⟩ := partition_of_frame (frame_of_reset hs).symm hp
      exact absurd (hbelow p₀ hp₀ a (haxes ▸ ha)) (Nat.not_lt_zero _)
  | fuel + 1, part, s, hbelow, hs => by
      unfold usePart
      cases hp : s.partitions[part.partition]? with
      | none =>
        refine ⟨.refl s, fun p hp' => ?_⟩
        cases hp.symm.trans hp'
      | some p =>
        obtain ⟨p₀, hp₀, -, haxes⟩ := partition_of_frame (frame_of_reset hs).symm hp
        have hcount := usesGrow_countPart s part.partition part.indexes
        have haxis : ∀ a ∈ p.axes, ∀ t : Space, t.resetUses = s₀.resetUses →
            UsesGrow t (useAxis fuel t a) ∧ (useAxis fuel t a).Used a.dimension := by
          intro a ha t ht
          obtain ⟨d₀, hd₀, -⟩ := h₀.axis_dimension p₀ (List.mem_of_getElem? hp₀) a (haxes ▸ ha)
          exact usesGrow_useAxis h₀ (usesGrow_usePart h₀ fuel) hd₀
            (hbelow p₀ hp₀ a (haxes ▸ ha)) ht
        obtain ⟨hgrow, hused⟩ := UsesGrow.foldl (Q := fun s (a : Axis) => s.Used a.dimension)
          (fun _ _ _ h => h.mono _) p.axes (s.modifyPartition part.partition (countPart part.indexes))
          haxis (hcount.reset.trans hs)
        have hall := hcount.trans hgrow
        refine ⟨hall, fun q hq a ha => hused a ?_⟩
        obtain ⟨p', hp', -, haxes'⟩ := partition_of_frame (frame_of_reset hall.reset).symm hq
        obtain rfl : p = p' := Option.some.inj (hp.symm.trans hp')
        exact haxes' ▸ ha

end Counting

/-! ## Uses by a list of rules -/

/-- The uses of a space are closed: what the rules name is in use, and so is what the rule of a
dimension in use selects on. -/
structure UsesClosed (s : Space) (rules : List Rule) : Prop where
  named : ∀ r ∈ rules, ∀ part ∈ r.parts, s.PartUsed part
  selected : ∀ (k : Nat) (d : Dimension) (r : Rule), s.Used k → s.dimensions[k]? = some d →
    d.origin = .rule r → ∀ part ∈ r.parts, s.PartUsed part

theorem resetUses_resetUses (s : Space) : s.resetUses.resetUses = s.resetUses := by
  simp [resetUses, Function.comp_def]

/-! ### Nothing else is touched -/

theorem resetUses_foldl {β : Type} {step : Space → β → Space}
    (hstep : ∀ s x, (step s x).resetUses = s.resetUses) :
    ∀ (xs : List β) (s : Space), (xs.foldl step s).resetUses = s.resetUses
  | [], _ => rfl
  | x :: xs, s => (resetUses_foldl hstep xs (step s x)).trans (hstep s x)

theorem resetUses_usePart : ∀ (fuel : Nat) (s : Space) (part : Part),
    (usePart fuel s part).resetUses = s.resetUses
  | 0, _, _ => rfl
  | fuel + 1, s, part => by
      unfold usePart
      split
      · rfl
      · refine (resetUses_foldl (fun t a => ?_) _ _).trans (resetUses_countPart s _ _)
        split
        · rfl
        · exact (resetUses_foldl (resetUses_usePart fuel) _ _).trans (resetUses_countDimension t _)

theorem resetUses_useRule (s : Space) (r : Rule) : (s.useRule r).resetUses = s.resetUses :=
  resetUses_foldl (resetUses_usePart s.depth) r.parts s

theorem resetUses_countUses (s : Space) (rules : List Rule) :
    (s.countUses rules).resetUses = s.resetUses :=
  (resetUses_foldl resetUses_useRule rules _).trans (resetUses_resetUses s)

theorem usesClosed_countUses {s : Space} (hs : s.WellFounded) (rules : List Rule) :
    UsesClosed (s.countUses rules) rules := by
  have hrule : ∀ r ∈ rules, ∀ t : Space, t.resetUses = s.resetUses →
      UsesGrow t (useRule t r) ∧ ∀ part ∈ r.parts, (useRule t r).PartUsed part := by
    intro r _ t ht
    have hdepth : t.depth = s.depth := by
      have := congrArg (fun t : Space => t.dimensions.length) ht
      simpa [depth, resetUses] using this
    rw [useRule, hdepth]
    exact UsesGrow.foldl (Q := PartUsed) (fun _ _ _ h => h.partUsed) r.parts t
      (fun part _ u hu => usesGrow_usePart hs s.depth part u (hs.below_depth _) hu) ht
  obtain ⟨hgrow, hnamed⟩ := UsesGrow.foldl (Q := fun s r => ∀ part ∈ r.parts, s.PartUsed part)
    (fun _ _ _ h hr part hpart => h.partUsed (hr part hpart)) rules s.resetUses hrule
    (resetUses_resetUses s)
  refine ⟨hnamed, fun k d r hk hd ho part hpart => ?_⟩
  refine hgrow.closed k d r hk ?_ hd ho part hpart
  rintro ⟨e, he, hpos⟩
  simp only [resetUses, List.getElem?_map, Option.map_eq_some_iff] at he
  obtain ⟨_, -, rfl⟩ := he
  exact Nat.lt_irrefl 0 hpos

theorem mem_usedDimensions {s : Space} {k : Nat} : k ∈ s.usedDimensions ↔ s.Used k := by
  simp [usedDimensions, Used, List.mem_zipIdx_iff_getElem?]

/-- Dimensions in use are listed in order of registration. -/
theorem pairwise_usedDimensions (s : Space) : s.usedDimensions.Pairwise (· < ·) := by
  have hranks : (s.dimensions.zipIdx.map (·.2)).Pairwise (· < ·) := by
    rw [List.zipIdx_map_snd]
    exact List.pairwise_lt_range'
  exact hranks.sublist (List.filter_sublist.map _)

end Space

end FeatureSynth
