/-
# The orders of rules are lawful over a space

Orders of rules descend through parts to the rules of dimensions, and on, within a
bound.  Over a well-founded space they are lawful: the structural one on all rules
whose partitions are registered, those of cost, by whatever rounding, on the rules
whose parts have one index per axis.  That is not idle: the dimensions two parts are cut along are
compared up to the shorter list, so parts of the same number of indexes have to be
cut along the same number of axes for the comparison to chain.
-/
import FeatureSynth.Proofs.Ledger
import FeatureSynth.Proofs.Rule.Lawful

namespace FeatureSynth

/-- Order of the origins of dimensions, from an order of field names and one of rules. -/
def DimensionOrigin.compareBy (fields : String → String → Ordering)
    (rules : Rule → Rule → Ordering) : DimensionOrigin → DimensionOrigin → Ordering
  | .field x _, .field y _ => fields x y
  | .rule x, .rule y => rules x y
  | .field .., .rule _ => .lt
  | .rule _, .field .. => .gt

/-- What orders look at of a partition, apart from its parts. -/
def Partition.cut (p : Partition) : String × String × String × List Axis :=
  (p.className, p.parentClass, p.table, p.axes)

/-- The parts of a partition with their costs, which is all that orders look at of them. -/
def Partition.costs (p : Partition) : List (List Nat × Float) := p.parts.map fun e => (e.1, e.2.cost)

theorem lawfulOn_compareOrigins {fields : String → String → Ordering}
    {rules : Rule → Rule → Ordering} {P : Rule → Prop} (hfields : LawfulOn (fun _ => True) fields)
    (hrules : LawfulOn P rules) :
    LawfulOn (fun o => ∀ r, o = .rule r → P r) (DimensionOrigin.compareBy fields rules) where
  swap := by
    intro o o' ho ho'
    match o, o' with
    | .field x _, .field y _ => exact hfields.swap x y trivial trivial
    | .rule x, .rule y => exact hrules.swap x y (ho x rfl) (ho' y rfl)
    | .field .., .rule _ | .rule _, .field .. => rfl
  chains := by
    intro o₁ o₂ o₃ h₁ h₂ h₃
    match o₁, o₂, o₃ with
    | .field x _, .field y _, .field z _ => exact hfields.chains x y z trivial trivial trivial
    | .rule x, .rule y, .rule z => exact hrules.chains x y z (h₁ x rfl) (h₂ y rfl) (h₃ z rfl)
    | .field x _, .field y _, .rule _ =>
      intro hxy _
      cases h : fields x y with
      | gt => exact absurd h hxy
      | lt | eq => simp [DimensionOrigin.compareBy, h]
    | .field .., .rule _, .rule _ => exact fun _ _ => rfl
    | .rule _, .field .., _ => exact fun h _ => absurd rfl h
    | _, .rule _, .field .. => exact fun _ h => absurd rfl h

namespace Space

/-! ## Lists up to the shorter one -/

section Zip

variable {α : Type} {P : α → Prop} {order : α → α → Ordering}

theorem compareZip_congr {order' : α → α → Ordering} : ∀ xs ys : List α,
    (∀ x ∈ xs, ∀ y ∈ ys, order x y = order' x y) → compareZip order xs ys = compareZip order' xs ys
  | [], [], _ | [], _ :: _, _ | _ :: _, [], _ => rfl
  | x :: xs, y :: ys, h => by
      rw [compareZip, compareZip, h x List.mem_cons_self y List.mem_cons_self,
        compareZip_congr xs ys fun x' hx y' hy =>
          h x' (List.mem_cons_of_mem _ hx) y' (List.mem_cons_of_mem _ hy)]

theorem swap_compareZip (h : LawfulOn P order) : ∀ xs ys : List α, (∀ x ∈ xs, P x) →
    (∀ y ∈ ys, P y) → compareZip order ys xs = (compareZip order xs ys).swap
  | [], [], _, _ | [], _ :: _, _, _ | _ :: _, [], _, _ => by
      simp only [compareZip, Ordering.swap_eq]
  | x :: xs, y :: ys, hx, hy => by
      rw [compareZip, compareZip, Ordering.swap_then,
        h.swap x y (hx x List.mem_cons_self) (hy y List.mem_cons_self),
        swap_compareZip h xs ys (fun a ha => hx a (List.mem_cons_of_mem _ ha))
          fun a ha => hy a (List.mem_cons_of_mem _ ha)]

theorem chains_compareZip (h : LawfulOn P order) : ∀ xs ys zs : List α, xs.length = ys.length →
    ys.length = zs.length → (∀ x ∈ xs, P x) → (∀ y ∈ ys, P y) → (∀ z ∈ zs, P z) →
      Chains (compareZip order xs ys) (compareZip order ys zs) (compareZip order xs zs)
  | [], [], [], _, _, _, _, _ => fun _ _ => rfl
  | x :: xs, y :: ys, z :: zs, hxy, hyz, hx, hy, hz => by
      refine (h.chains x y z (hx x List.mem_cons_self) (hy y List.mem_cons_self)
        (hz z List.mem_cons_self)).then fun _ _ => ?_
      exact chains_compareZip h xs ys zs (Nat.succ.inj hxy) (Nat.succ.inj hyz)
        (fun a ha => hx a (List.mem_cons_of_mem _ ha))
        (fun a ha => hy a (List.mem_cons_of_mem _ ha))
        fun a ha => hz a (List.mem_cons_of_mem _ ha)

end Zip

variable {s : Space}

/-! ## Structure -/

/-- Order of partitions by what they are: classes, table, number of axes, axes. -/
def compareCuts (s : Space) (dimensions : Dimension → Dimension → Ordering) (p q : Partition) :
    Ordering :=
  (compare p.className q.className).then ((compare p.parentClass q.parentClass).then
    ((compare p.table q.table).then ((compare p.axes.length q.axes.length).then
      (compareZip (s.compareAxisWith dimensions) p.axes q.axes))))

section Structure

variable {dimensions : Dimension → Dimension → Ordering}

theorem lawfulOn_compareAxisWith (h : LawfulOn (· ∈ s.dimensions) dimensions) :
    LawfulOn (fun a : Axis => ∃ d, s.dimensions[a.dimension]? = some d)
      (s.compareAxisWith dimensions) := by
  refine (LawfulOn.of_compare Axis.granularity).andThen ?_ ?_
  · rintro a b ⟨d, hd⟩ ⟨e, he⟩
    simp only [hd, he]
    exact h.swap d e (List.mem_of_getElem? hd) (List.mem_of_getElem? he)
  · rintro a b c ⟨d, hd⟩ ⟨e, he⟩ ⟨f, hf⟩ _ _
    simp only [hd, he, hf]
    exact h.chains d e f (List.mem_of_getElem? hd) (List.mem_of_getElem? he)
      (List.mem_of_getElem? hf)

theorem lawfulOn_compareCuts (hs : s.WellFounded) (h : LawfulOn (· ∈ s.dimensions) dimensions) :
    LawfulOn (· ∈ s.partitions) (s.compareCuts dimensions) := by
  have haxes : ∀ p ∈ s.partitions, ∀ a ∈ p.axes, ∃ d, s.dimensions[a.dimension]? = some d := by
    intro p hp a ha
    obtain ⟨d, hd, -⟩ := hs.axis_dimension p hp a ha
    exact ⟨d, hd⟩
  refine (LawfulOn.of_compare Partition.className).both
    ((LawfulOn.of_compare Partition.parentClass).both ((LawfulOn.of_compare Partition.table).both
      ((LawfulOn.of_compare fun p : Partition => p.axes.length).andThen ?_ ?_)))
  · intro p q hp hq
    exact swap_compareZip (lawfulOn_compareAxisWith h) p.axes q.axes (haxes p hp) (haxes q hq)
  · intro p q r hp hq hr hpq hqr
    exact chains_compareZip (lawfulOn_compareAxisWith h) p.axes q.axes r.axes
      (Std.compare_eq_iff_eq.mp hpq) (Std.compare_eq_iff_eq.mp hqr) (haxes p hp) (haxes q hq)
      (haxes r hr)

/-- Ranks compare as their partitions do. -/
theorem comparePartitionsWith_eq (hs : s.WellFounded)
    (h : LawfulOn (· ∈ s.dimensions) dimensions) {a b : Nat} {p q : Partition}
    (hp : s.partitions[a]? = some p) (hq : s.partitions[b]? = some q) :
    s.comparePartitionsWith dimensions a b = s.compareCuts dimensions p q := by
  unfold comparePartitionsWith
  split
  · rename_i hab
    subst hab
    obtain rfl : p = q := Option.some.inj (hp.symm.trans hq)
    exact ((lawfulOn_compareCuts hs h).refl (List.mem_of_getElem? hp)).symm
  · simp only [hp, hq, compareCuts]

/-- A partition is registered under a rank. -/
def Registered (s : Space) (rank : Nat) : Prop := ∃ p, s.partitions[rank]? = some p

theorem lawfulOn_comparePartitionsWith (hs : s.WellFounded)
    (h : LawfulOn (· ∈ s.dimensions) dimensions) :
    LawfulOn s.Registered (s.comparePartitionsWith dimensions) where
  swap := by
    rintro a b ⟨p, hp⟩ ⟨q, hq⟩
    rw [comparePartitionsWith_eq hs h hp hq, comparePartitionsWith_eq hs h hq hp]
    exact (lawfulOn_compareCuts hs h).swap p q (List.mem_of_getElem? hp) (List.mem_of_getElem? hq)
  chains := by
    rintro a b c ⟨p, hp⟩ ⟨q, hq⟩ ⟨r, hr⟩
    rw [comparePartitionsWith_eq hs h hp hq, comparePartitionsWith_eq hs h hq hr,
      comparePartitionsWith_eq hs h hp hr]
    exact (lawfulOn_compareCuts hs h).chains p q r (List.mem_of_getElem? hp)
      (List.mem_of_getElem? hq) (List.mem_of_getElem? hr)

theorem lawfulOn_comparePartsWith {P : Nat → Prop} {partitions : Nat → Nat → Ordering}
    (h : LawfulOn P partitions) :
    LawfulOn (fun part => P part.partition) (comparePartsWith partitions) :=
  (h.comp Part.partition fun _ hx => hx).both (.of_compare Part.indexes)

end Structure

theorem lawfulOn_compareDimensions (hs : s.WellFounded) :
    ∀ fuel, LawfulOn (· ∈ s.dimensions) (s.compareDimensions fuel)
  | 0 => ⟨fun _ _ _ _ => rfl, fun _ _ _ _ _ _ _ _ => rfl⟩
  | fuel + 1 => by
      have hrules := Rule.lawfulOn_compareWith (lawfulOn_comparePartsWith
        (lawfulOn_comparePartitionsWith hs (lawfulOn_compareDimensions hs fuel)))
      have horigins := lawfulOn_compareOrigins (.of_compare id) hrules
      have heq : s.compareDimensions (fuel + 1) = fun d e =>
          DimensionOrigin.compareBy (fun x y => compare (id x) (id y))
            (Rule.compareWith (comparePartsWith
              (s.comparePartitionsWith (s.compareDimensions fuel)))) d.origin e.origin := by
        funext d e
        unfold compareDimensions
        cases d.origin <;> cases e.origin <;> rfl
      rw [heq]
      refine horigins.comp Dimension.origin fun d hd r hr part hpart => ?_
      obtain ⟨k, hk⟩ := List.mem_iff_getElem?.mp hd
      obtain ⟨p, hp, -⟩ := hs.earlier k d r hk hr part hpart
      exact ⟨p, hp⟩

/-- The structural order is lawful on the rules whose partitions are registered. -/
theorem lawfulOn_compareRules (hs : s.WellFounded) :
    LawfulOn (Rule.PartsIn fun part => s.Registered part.partition) s.compareRules :=
  Rule.lawfulOn_compareWith (lawfulOn_comparePartsWith
    (lawfulOn_comparePartitionsWith hs (lawfulOn_compareDimensions hs s.depth)))

/-! ## Cost -/

/-- A part has one index for each axis of its partition. -/
def Shaped (s : Space) (part : Part) : Prop :=
  ∃ p, s.partitions[part.partition]? = some p ∧ part.indexes.length = p.axes.length

/-- All parts have one index per axis: those kept in partitions, and those that the rules of
dimensions name. -/
structure WellShaped (s : Space) : Prop where
  kept : ∀ p ∈ s.partitions, ∀ entry ∈ p.parts, entry.1.length = p.axes.length
  named : ∀ d ∈ s.dimensions, ∀ r, d.origin = .rule r → r.PartsIn s.Shaped

theorem length_axisDimensions (hs : s.WellFounded) {p : Partition} (hp : p ∈ s.partitions) :
    (s.axisDimensions p).length = p.axes.length := by
  rw [axisDimensions, List.length_filterMap_eq_countP, List.countP_eq_length]
  intro a ha
  obtain ⟨d, hd, -⟩ := hs.axis_dimension p hp a ha
  rw [hd]
  rfl

/-- The order of dimensions by cost looks at their origins only. -/
theorem compareDimensionCostsWith_eq (rules : Rule → Rule → Ordering) :
    compareDimensionCostsWith rules = fun d e =>
      DimensionOrigin.compareBy (fun _ _ => .eq) rules d.origin e.origin := by
  funext d e
  unfold compareDimensionCostsWith
  cases d.origin <;> cases e.origin <;> rfl

theorem lawfulOn_compareDimensionCostsWith {rules : Rule → Rule → Ordering} {P : Rule → Prop}
    (h : LawfulOn P rules) :
    LawfulOn (fun d => ∀ r, d.origin = .rule r → P r) (compareDimensionCostsWith rules) := by
  rw [compareDimensionCostsWith_eq]
  exact (lawfulOn_compareOrigins Rule.lawfulOn_const h).comp Dimension.origin fun _ hd => hd

/-- Parts whose costs can be compared: they have one index per axis, and so have the parts that the
rules of their dimensions name, and on. -/
structure Comparable (s : Space) (P : Part → Prop) : Prop where
  shaped : ∀ part, P part → s.Shaped part
  onward : ∀ part, P part → ∀ r ∈ s.dimensionRules part, r.PartsIn P

theorem mem_dimensionRules {part : Part} {p : Partition} {d : Dimension} {r : Rule}
    (hp : s.partitions[part.partition]? = some p) (hd : d ∈ s.axisDimensions p)
    (hr : d.origin = .rule r) : r ∈ s.dimensionRules part := by
  rw [dimensionRules, hp]
  exact List.mem_filterMap.mpr ⟨d, hd, by rw [Dimension.rule?, hr]⟩

theorem WellShaped.comparable (hw : s.WellShaped) : s.Comparable s.Shaped where
  shaped := fun _ h => h
  onward := by
    intro part _ r hr
    obtain ⟨d, hd, ho⟩ := exists_of_mem_dimensionRules hr
    exact hw.named d hd r ho

section Rounding

variable {P : Part → Prop} (round : Float → Int)

theorem lawfulOn_comparePartCosts (hs : s.WellFounded) (hP : s.Comparable P) :
    ∀ fuel, LawfulOn P (s.comparePartCosts round fuel)
  | 0 => ⟨fun _ _ _ _ => rfl, fun _ _ _ _ _ _ _ _ => rfl⟩
  | fuel + 1 => by
      have hdims := lawfulOn_compareDimensionCostsWith
        (Rule.lawfulOn_compareCostWith round (lawfulOn_comparePartCosts hs hP fuel))
      have honward : ∀ {x p}, P x → s.partitions[x.partition]? = some p →
          ∀ d ∈ s.axisDimensions p, ∀ r, d.origin = .rule r → r.PartsIn P :=
        fun hx hp d hd r hr => hP.onward _ hx r (mem_dimensionRules hp hd hr)
      refine (LawfulOn.of_compare (s.partCost round)).both
        ((LawfulOn.of_compare fun x : Part => x.indexes.length).andThen ?_ ?_)
      · intro x y hx hy
        obtain ⟨p, hp, -⟩ := hP.shaped x hx
        obtain ⟨q, hq, -⟩ := hP.shaped y hy
        simp only [hp, hq]
        exact swap_compareZip hdims _ _ (honward hx hp) (honward hy hq)
      · intro x y z hx hy hz hxy hyz
        obtain ⟨p, hp, hxp⟩ := hP.shaped x hx
        obtain ⟨q, hq, hyq⟩ := hP.shaped y hy
        obtain ⟨r, hr, hzr⟩ := hP.shaped z hz
        have hlen := length_axisDimensions hs (List.mem_of_getElem? hp)
        have hlen' := length_axisDimensions hs (List.mem_of_getElem? hq)
        have hlen'' := length_axisDimensions hs (List.mem_of_getElem? hr)
        rw [Std.compare_eq_iff_eq] at hxy hyz
        simp only [hp, hq, hr]
        exact chains_compareZip hdims _ _ _ (by omega) (by omega) (honward hx hp) (honward hy hq)
          (honward hz hr)

/-- The order of cost is lawful on the rules whose parts can be compared. -/
theorem lawfulOn_compareCostBy (hs : s.WellFounded) (hP : s.Comparable P) :
    LawfulOn (Rule.PartsIn P) (s.compareCostBy round) :=
  Rule.lawfulOn_compareCostWith round (lawfulOn_comparePartCosts round hs hP s.depth)

/-- The order of cost and structure is lawful on the rules whose parts can be compared. -/
theorem lawfulOn_compareCostNameBy (hs : s.WellFounded) (hP : s.Comparable P) :
    LawfulOn (Rule.PartsIn P) (s.compareCostNameBy round) := by
  refine (lawfulOn_compareCostBy round hs hP).both
    ((lawfulOn_compareRules hs).mono fun r hr part hpart => ?_)
  obtain ⟨p, hp, -⟩ := hP.shaped part (hr part hpart)
  exact ⟨p, hp⟩

/-- The order of cost and tie-break is lawful on the rules whose parts can be compared. -/
theorem lawfulOn_compareCostTieBy (hs : s.WellFounded) (hP : s.Comparable P) :
    LawfulOn (Rule.PartsIn P) (s.compareCostTieBy round) :=
  (lawfulOn_compareCostBy round hs hP).both (.of_compare Rule.tieBreak)

end Rounding

/-- The order of cost and structure is lawful on the rules whose parts have one index per axis. -/
theorem lawfulOn_compareCostName (hs : s.WellFounded) (hw : s.WellShaped) :
    LawfulOn (Rule.PartsIn s.Shaped) s.compareCostName :=
  lawfulOn_compareCostNameBy roundedCost hs hw.comparable

/-! ## What the orders look at -/

/-- Two spaces that orders of rules do not tell apart: they have one frame, and the same parts at
the same costs. -/
structure SameCuts (s s' : Space) : Prop where
  frame : s'.frame = s.frame
  costs : s'.partitions.map Partition.costs = s.partitions.map Partition.costs

section Cuts

variable {s' : Space}

theorem origin?_of_frame (h : s'.frame = s.frame) (k : Nat) :
    s'.dimensions[k]?.map (·.origin) = s.dimensions[k]?.map (·.origin) := by
  have hk := congrArg (fun l => (l[k]?).map Prod.snd) (congrArg Prod.fst h)
  simpa [Space.frame, Function.comp_def] using hk

theorem compareAxisWith_congr (h : s'.frame = s.frame)
    {dims dims' : Dimension → Dimension → Ordering}
    (hdims : ∀ d d' e e', d'.origin = d.origin → e'.origin = e.origin → dims' d' e' = dims d e) :
    s'.compareAxisWith dims' = s.compareAxisWith dims := by
  funext a b
  have ha := origin?_of_frame h a.dimension
  have hb := origin?_of_frame h b.dimension
  unfold compareAxisWith
  cases hd : s.dimensions[a.dimension]? with
  | none =>
    rw [hd, Option.map_none, Option.map_eq_none_iff] at ha
    rw [ha]
  | some d =>
    rw [hd, Option.map_some, Option.map_eq_some_iff] at ha
    obtain ⟨d', hd', ho⟩ := ha
    rw [hd']
    cases he : s.dimensions[b.dimension]? with
    | none =>
      rw [he, Option.map_none, Option.map_eq_none_iff] at hb
      rw [hb]
    | some e =>
      rw [he, Option.map_some, Option.map_eq_some_iff] at hb
      obtain ⟨e', he', ho'⟩ := hb
      rw [he']
      exact congrArg _ (hdims d d' e e' ho ho')

theorem cut?_of_frame (h : s'.frame = s.frame) (k : Nat) :
    (s'.partitions[k]?).map Partition.cut = (s.partitions[k]?).map Partition.cut := by
  have hk := congrArg (fun l => l[k]?) (congrArg Prod.snd h)
  simp only [Space.frame, List.getElem?_map] at hk
  exact hk

theorem comparePartitionsWith_congr (h : s'.frame = s.frame)
    {dims dims' : Dimension → Dimension → Ordering}
    (hdims : ∀ d d' e e', d'.origin = d.origin → e'.origin = e.origin → dims' d' e' = dims d e) :
    s'.comparePartitionsWith dims' = s.comparePartitionsWith dims := by
  funext a b
  have hcut := cut?_of_frame h
  unfold comparePartitionsWith
  rw [compareAxisWith_congr h hdims]
  cases hp : s.partitions[a]? with
  | none =>
    have ha := hcut a
    rw [hp, Option.map_none, Option.map_eq_none_iff] at ha
    rw [ha]
  | some p =>
    have ha := hcut a
    rw [hp, Option.map_some, Option.map_eq_some_iff] at ha
    obtain ⟨p', hp', hcut'⟩ := ha
    simp only [Partition.cut, Prod.mk.injEq] at hcut'
    obtain ⟨hC, hparent, htable, haxes⟩ := hcut'
    cases hq : s.partitions[b]? with
    | none =>
      have hb := hcut b
      rw [hq, Option.map_none, Option.map_eq_none_iff] at hb
      rw [hp', hb]
    | some q =>
      have hb := hcut b
      rw [hq, Option.map_some, Option.map_eq_some_iff] at hb
      obtain ⟨q', hq', hcut'⟩ := hb
      simp only [Partition.cut, Prod.mk.injEq] at hcut'
      obtain ⟨hC', hparent', htable', haxes'⟩ := hcut'
      simp only [hp', hq', hC, hparent, htable, haxes, hC', hparent', htable', haxes']

theorem compareDimensions_congr (h : s'.frame = s.frame) : ∀ (fuel : Nat) (d d' e e' : Dimension),
    d'.origin = d.origin → e'.origin = e.origin →
      s'.compareDimensions fuel d' e' = s.compareDimensions fuel d e
  | 0, _, _, _, _, _, _ => rfl
  | fuel + 1, d, d', e, e', hd, he => by
      unfold compareDimensions
      rw [hd, he, comparePartitionsWith_congr h (compareDimensions_congr h fuel)]

theorem depth_of_frame (h : s'.frame = s.frame) : s'.depth = s.depth := by
  have hlen := congrArg List.length (congrArg Prod.fst h)
  simp only [Space.frame, List.length_map] at hlen
  rw [depth, depth, hlen]

theorem compareRules_congr (h : s'.frame = s.frame) : s'.compareRules = s.compareRules := by
  funext a b
  rw [compareRules, compareRules, compareParts, compareParts]
  have hpartitions : s'.comparePartitions = s.comparePartitions := by
    funext i j
    rw [comparePartitions, comparePartitions, depth_of_frame h,
      comparePartitionsWith_congr h (compareDimensions_congr h s.depth)]
  rw [hpartitions]

theorem compareZip_map {α β : Type} (f : β → α) (order : α → α → Ordering) :
    ∀ xs ys : List β,
      compareZip (fun x y => order (f x) (f y)) xs ys = compareZip order (xs.map f) (ys.map f)
  | [], [] | [], _ :: _ | _ :: _, [] => rfl
  | x :: xs, y :: ys => by
      simp only [compareZip, List.map_cons, compareZip_map f order xs ys]

theorem origins_axisDimensions (h : s'.frame = s.frame) {p p' : Partition}
    (haxes : p'.axes = p.axes) :
    (s'.axisDimensions p').map (·.origin) = (s.axisDimensions p).map (·.origin) := by
  rw [axisDimensions, axisDimensions, haxes, List.map_filterMap, List.map_filterMap]
  congr 1
  funext a
  exact origin?_of_frame h a.dimension

namespace SameCuts

protected theorem refl (s : Space) : SameCuts s s := ⟨rfl, rfl⟩

protected theorem trans {s'' : Space} (h : SameCuts s s') (h' : SameCuts s' s'') :
    SameCuts s s'' :=
  ⟨h'.frame.trans h.frame, h'.costs.trans h.costs⟩

/-- A partition is cut in one way, into parts of the same costs, in both spaces. -/
theorem partition? (h : SameCuts s s') (k : Nat) :
    (s.partitions[k]? = none ∧ s'.partitions[k]? = none) ∨
      ∃ p p', s.partitions[k]? = some p ∧ s'.partitions[k]? = some p' ∧ p'.cut = p.cut ∧
        p'.costs = p.costs := by
  have hcosts : (s'.partitions[k]?).map Partition.costs = (s.partitions[k]?).map Partition.costs := by
    simpa only [List.getElem?_map] using congrArg (fun l => l[k]?) h.costs
  have hcut := cut?_of_frame h.frame k
  cases hp : s.partitions[k]? with
  | none =>
    rw [hp, Option.map_none, Option.map_eq_none_iff] at hcosts
    exact .inl ⟨rfl, hcosts⟩
  | some p =>
    rw [hp, Option.map_some, Option.map_eq_some_iff] at hcosts
    obtain ⟨p', hp', hcosts⟩ := hcosts
    rw [hp, hp', Option.map_some, Option.map_some] at hcut
    exact .inr ⟨p, p', rfl, hp', Option.some.inj hcut, hcosts⟩

theorem parentClass (h : SameCuts s s') {k : Nat} {p' : Partition}
    (hp' : s'.partitions[k]? = some p') :
    ∃ p, s.partitions[k]? = some p ∧ p'.parentClass = p.parentClass := by
  rcases h.partition? k with ⟨-, hnone⟩ | ⟨p, q, hp, hq, hcut, -⟩
  · cases hnone.symm.trans hp'
  · obtain rfl := Option.some.inj (hq.symm.trans hp')
    exact ⟨p, hp, congrArg (·.2.1) hcut⟩

theorem partCost (h : SameCuts s s') (round : Float → Int) : s'.partCost round = s.partCost round := by
  have hlookup : ∀ (p : Partition) (indexes : List Nat),
      (p.part? indexes).map (·.cost) = p.costs.lookup indexes := by
    intro p indexes
    rw [Partition.part?, Partition.costs]
    induction p.parts with
    | nil => rfl
    | cons e parts ih =>
      rw [List.map_cons, List.lookup_cons, List.lookup_cons]
      cases indexes == e.1 with
      | true => rfl
      | false => exact ih
  funext part
  unfold Space.partCost part?
  rcases h.partition? part.partition with ⟨hp, hp'⟩ | ⟨p, p', hp, hp', -, hcosts⟩
  · rw [hp, hp']
  · have heq : (p'.part? part.indexes).map (·.cost) = (p.part? part.indexes).map (·.cost) := by
      rw [hlookup, hlookup, hcosts]
    rw [hp, hp', Option.bind_some, Option.bind_some]
    cases he : p.part? part.indexes with
    | none =>
      rw [he, Option.map_none, Option.map_eq_none_iff] at heq
      rw [heq]
    | some e =>
      rw [he, Option.map_some, Option.map_eq_some_iff] at heq
      obtain ⟨e', he', hcost⟩ := heq
      rw [he']
      exact congrArg round hcost

theorem comparePartCosts (h : SameCuts s s') (round : Float → Int) :
    ∀ fuel, s'.comparePartCosts round fuel = s.comparePartCosts round fuel
  | 0 => rfl
  | fuel + 1 => by
      funext x y
      unfold Space.comparePartCosts
      rw [comparePartCosts h round fuel, h.partCost]
      rcases h.partition? x.partition with ⟨hp, hp'⟩ | ⟨p, p', hp, hp', hcut, -⟩
      · rw [hp, hp']
      · rcases h.partition? y.partition with ⟨hq, hq'⟩ | ⟨q, q', hq, hq', hcut', -⟩
        · rw [hp, hp', hq, hq']
        · simp only [hp, hp', hq, hq', compareDimensionCostsWith_eq]
          rw [compareZip_map Dimension.origin (DimensionOrigin.compareBy _ _),
            compareZip_map Dimension.origin (DimensionOrigin.compareBy _ _),
            origins_axisDimensions h.frame (congrArg (·.2.2.2) hcut),
            origins_axisDimensions h.frame (congrArg (·.2.2.2) hcut')]

/-- Spaces with the same cuts order rules in the same way. -/
theorem compareCostName (h : SameCuts s s') : s'.compareCostName = s.compareCostName := by
  funext a b
  rw [Space.compareCostName, Space.compareCostName, Space.compareCostNameBy, Space.compareCostNameBy,
    Space.compareCostBy, Space.compareCostBy, depth_of_frame h.frame, h.comparePartCosts,
    compareRules_congr h.frame]

end SameCuts

end Cuts

end Space

end FeatureSynth
