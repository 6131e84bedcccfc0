/-
# Use counts add up

A use of a part is a use of its partition and of the dimension of each axis, and a use of a
dimension is a use of all that its rule names.  Counts that start from zero and grow in this way
are never out of balance: a partition has been used as often as its parts together, and a dimension
as often as the partitions that cut along it, once per axis.

The counters that a use counts up are known beforehand (`countersOf`), so every law is one about
lists of counters.  Each counter of a part is followed by one counter for each of its axes; what
comes in between are the counters of whole parts again, for which the law holds by induction on
the bound for the way down.
-/
import Mathlib.Algebra.BigOperators.Group.List.Basic
import FeatureSynth.Proofs.Space.Costs
import FeatureSynth.Proofs.Space.SameLevels
import FeatureSynth.Proofs.Space.UseOrder

namespace FeatureSynth

namespace Partition

/-- Number of axes on a dimension. -/
def axesOn (p : Partition) (k : Nat) : Nat := p.axes.countP (·.dimension == k)

/-- Number of uses of the parts. -/
def partUses (p : Partition) : Nat := (p.parts.map (·.2.uses)).sum

end Partition

/-- The parts that a dimension passes uses on to are those its rule names. -/
theorem Dimension.rule_of_mem_parts (d : Dimension) {q : Part}
    (hq : q ∈ (d.rule?.map Rule.parts).getD []) : ∃ r, d.origin = .rule r ∧ q ∈ r.parts := by
  cases ho : d.origin with
  | field name type => simp [Dimension.rule?, ho] at hq
  | rule r => exact ⟨r, rfl, by simpa [Dimension.rule?, ho] using hq⟩

namespace Space

variable {s t : Space} {rules : List Rule}

/-! ## The way down ends -/

/-- A use of a part `p` is a use of `q`, one step further down: a rule that `p` is cut along names
it. -/
def Passes (s : Space) (q p : Part) : Prop := ∃ r ∈ s.dimensionRules p, q ∈ r.parts

theorem acc_passes (hs : s.WellFounded) : ∀ (bound : Nat) (p : Part),
    s.Below bound p.partition → Acc s.Passes p
  | 0, p, h => by
      refine .intro p fun q ⟨r, hr, _⟩ => ?_
      rw [dimensionRules_of_below h] at hr
      cases hr
  | bound + 1, p, h =>
      .intro p fun q ⟨_, hr, hq⟩ => acc_passes hs bound q (below_of_mem_dimensionRules hs h hr hq)

/-- The counters that one use of the dimension of an axis counts up. -/
def countersOfAxis (s : Space) (fuel : Nat) (a : Axis) : List Counter :=
  match s.dimensions[a.dimension]? with
  | none => []
  | some d =>
    .dimension a.dimension :: ((d.rule?.map Rule.parts).getD []).flatMap (s.countersOf fuel)

theorem countersOf_of_some {fuel : Nat} {part : Part} {p : Partition}
    (hp : s.partitions[part.partition]? = some p) :
    s.countersOf (fuel + 1) part = .part part :: p.axes.flatMap (s.countersOfAxis fuel) := by
  rw [countersOf, hp]
  rfl

/-- A use of a part counts up the same counters within any bound above the dimensions it is cut
along. -/
theorem countersOf_of_below (hs : s.WellFounded) : ∀ (fuel fuel' bound : Nat) (part : Part),
    s.Below bound part.partition → bound < fuel → bound < fuel' →
      s.countersOf fuel part = s.countersOf fuel' part
  | 0, _, bound, _, _, h, _ => absurd h (Nat.not_lt_zero bound)
  | _, 0, bound, _, _, _, h => absurd h (Nat.not_lt_zero bound)
  | fuel + 1, fuel' + 1, bound, part, hbelow, h, h' => by
      cases hp : s.partitions[part.partition]? with
      | none => rw [countersOf, countersOf, hp]
      | some p =>
        rw [countersOf_of_some hp, countersOf_of_some hp]
        congr 1
        refine List.flatMap_congr fun a ha => ?_
        have hlt := hbelow p hp a ha
        unfold countersOfAxis
        split
        · rfl
        · rename_i d hd
          congr 1
          refine List.flatMap_congr fun q hq => ?_
          obtain ⟨r, ho, hq⟩ := d.rule_of_mem_parts hq
          -- the parts of the rule are cut below a bound that is smaller by one
          exact countersOf_of_below hs fuel fuel' (bound - 1) q
            (hs.below_of_earlier (by omega) hd ho hq) (by omega) (by omega)

/-- The bound for the way down is never met. -/
theorem usePart_of_le (hs : s.WellFounded) {fuel : Nat} (hle : s.depth ≤ fuel) (part : Part)
    (ht : t.resetUses = s.resetUses) : usePart fuel t part = usePart s.depth t part := by
  rw [usePart_eq fuel part t ht, usePart_eq s.depth part t ht,
    countersOf_of_below hs fuel s.depth s.dimensions.length part (hs.below_length _) hle
      (Nat.lt_succ_self _)]

/-! ## Counters met -/

theorem Present.isSome {part : Part} (h : s.Present part) : (s.part? part).isSome = true := by
  obtain ⟨hsome, -⟩ := h
  exact hsome

/-- The counters of a use are those of parts that the way down passes, and of the dimensions these
are cut along. -/
theorem of_mem_countersOf {P : Part → Prop}
    (hdown : ∀ part, P part → ∀ r ∈ s.dimensionRules part, ∀ q ∈ r.parts, P q) :
    ∀ (fuel : Nat) (part : Part), P part → ∀ c ∈ s.countersOf fuel part, ∃ q p, P q ∧
      s.partitions[q.partition]? = some p ∧ (c = .part q ∨ ∃ a ∈ p.axes, c = .dimension a.dimension)
  | 0, _, _, _, hc => absurd hc List.not_mem_nil
  | fuel + 1, part, hpart, c, hc => by
      cases hp : s.partitions[part.partition]? with
      | none =>
        rw [countersOf, hp] at hc
        cases hc
      | some p =>
        rw [countersOf_of_some hp] at hc
        rcases List.mem_cons.mp hc with rfl | hc
        · exact ⟨part, p, hpart, hp, .inl rfl⟩
        · obtain ⟨a, ha, hc⟩ := List.mem_flatMap.mp hc
          unfold countersOfAxis at hc
          split at hc
          · cases hc
          · rename_i d hd
            rcases List.mem_cons.mp hc with rfl | hc
            · exact ⟨part, p, hpart, hp, .inr ⟨a, ha, rfl⟩⟩
            · obtain ⟨q, hq, hc⟩ := List.mem_flatMap.mp hc
              obtain ⟨r, ho, hq⟩ := d.rule_of_mem_parts hq
              have hr : r ∈ s.dimensionRules part :=
                mem_dimensionRules hp (List.mem_filterMap.mpr ⟨a, ha, hd⟩) ho
              exact of_mem_countersOf hdown fuel q (hdown part hpart r hr q hq) c hc

theorem of_mem_countersOfRules {P : Part → Prop}
    (hdown : ∀ part, P part → ∀ r ∈ s.dimensionRules part, ∀ q ∈ r.parts, P q)
    (hrules : ∀ r ∈ rules, r.PartsIn P) {c : Counter} (hc : c ∈ s.countersOfRules rules) :
    ∃ q p, P q ∧ s.partitions[q.partition]? = some p ∧
      (c = .part q ∨ ∃ a ∈ p.axes, c = .dimension a.dimension) := by
  obtain ⟨r, hr, hc⟩ := List.mem_flatMap.mp hc
  obtain ⟨part, hpart, hc⟩ := List.mem_flatMap.mp hc
  exact of_mem_countersOf hdown _ part (hrules r hr part hpart) c hc

theorem length_dimensions_of_reset (h : t.resetUses = s.resetUses) :
    t.dimensions.length = s.dimensions.length := by
  have := congrArg (fun u : Space => u.dimensions.length) h
  simpa only [Space.resetUses, List.length_map] using this

/-! ## Partitions and their parts -/

/-- Every partition keeps its parts under their indexes, each once. -/
def PartsKeyed (s : Space) : Prop := ∀ p ∈ s.partitions, (p.parts.map (·.1)).Nodup

/-- Every partition has been used as often as its parts. -/
def PartsTally (s : Space) : Prop := ∀ p ∈ s.partitions, p.uses = p.partUses

theorem keys_countPart (indexes : List Nat) (p : Partition) :
    (countPart indexes p).parts.map (·.1) = p.parts.map (·.1) := by
  rw [countPart, List.map_map]
  refine List.map_congr_left fun x _ => ?_
  by_cases h : x.1 = indexes <;> simp [h]

/-- To count a part is to count once each entry under its indexes. -/
theorem partUses_countPart (indexes : List Nat) (p : Partition) :
    (countPart indexes p).partUses = p.partUses + (p.parts.map (·.1)).count indexes := by
  unfold Partition.partUses countPart
  dsimp only
  induction p.parts with
  | nil => rfl
  | cons x rest ih =>
    rw [List.map_cons, List.map_cons, List.sum_cons, ih, List.map_cons, List.sum_cons, List.map_cons,
      List.count_cons]
    by_cases h : x.1 = indexes <;> simp [h] <;> omega

theorem PartsKeyed.count (h : t.PartsKeyed) (c : Counter) : (t.count c).PartsKeyed := by
  cases c with
  | dimension rank => exact h
  | part part =>
    intro p hp
    obtain ⟨i, hi⟩ := List.mem_iff_getElem?.mp hp
    rw [Space.count, modifyPartition, List.getElem?_modify] at hi
    obtain ⟨q, hq, rfl⟩ := Option.map_eq_some_iff.mp hi
    split
    · rw [keys_countPart]
      exact h q (List.mem_of_getElem? hq)
    · exact h q (List.mem_of_getElem? hq)

/-- A part that is there is counted together with its partition. -/
theorem PartsTally.countPart (h : t.PartsTally) (hkeys : t.PartsKeyed) {part : Part}
    (hpart : (t.part? part).isSome = true) : (t.count (.part part)).PartsTally := by
  intro p hp
  obtain ⟨i, hi⟩ := List.mem_iff_getElem?.mp hp
  rw [Space.count, modifyPartition, List.getElem?_modify] at hi
  obtain ⟨q, hq, rfl⟩ := Option.map_eq_some_iff.mp hi
  have hmem := List.mem_of_getElem? hq
  split
  · rename_i hi
    subst hi
    obtain ⟨entry, hentry⟩ := Option.isSome_iff_exists.mp hpart
    rw [part?, hq, Option.bind_some] at hentry
    have hindexes : part.indexes ∈ q.parts.map (·.1) :=
      List.mem_map_of_mem (f := (·.1)) (mem_of_lookup hentry)
    rw [partUses_countPart, List.count_eq_one_of_mem (hkeys q hmem) hindexes, ← h q hmem]
    rfl
  · exact h q hmem

/-- Counting parts that are there keeps partitions in step with their parts. -/
theorem partsTally_foldl : ∀ {cs : List Counter} {t : Space}, t.PartsTally → t.PartsKeyed →
    t.resetUses = s.resetUses → (∀ q, .part q ∈ cs → (s.part? q).isSome = true) →
      (cs.foldl count t).PartsTally
  | [], _, h, _, _, _ => h
  | c :: cs, t, h, hkeys, ht, hcs => by
      rw [List.foldl_cons]
      refine partsTally_foldl ?_ (hkeys.count c) ((resetUses_count t c).trans ht)
        fun q hq => hcs q (List.mem_cons_of_mem _ hq)
      cases c with
      | dimension rank => exact h
      | part part =>
        refine h.countPart hkeys ?_
        rw [part?_isSome_of_sameCuts (sameCuts_of_reset ht)]
        exact hcs part List.mem_cons_self

/-! ## Dimensions and the axes on them -/

/-- Number of uses of a dimension. -/
def dimensionUses (s : Space) (k : Nat) : Nat := (s.dimensions[k]?.map (·.uses)).getD 0

/-- Number of uses of the partitions that cut along a dimension, once per axis. -/
def axisUses (s : Space) (k : Nat) : Nat := (s.partitions.map fun p => p.uses * p.axesOn k).sum

/-- How often a counter counts up a dimension. -/
def Counter.onDimension (k : Nat) : Counter → Nat
  | .dimension rank => if rank = k then 1 else 0
  | .part _ => 0

/-- How many axes on a dimension a counter counts up the partition of. -/
def Counter.onAxes (s : Space) (k : Nat) : Counter → Nat
  | .dimension _ => 0
  | .part q => (s.partitions[q.partition]?.map (·.axesOn k)).getD 0

theorem dimensionUses_count {k : Nat} (hk : k < t.dimensions.length) (c : Counter) :
    (t.count c).dimensionUses k = t.dimensionUses k + c.onDimension k := by
  cases c with
  | part part => rfl
  | dimension rank =>
    have hd := List.getElem?_eq_getElem hk
    simp only [dimensionUses, Space.count, modifyDimension, List.getElem?_modify, hd,
      Counter.onDimension]
    by_cases h : rank = k <;> simp [h, countDimension]

theorem sum_map_modify {α : Type} {f : α → α} {g h : α → Nat} (hf : ∀ x, g (f x) = g x + h x) :
    ∀ (l : List α) (i : Nat),
      ((l.modify i f).map g).sum = (l.map g).sum + (l[i]?.map h).getD 0
  | [], i => by simp
  | x :: l, 0 => by simp [hf]; omega
  | x :: l, i + 1 => by simp [sum_map_modify hf l i]; omega

theorem axisUses_count (t : Space) (k : Nat) (c : Counter) :
    (t.count c).axisUses k = t.axisUses k + c.onAxes t k := by
  cases c with
  | dimension rank => rfl
  | part part =>
    exact sum_map_modify (f := countPart part.indexes) (g := fun p => p.uses * p.axesOn k)
      (fun p => Nat.succ_mul p.uses (p.axesOn k)) t.partitions part.partition

theorem onAxes_of_reset (ht : t.resetUses = s.resetUses) (k : Nat) (c : Counter) :
    c.onAxes t k = c.onAxes s k := by
  cases c with
  | dimension rank => rfl
  | part part =>
    have haxes := congrArg (fun u : Space => u.partitions[part.partition]?.map (·.axesOn k)) ht
    simp only [resetUses, List.getElem?_map, Option.map_map, Function.comp_def,
      Partition.axesOn] at haxes
    simp only [Counter.onAxes, Partition.axesOn, haxes]

theorem dimensionUses_foldl {k : Nat} : ∀ (cs : List Counter) {t : Space}, k < t.dimensions.length →
    (cs.foldl count t).dimensionUses k = t.dimensionUses k + (cs.map (·.onDimension k)).sum
  | [], _, _ => rfl
  | c :: cs, t, hk => by
      have hk' : k < (t.count c).dimensions.length := by
        rwa [length_dimensions_of_reset (resetUses_count t c)]
      rw [List.foldl_cons, dimensionUses_foldl cs hk', dimensionUses_count hk, List.map_cons,
        List.sum_cons, Nat.add_assoc]

theorem axisUses_foldl {k : Nat} : ∀ (cs : List Counter) {t : Space}, t.resetUses = s.resetUses →
    (cs.foldl count t).axisUses k = t.axisUses k + (cs.map (·.onAxes s k)).sum
  | [], _, _ => rfl
  | c :: cs, t, ht => by
      rw [List.foldl_cons, axisUses_foldl cs ((resetUses_count t c).trans ht), axisUses_count,
        onAxes_of_reset ht, List.map_cons, List.sum_cons, Nat.add_assoc]

/-- Counters in balance: dimension `k` is counted up once for every axis on it of a partition that
is. -/
def Balanced (s : Space) (k : Nat) (cs : List Counter) : Prop :=
  (cs.map (·.onDimension k)).sum = (cs.map (·.onAxes s k)).sum

theorem Balanced.flatMap {α : Type} {k : Nat} {f : α → List Counter} : ∀ {l : List α},
    (∀ x ∈ l, s.Balanced k (f x)) → s.Balanced k (l.flatMap f)
  | [], _ => rfl
  | x :: l, h => by
      have hx := h x List.mem_cons_self
      have hl := Balanced.flatMap fun y hy => h y (List.mem_cons_of_mem _ hy)
      unfold Balanced at hx hl ⊢
      rw [List.flatMap_cons, List.map_append, List.map_append, List.sum_append, List.sum_append, hx,
        hl]

/-- Axis by axis: the counter of the axis, and counters in balance. -/
theorem sum_onDimension_axes {k : Nat} {f : Axis → List Counter} : ∀ {axes : List Axis},
    (∀ a ∈ axes, ∃ cs, f a = .dimension a.dimension :: cs ∧ s.Balanced k cs) →
      ((axes.flatMap f).map (·.onDimension k)).sum =
        axes.countP (·.dimension == k) + ((axes.flatMap f).map (·.onAxes s k)).sum
  | [], _ => rfl
  | a :: axes, h => by
      obtain ⟨cs, hcs, hbalanced⟩ := h a List.mem_cons_self
      have ih := sum_onDimension_axes fun b hb => h b (List.mem_cons_of_mem _ hb)
      have hcount : (Counter.dimension a.dimension).onDimension k =
          if (a.dimension == k) = true then 1 else 0 := by
        simp [Counter.onDimension]
      unfold Balanced at hbalanced
      simp only [List.flatMap_cons, List.map_append, List.sum_append, hcs, List.map_cons,
        List.sum_cons, ih, hbalanced, hcount, List.countP_cons, Counter.onAxes]
      omega

theorem balanced_countersOf (hs : s.WellFounded) (k : Nat) : ∀ (fuel : Nat) (part : Part),
    s.Balanced k (s.countersOf fuel part)
  | 0, _ => rfl
  | fuel + 1, part => by
      cases hp : s.partitions[part.partition]? with
      | none =>
        rw [countersOf, hp]
        rfl
      | some p =>
        have haxes : ∀ a ∈ p.axes, ∃ cs, s.countersOfAxis fuel a = .dimension a.dimension :: cs ∧
            s.Balanced k cs := by
          intro a ha
          obtain ⟨d, hd, -⟩ := hs.axis_dimension p (List.mem_of_getElem? hp) a ha
          rw [countersOfAxis, hd]
          exact ⟨_, rfl, .flatMap fun q _ => balanced_countersOf hs k fuel q⟩
        rw [countersOf_of_some hp, Balanced, List.map_cons, List.sum_cons,
          sum_onDimension_axes haxes, List.map_cons, List.sum_cons, Counter.onAxes, hp]
        exact Nat.zero_add _

theorem balanced_countersOfRules (hs : s.WellFounded) (k : Nat) (rules : List Rule) :
    s.Balanced k (s.countersOfRules rules) :=
  .flatMap fun _ _ => .flatMap fun part _ => balanced_countersOf hs k s.depth part

/-! ## Dimensions in use -/

/-- A rule selects on a dimension: a part it names, at any depth, is cut along it. -/
def SelectsOn (s : Space) (r : Rule) (k : Nat) : Prop :=
  ∃ part ∈ r.parts, ∃ p, s.partitions[part.partition]? = some p ∧ ∃ a ∈ p.axes, a.dimension = k

/-- The dimensions that rules need: those they select on, those that the rules of these select on,
and on. -/
inductive Needs (s : Space) (rules : List Rule) : Nat → Prop
  | named {r : Rule} {k : Nat} : r ∈ rules → s.SelectsOn r k → Needs s rules k
  | onward {j k : Nat} {d : Dimension} {r : Rule} : Needs s rules j →
      s.dimensions[j]? = some d → d.origin = .rule r → s.SelectsOn r k → Needs s rules k

theorem PartUsed.used {part : Part} (h : t.PartUsed part) (ht : t.resetUses = s.resetUses)
    {p : Partition} (hp : s.partitions[part.partition]? = some p) {a : Axis} (ha : a ∈ p.axes) :
    t.Used a.dimension := by
  obtain ⟨q, hq, -, haxes⟩ := partition_of_frame (frame_of_reset ht) hp
  exact h q hq a (haxes ▸ ha)

theorem used_of_needs (hs : s.WellFounded) {k : Nat} (h : s.Needs rules k) :
    (s.countUses rules).Used k := by
  have hclosed := usesClosed_countUses hs rules
  have hreset := resetUses_countUses s rules
  induction h with
  | named hr hk =>
    obtain ⟨part, hpart, p, hp, a, ha, rfl⟩ := hk
    exact (hclosed.named _ hr part hpart).used hreset hp ha
  | onward _ hd ho hk ih =>
    obtain ⟨part, hpart, p, hp, a, ha, rfl⟩ := hk
    obtain ⟨d', hd', -, ho'⟩ := dimension_of_frame (frame_of_reset hreset) hd
    exact (hclosed.selected _ d' _ ih hd' (ho'.trans ho) part hpart).used hreset hp ha

theorem needs_of_counter {k : Nat} (h : .dimension k ∈ s.countersOfRules rules) :
    s.Needs rules k := by
  -- the way down only passes parts that are cut along dimensions needed
  let P : Part → Prop := fun part => ∀ p, s.partitions[part.partition]? = some p → ∀ a ∈ p.axes,
    s.Needs rules a.dimension
  have hdown : ∀ part, P part → ∀ r ∈ s.dimensionRules part, ∀ q ∈ r.parts, P q := by
    intro part hpart r hr q hq p hp a ha
    obtain ⟨p', a', d, hp', ha', hd, ho⟩ := dimension_of_mem_dimensionRules hr
    exact .onward (hpart p' hp' a' ha') hd ho ⟨q, hq, p, hp, a, ha, rfl⟩
  have hrules : ∀ r ∈ rules, r.PartsIn P :=
    fun r hr part hpart p hp a ha => .named hr ⟨part, hpart, p, hp, a, ha, rfl⟩
  obtain ⟨q, p, hq, hp, hc⟩ := of_mem_countersOfRules hdown hrules h
  rcases hc with hc | ⟨a, ha, hc⟩
  · cases hc
  · cases hc
    exact hq p hp a ha

/-! ## Counts start at zero -/

theorem dimensionUses_resetUses (s : Space) (k : Nat) : s.resetUses.dimensionUses k = 0 := by
  cases h : s.dimensions[k]? <;> simp [dimensionUses, resetUses, h]

theorem axisUses_resetUses (s : Space) (k : Nat) : s.resetUses.axisUses k = 0 := by
  simp [axisUses, resetUses, Function.comp_def]

theorem partsTally_resetUses (s : Space) : s.resetUses.PartsTally := by
  intro p hp
  obtain ⟨q, -, rfl⟩ := List.mem_map.mp hp
  simp [Partition.partUses, Function.comp_def]

theorem PartsKeyed.resetUses (h : s.PartsKeyed) : s.resetUses.PartsKeyed := by
  intro p hp
  obtain ⟨q, hq, rfl⟩ := List.mem_map.mp hp
  simpa [Function.comp_def] using h q hq

theorem dimensionUses_countUses {k : Nat} (hk : k < s.dimensions.length) (rules : List Rule) :
    (s.countUses rules).dimensionUses k =
      ((s.countersOfRules rules).map (·.onDimension k)).sum := by
  rw [countUses_eq, dimensionUses_foldl _ (by simpa [Space.resetUses] using hk),
    dimensionUses_resetUses, Nat.zero_add]

theorem needs_of_used {k : Nat} (h : (s.countUses rules).Used k) : s.Needs rules k := by
  obtain ⟨d, hd, hpos⟩ := h
  have hk : k < s.dimensions.length :=
    length_dimensions_of_reset (resetUses_countUses s rules) ▸ (List.getElem?_eq_some_iff.mp hd).1
  have huses : (s.countUses rules).dimensionUses k = d.uses := by simp [dimensionUses, hd]
  rw [← huses, dimensionUses_countUses hk] at hpos
  refine needs_of_counter (not_not.mp fun hnot => hpos.ne' (List.sum_eq_zero fun n hn => ?_))
  obtain ⟨c, hc, rfl⟩ := List.mem_map.mp hn
  cases c with
  | part part => rfl
  | dimension rank => exact if_neg fun heq : rank = k => hnot (heq ▸ hc)

/-! ## The laws of use counts -/

/-- The laws that the uses `t` by a list of rules obey, in a space `s` before they were counted. -/
structure UsesAddUp (s : Space) (rules : List Rule) (t : Space) : Prop where
  partition : ∀ p ∈ t.partitions, p.uses = (p.parts.map (·.2.uses)).sum
  dimension : ∀ k d, t.dimensions[k]? = some d →
    d.uses = (t.partitions.map fun p => p.uses * p.axes.countP (·.dimension == k)).sum
  anyOrder : ∀ rules', rules.Perm rules' → s.countUses rules' = t
  positive : ∀ k, (∃ d, t.dimensions[k]? = some d ∧ 0 < d.uses) ↔ s.Needs rules k
  onlyUses : t.resetUses = s.resetUses
  /-- The way down from part to part ends, and its bound is never met. -/
  descends : ∀ part, Acc s.Passes part
  unbounded : ∀ fuel, s.depth ≤ fuel → ∀ u part, u.resetUses = s.resetUses →
    usePart fuel u part = usePart s.depth u part

/-- The uses by rules whose parts are there add up. -/
theorem countUses_addUp (hs : s.WellFounded) (hkeyed : s.PartsKeyed)
    (hrules : ∀ r ∈ rules, r.PartsIn s.Present) : s.UsesAddUp rules (s.countUses rules) where
  partition := by
    rw [countUses_eq]
    refine partsTally_foldl (partsTally_resetUses s) hkeyed.resetUses (resetUses_resetUses s)
      fun q hq => ?_
    obtain ⟨q', p, hq', -, hc⟩ := of_mem_countersOfRules (P := s.Present)
      (fun _ ⟨_, hdown⟩ r hr x hx => hdown r hr x hx) hrules hq
    rcases hc with hc | ⟨a, -, hc⟩
    · cases hc
      exact hq'.isSome
    · cases hc
  dimension := by
    intro k d hd
    have hk : k < s.dimensions.length :=
      length_dimensions_of_reset (resetUses_countUses s rules) ▸
        (List.getElem?_eq_some_iff.mp hd).1
    calc d.uses
        = (s.countUses rules).dimensionUses k := by simp [dimensionUses, hd]
      _ = ((s.countersOfRules rules).map (·.onDimension k)).sum := dimensionUses_countUses hk rules
      _ = ((s.countersOfRules rules).map (·.onAxes s k)).sum := balanced_countersOfRules hs k rules
      _ = (s.countUses rules).axisUses k := by
        rw [countUses_eq, axisUses_foldl _ (resetUses_resetUses s), axisUses_resetUses, Nat.zero_add]
  anyOrder := fun rules' h => countUses_perm h.symm s
  positive := fun k => ⟨needs_of_used, used_of_needs hs⟩
  onlyUses := resetUses_countUses s rules
  descends := fun part => acc_passes hs s.depth part (hs.below_depth _)
  unbounded := fun _ hle u part hu => usePart_of_le hs hle part hu

end Space

namespace Shops

/-- With a part of the customers, by the number of their small orders. -/
def counted : Space :=
  ⟨[amount, smallCount],
    [byAmount [([0], ⟨0, 2⟩)], { byCount with parts := [([1], ⟨0, 3⟩)] }]⟩

theorem built_counted : counted.Built := by
  have hadd : space.addPart 1 [1] 3 = .ok (⟨1, [1]⟩, counted) := rfl
  exact .part built_space hadd

/-- The number of customers with many small orders. -/
def busy : Rule :=
  ⟨.tableCount, "Shops",
    [.rule ⟨.tableSelection, "Shops", [.field "Customers" customers, .part ⟨1, [1]⟩], 0, 0⟩], 1, 0⟩

theorem present_counted : ∀ r ∈ [busy, count 0], r.PartsIn counted.Present := by
  have hsmall : counted.Present ⟨0, [0]⟩ := .mk rfl fun r hr => absurd hr List.not_mem_nil
  have hmany : counted.Present ⟨1, [1]⟩ := by
    refine .mk rfl fun r hr p hp => ?_
    obtain rfl : r = count 0 := List.mem_singleton.mp hr
    obtain rfl : p = ⟨0, [0]⟩ := List.mem_singleton.mp hp
    exact hsmall
  intro r hr part hpart
  rcases List.mem_cons.mp hr with rfl | hr
  · obtain rfl : part = ⟨1, [1]⟩ := List.mem_singleton.mp hpart
    exact hmany
  · obtain rfl : r = count 0 := List.mem_singleton.mp hr
    obtain rfl : part = ⟨0, [0]⟩ := List.mem_singleton.mp hpart
    exact hsmall

end Shops

open Shops in
/-- To count customers by the number of small orders uses the orders, too: with the count of small
orders their amount is used twice. -/
theorem shops_uses_add_up :
    counted.WellFounded ∧ counted.PartsKeyed ∧ (∀ r ∈ [busy, count 0], r.PartsIn counted.Present) ∧
      counted.UsesAddUp [busy, count 0] (counted.countUses [busy, count 0]) ∧
      (counted.countUses [busy, count 0]).dimensions.map (·.uses) = [2, 1] := by
  have hkeyed : counted.PartsKeyed :=
    show ∀ p ∈ counted.partitions, (p.parts.map (·.1)).Nodup by decide
  exact ⟨built_counted.wellFounded, hkeyed, present_counted,
    Space.countUses_addUp built_counted.wellFounded hkeyed present_counted, rfl⟩

end FeatureSynth
