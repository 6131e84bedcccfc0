/-
# The orders of cost

Rules compare by cost through the costs of the parts they select and through the
rules of the dimensions these are cut along, and on.  Where all parts met on the way
are in their partitions the orders of cost are lawful, whatever the rounding: a part
that is there has one index per axis.  Their ties are known, too.  The order of cost
and structure ties rules of one signature with equal costs throughout, and no order
of cost ties a rule with one it is made from, for rules that tie meet equally many
rules.
-/
import Mathlib.Data.List.Flatten
import Mathlib.Logic.Relation
import FeatureSynth.Proofs.Space.Structure

namespace FeatureSynth

namespace Space

variable {s s' : Space}

/-! ## Parts in their partitions -/

/-- The parts kept fit the axes of their partitions. -/
def PartsFit (s : Space) : Prop := ∀ p ∈ s.partitions, ∀ entry ∈ p.parts, fits p.axes entry.1 = true

theorem length_of_fits {axes : List Axis} {indexes : List Nat} (h : fits axes indexes = true) :
    indexes.length = axes.length := by
  simp only [fits, Bool.and_eq_true, beq_iff_eq] at h
  exact h.1

theorem mem_insertPart {indexes : List Nat} {cost : Float} {entry : List Nat × PartEntry} :
    ∀ {parts : List (List Nat × PartEntry)},
      entry ∈ Partition.insertPart indexes cost parts → entry ∈ parts ∨ entry.1 = indexes
  | [], h => .inr (congrArg Prod.fst (List.mem_singleton.mp h))
  | p :: rest, h => by
      rw [Partition.insertPart] at h
      split at h
      · rcases List.mem_cons.mp h with rfl | h
        · exact .inr rfl
        · exact .inl h
      · exact .inl h
      · rcases List.mem_cons.mp h with rfl | h
        · exact .inl List.mem_cons_self
        · exact (mem_insertPart h).imp_left (List.mem_cons_of_mem _)

theorem PartsFit.of_partitions (h : s.PartsFit) (heq : s'.partitions = s.partitions) :
    s'.PartsFit :=
  fun p hp => h p (heq ▸ hp)

/-- Registration keeps parts that fit, and refuses others. -/
theorem Built.partsFit (h : s.Built) : s.PartsFit := by
  induction h with
  | empty => exact fun p hp => absurd hp List.not_mem_nil
  | fieldDimension _ hadd ih =>
      exact ih.of_partitions (partitions_intern (addFieldDimension_eq_ok hadd))
  | ruleDimension _ _ hadd ih =>
      exact ih.of_partitions (partitions_intern (addRuleDimension_eq_ok hadd))
  | partition _ hadd ih =>
      rcases partitions_addPartition hadd with heq | ⟨p, hnone, heq⟩
      · exact ih.of_partitions heq
      · intro q hq entry hentry
        rw [heq] at hq
        rcases List.mem_append.mp hq with hq | hq
        · exact ih q hq entry hentry
        · rw [List.mem_singleton.mp hq, hnone] at hentry
          cases hentry
  | @part s s' rank indexes cost part _ hadd ih =>
      obtain ⟨q, hq, hfits, rfl⟩ := addPart_eq_ok hadd
      intro p hp entry hentry
      obtain ⟨i, hi⟩ := List.mem_iff_getElem?.mp hp
      rw [modifyPartition, List.getElem?_modify] at hi
      split at hi
      · rename_i heq
        subst heq
        rw [hq] at hi
        cases hi
        rcases mem_insertPart hentry with hold | hnew
        · exact ih q (List.mem_of_getElem? hq) entry hold
        · exact hnew ▸ hfits
      · rw [id_map'] at hi
        exact ih p (List.mem_of_getElem? hi) entry hentry

/-- A part is in its partition, and so are the parts that the rules of its dimensions name, and
on. -/
inductive Present (s : Space) : Part → Prop
  | mk {part : Part} : (s.part? part).isSome = true →
      (∀ r ∈ s.dimensionRules part, ∀ p ∈ r.parts, Present s p) → Present s part

theorem Present.onward {part : Part} (h : s.Present part) :
    ∀ r ∈ s.dimensionRules part, r.PartsIn s.Present := by
  obtain ⟨-, honward⟩ := h
  exact honward

/-- A part that is there has one index per axis. -/
theorem PartsFit.shaped (h : s.PartsFit) {part : Part} (hpart : (s.part? part).isSome = true) :
    s.Shaped part := by
  obtain ⟨entry, hentry⟩ := Option.isSome_iff_exists.mp hpart
  obtain ⟨p, hp, hlookup⟩ := Option.bind_eq_some_iff.mp hentry
  obtain ⟨before, after, hparts, -⟩ := List.lookup_eq_some_iff.mp hlookup
  refine ⟨p, hp, length_of_fits (h p (List.mem_of_getElem? hp) (part.indexes, entry) ?_)⟩
  rw [hparts]
  exact List.mem_append_right _ List.mem_cons_self

/-- Whether parts fit shows in the cuts of a space and in its parts. -/
theorem PartsFit.of_sameCuts (h : s.PartsFit) (hcuts : s.SameCuts s') : s'.PartsFit := by
  intro p' hp' entry' hentry'
  obtain ⟨k, hk⟩ := List.mem_iff_getElem?.mp hp'
  rcases hcuts.partition? k with ⟨-, hnone⟩ | ⟨p, q, hp, hq, hcut, hcosts⟩
  · cases hnone.symm.trans hk
  · obtain rfl : p' = q := Option.some.inj (hk.symm.trans hq)
    have hmem : (entry'.1, entry'.2.cost) ∈ p.costs :=
      hcosts ▸ List.mem_map_of_mem (f := fun e => (e.1, e.2.cost)) hentry'
    obtain ⟨entry, hentry, heq⟩ := List.mem_map.mp hmem
    have haxes : p'.axes = p.axes := congrArg (·.2.2.2) hcut
    rw [haxes, ← congrArg Prod.fst heq]
    exact h p (List.mem_of_getElem? hp) entry hentry

/-- The costs of parts that are there can be compared. -/
theorem PartsFit.comparable (h : s.PartsFit) : s.Comparable s.Present where
  shaped := fun _ ⟨hsome, _⟩ => h.shaped hsome
  onward := fun _ hpart => hpart.onward

end Space

/-! ## Rules met -/

namespace Rule

section Met

variable {met met' : Part → List Rule}

mutual

theorem subrulesWith_congr : ∀ r : Rule, (∀ p ∈ r.parts, met p = met' p) →
    subrulesWith met r = subrulesWith met' r
  | ⟨_, _, xs, _, _⟩, h => by rw [subrulesWith, subrulesWith, subrulesIn_congr xs h]

theorem subrulesIn_congr : ∀ xs : List (RuleOperand Rule), (∀ p ∈ partsList xs, met p = met' p) →
    subrulesIn met xs = subrulesIn met' xs
  | [], _ => rfl
  | .field .. :: rest, h => by rw [subrulesIn, subrulesIn, subrulesIn_congr rest h]
  | .rule inner :: rest, h => by
      rw [subrulesIn, subrulesIn,
        subrulesWith_congr inner fun p hp => h p (List.mem_append_left _ hp),
        subrulesIn_congr rest fun p hp => h p (List.mem_append_right _ hp)]
  | .part part :: rest, h => by
      rw [subrulesIn, subrulesIn, h part List.mem_cons_self,
        subrulesIn_congr rest fun p hp => h p (List.mem_cons_of_mem _ hp)]

end

/-- The rules met in an operand that is a rule. -/
theorem subrulesWith_sublist {inner : Rule} : ∀ {xs : List (RuleOperand Rule)}, .rule inner ∈ xs →
    (subrulesWith met inner).Sublist (subrulesIn met xs)
  | .field .. :: rest, h => by
      rw [subrulesIn]
      exact subrulesWith_sublist (List.mem_of_ne_of_mem (by simp) h)
  | .rule x :: rest, h => by
      rw [subrulesIn]
      rcases List.mem_cons.mp h with heq | h
      · cases heq
        exact List.sublist_append_left _ _
      · exact (subrulesWith_sublist h).trans (List.sublist_append_right _ _)
  | .part _ :: rest, h => by
      rw [subrulesIn]
      exact (subrulesWith_sublist (List.mem_of_ne_of_mem (by simp) h)).trans
        (List.sublist_append_right _ _)

/-- The rules met in an operand that is a part. -/
theorem met_sublist {part : Part} : ∀ {xs : List (RuleOperand Rule)}, .part part ∈ xs →
    (met part).Sublist (subrulesIn met xs)
  | .field .. :: rest, h => by
      rw [subrulesIn]
      exact met_sublist (List.mem_of_ne_of_mem (by simp) h)
  | .rule x :: rest, h => by
      rw [subrulesIn]
      exact (met_sublist (List.mem_of_ne_of_mem (by simp) h)).trans (List.sublist_append_right _ _)
  | .part p :: rest, h => by
      rw [subrulesIn]
      rcases List.mem_cons.mp h with heq | h
      · cases heq
        exact List.sublist_append_left _ _
      · exact (met_sublist h).trans (List.sublist_append_right _ _)

theorem length_subrulesIn_lt (r : Rule) :
    (subrulesIn met r.operands).length < (subrulesWith met r).length := by
  obtain ⟨t, c, xs, a, i⟩ := r
  rw [subrulesWith, List.length_append]
  exact Nat.lt_succ_self _

end Met

section Tied

variable {round : Float → Int} {parts : Part → Part → Ordering} {met : Part → List Rule}
variable {P : Part → Prop}

mutual

/-- Rules that tie by cost meet equally many rules, if the parts do. -/
theorem length_subrulesWith_of_tied
    (h : ∀ p q, P p → P q → parts p q = .eq → (met p).length = (met q).length) :
    ∀ a b : Rule, a.PartsIn P → b.PartsIn P → compareCostWith round parts a b = .eq →
      (subrulesWith met a).length = (subrulesWith met b).length
  | ⟨_, _, xs, _, _⟩, ⟨_, _, ys, _, _⟩, ha, hb, htied => by
      rw [compareCostWith, Ordering.then_eq_eq, Ordering.then_eq_eq, Std.compare_eq_iff_eq,
        Std.compare_eq_iff_eq] at htied
      rw [subrulesWith, subrulesWith, List.length_append, List.length_append,
        length_subrulesIn_of_tied h xs ys ha hb htied.2.1 htied.2.2]
      rfl

theorem length_subrulesIn_of_tied
    (h : ∀ p q, P p → P q → parts p q = .eq → (met p).length = (met q).length) :
    ∀ xs ys : List (RuleOperand Rule), (∀ p ∈ partsList xs, P p) → (∀ p ∈ partsList ys, P p) →
      xs.length = ys.length → compareOperandCostsWith round parts xs ys = .eq →
      (subrulesIn met xs).length = (subrulesIn met ys).length
  | [], [], _, _, _, _ => rfl
  | .field _ _ :: xs, .field _ _ :: ys, hx, hy, hlen, htied => by
      rw [compareOperandCostsWith, Ordering.then_eq_eq] at htied
      · exact length_subrulesIn_of_tied h xs ys hx hy (Nat.succ.inj hlen) htied.2
      all_goals simp
  | .rule x :: xs, .rule y :: ys, hx, hy, hlen, htied => by
      rw [compareOperandCostsWith, Ordering.then_eq_eq] at htied
      rw [subrulesIn, subrulesIn, List.length_append, List.length_append,
        length_subrulesWith_of_tied h x y (fun p hp => hx p (List.mem_append_left _ hp))
          (fun p hp => hy p (List.mem_append_left _ hp)) htied.1,
        length_subrulesIn_of_tied h xs ys (fun p hp => hx p (List.mem_append_right _ hp))
          (fun p hp => hy p (List.mem_append_right _ hp)) (Nat.succ.inj hlen) htied.2]
  | .part p :: xs, .part q :: ys, hx, hy, hlen, htied => by
      rw [compareOperandCostsWith, Ordering.then_eq_eq] at htied
      rw [subrulesIn, subrulesIn, List.length_append, List.length_append,
        h p q (hx p List.mem_cons_self) (hy q List.mem_cons_self) htied.1,
        length_subrulesIn_of_tied h xs ys (fun p hp => hx p (List.mem_cons_of_mem _ hp))
          (fun p hp => hy p (List.mem_cons_of_mem _ hp)) (Nat.succ.inj hlen) htied.2]
  | .field _ _ :: _, .rule _ :: _, _, _, _, htied | .field _ _ :: _, .part _ :: _, _, _, _, htied
  | .rule _ :: _, .field _ _ :: _, _, _, _, htied | .rule _ :: _, .part _ :: _, _, _, _, htied
  | .part _ :: _, .field _ _ :: _, _, _, _, htied | .part _ :: _, .rule _ :: _, _, _, _, htied => by
      simp [compareOperandCostsWith, RuleOperand.origin, OperandOrigin.compare,
        OperandOrigin.rank] at htied

end

end Tied

end Rule

namespace Space

variable {s : Space} {round : Float → Int} {P : Part → Prop}

/-- Dimensions that tie one by one meet equally many rules. -/
theorem length_rules_of_tied {rules : Rule → Rule → Ordering} {met : Rule → List Rule}
    {Q : Rule → Prop} (h : ∀ x y, Q x → Q y → rules x y = .eq → (met x).length = (met y).length) :
    ∀ ds es : List Dimension, ds.length = es.length →
      (∀ d ∈ ds, ∀ r, d.origin = .rule r → Q r) → (∀ e ∈ es, ∀ r, e.origin = .rule r → Q r) →
      compareZip (compareDimensionCostsWith rules) ds es = .eq →
      ((ds.filterMap (·.rule?)).flatMap met).length = ((es.filterMap (·.rule?)).flatMap met).length
  | [], [], _, _, _, _ => rfl
  | d :: ds, e :: es, hlen, hd, he, htied => by
      rw [compareZip, Ordering.then_eq_eq] at htied
      have ih := length_rules_of_tied h ds es (Nat.succ.inj hlen)
        (fun d' hd' => hd d' (List.mem_cons_of_mem _ hd'))
        (fun e' he' => he e' (List.mem_cons_of_mem _ he')) htied.2
      have hfirst := htied.1
      unfold compareDimensionCostsWith at hfirst
      rw [List.filterMap_cons, List.filterMap_cons, Dimension.rule?, Dimension.rule?]
      cases hdo : d.origin with
      | field _ _ =>
        cases heo : e.origin with
        | field _ _ => exact ih
        | rule y =>
          rw [hdo, heo] at hfirst
          cases hfirst
      | rule x =>
        cases heo : e.origin with
        | field _ _ =>
          rw [hdo, heo] at hfirst
          cases hfirst
        | rule y =>
          rw [hdo, heo] at hfirst
          simp only [List.flatMap_cons, List.length_append, ih,
            h x y (hd d List.mem_cons_self x hdo) (he e List.mem_cons_self y heo) hfirst]

/-- Parts that tie by cost meet equally many rules. -/
theorem length_partSubrules_of_tied (hs : s.WellFounded) (hP : s.Comparable P) :
    ∀ (fuel : Nat) (x y : Part), P x → P y → s.comparePartCosts round fuel x y = .eq →
      (s.partSubrules fuel x).length = (s.partSubrules fuel y).length
  | 0, _, _, _, _, _ => rfl
  | fuel + 1, x, y, hx, hy, htied => by
      obtain ⟨p, hp, hxp⟩ := hP.shaped x hx
      obtain ⟨q, hq, hyq⟩ := hP.shaped y hy
      simp only [comparePartCosts, hp, hq, Ordering.then_eq_eq, Std.compare_eq_iff_eq] at htied
      simp only [partSubrules, dimensionRules, hp, hq]
      refine length_rules_of_tied (Q := Rule.PartsIn P) (fun x y => Rule.length_subrulesWith_of_tied
        (length_partSubrules_of_tied hs hP fuel) x y) _ _ ?_ ?_ ?_ htied.2.2
      · rw [length_axisDimensions hs (List.mem_of_getElem? hp),
          length_axisDimensions hs (List.mem_of_getElem? hq), ← hxp, ← hyq, htied.2.1]
      · exact fun d hd r hr => hP.onward x hx r (mem_dimensionRules hp hd hr)
      · exact fun d hd r hr => hP.onward y hy r (mem_dimensionRules hq hd hr)

/-- Rules that tie by cost meet equally many rules. -/
theorem length_subrules_of_tied (hs : s.WellFounded) (hP : s.Comparable P) {a b : Rule}
    (ha : a.PartsIn P) (hb : b.PartsIn P) (htied : s.compareCostBy round a b = .eq) :
    (s.subrules a).length = (s.subrules b).length :=
  Rule.length_subrulesWith_of_tied (length_partSubrules_of_tied hs hP s.depth) a b ha hb htied

/-! ## The way down -/

/-- The dimension that a rule met in a part is of. -/
theorem dimension_of_mem_dimensionRules {part : Part} {r : Rule} (h : r ∈ s.dimensionRules part) :
    ∃ p a d, s.partitions[part.partition]? = some p ∧ a ∈ p.axes ∧
      s.dimensions[a.dimension]? = some d ∧ d.origin = .rule r := by
  unfold dimensionRules at h
  split at h
  · rename_i p hp
    obtain ⟨d, hd, hr⟩ := List.mem_filterMap.mp h
    obtain ⟨a, ha, hd⟩ := List.mem_filterMap.mp hd
    refine ⟨p, a, d, hp, ha, hd, ?_⟩
    unfold Dimension.rule? at hr
    split at hr
    · cases hr
    · cases hr
      assumption
  · cases h

/-- The parts that rules of a part's dimensions name are cut below the part. -/
theorem below_of_mem_dimensionRules (hs : s.WellFounded) {part p : Part} {r : Rule} {bound : Nat}
    (hpart : s.Below (bound + 1) part.partition) (hr : r ∈ s.dimensionRules part)
    (hp : p ∈ r.parts) : s.Below bound p.partition := by
  obtain ⟨q, a, d, hq, ha, hd, ho⟩ := dimension_of_mem_dimensionRules hr
  exact hs.below_of_earlier (hpart q hq a ha) hd ho hp

theorem dimensionRules_of_below {part : Part} (h : s.Below 0 part.partition) :
    s.dimensionRules part = [] := by
  refine List.eq_nil_iff_forall_not_mem.mpr fun r hr => ?_
  obtain ⟨p, a, -, hp, ha, -⟩ := dimension_of_mem_dimensionRules hr
  exact Nat.not_lt_zero _ (h p hp a ha)

/-- The rules met in a part are met within any bound above the dimensions it is cut along. -/
theorem partSubrules_of_below (hs : s.WellFounded) : ∀ (fuel fuel' bound : Nat) (part : Part),
    s.Below bound part.partition → bound ≤ fuel → bound ≤ fuel' →
      s.partSubrules fuel part = s.partSubrules fuel' part
  | 0, 0, _, _, _, _, _ => rfl
  | 0, fuel' + 1, bound, part, h, hle, _ => by
      obtain rfl : bound = 0 := Nat.le_zero.mp hle
      rw [partSubrules, partSubrules, dimensionRules_of_below h, List.flatMap_nil]
  | fuel + 1, 0, bound, part, h, _, hle => by
      obtain rfl : bound = 0 := Nat.le_zero.mp hle
      rw [partSubrules, partSubrules, dimensionRules_of_below h, List.flatMap_nil]
  | fuel + 1, fuel' + 1, 0, part, h, _, _ => by
      rw [partSubrules, partSubrules, dimensionRules_of_below h, List.flatMap_nil, List.flatMap_nil]
  | fuel + 1, fuel' + 1, bound + 1, part, h, hle, hle' => by
      rw [partSubrules, partSubrules]
      refine List.flatMap_congr fun r hr => Rule.subrulesWith_congr r fun p hp => ?_
      exact partSubrules_of_below hs fuel fuel' bound p (below_of_mem_dimensionRules hs h hr hp)
        (Nat.le_of_succ_le_succ hle) (Nat.le_of_succ_le_succ hle')

/-- The rules met in a part are those met in the rules of its dimensions. -/
theorem partSubrules_eq (hs : s.WellFounded) (part : Part) :
    s.partSubrules s.depth part = (s.dimensionRules part).flatMap s.subrules := by
  rw [depth, partSubrules]
  refine List.flatMap_congr fun r _ => Rule.subrulesWith_congr r fun p _ => ?_
  exact partSubrules_of_below hs _ _ _ p (hs.below_length p.partition) (Nat.le_refl _)
    (Nat.le_succ _)

theorem axis_of_mem_axisDimensions {p : Partition} {d : Dimension} (h : d ∈ s.axisDimensions p) :
    ∃ a ∈ p.axes, s.dimensions[a.dimension]? = some d :=
  List.mem_filterMap.mp h

/-- Parts compare by cost as they do within any bound above the dimensions they are cut along. -/
theorem comparePartCosts_of_below (hs : s.WellFounded) :
    ∀ (fuel fuel' bound : Nat) (x y : Part), s.Below bound x.partition → s.Below bound y.partition →
      bound < fuel → bound < fuel' →
        s.comparePartCosts round fuel x y = s.comparePartCosts round fuel' x y
  | 0, _, bound, _, _, _, _, h, _ => absurd h (Nat.not_lt_zero bound)
  | _, 0, bound, _, _, _, _, _, h => absurd h (Nat.not_lt_zero bound)
  | fuel + 1, fuel' + 1, bound, x, y, hx, hy, h, h' => by
      unfold comparePartCosts
      split
      · rename_i p q hp hq
        congr 2
        refine compareZip_congr _ _ fun d hd e he => ?_
        obtain ⟨a, ha, hd⟩ := axis_of_mem_axisDimensions hd
        obtain ⟨b, hb, he⟩ := axis_of_mem_axisDimensions he
        have hlt := hx p hp a ha
        have hlt' := hy q hq b hb
        unfold compareDimensionCostsWith
        split
        · rename_i v w hv hw
          -- the parts of both rules are cut below a bound that is smaller by one
          refine Rule.compareCostWith_congr round fun p hp q hq => ?_
          exact comparePartCosts_of_below hs fuel fuel' (bound - 1) p q
            (hs.below_of_earlier (by omega) hd hv hp) (hs.below_of_earlier (by omega) he hw hq)
            (by omega) (by omega)
        all_goals rfl
      · rfl

/-- Parts compare by cost, number of indexes and dimensions, and dimensions that are rules compare
as rules do: the bound for the way down is never met. -/
theorem comparePartCosts_eq (hs : s.WellFounded) (x y : Part) :
    s.comparePartCosts round s.depth x y =
      (compare (s.partCost round x) (s.partCost round y)).then
        ((compare x.indexes.length y.indexes.length).then
          (match s.partitions[x.partition]?, s.partitions[y.partition]? with
          | some p, some q => compareZip (compareDimensionCostsWith (s.compareCostBy round))
              (s.axisDimensions p) (s.axisDimensions q)
          | _, _ => .eq)) := by
  rw [comparePartCosts_of_below hs s.depth (s.depth + 1) s.dimensions.length x y
    (hs.below_length x.partition) (hs.below_length y.partition) (Nat.lt_succ_self _)
    (Nat.lt_succ_of_lt (Nat.lt_succ_self _))]
  rfl

/-! ## Rules made from rules -/

/-- A rule is made from its operands, and from the rules of the dimensions that its parts are cut
along. -/
inductive MadeFrom (s : Space) : Rule → Rule → Prop
  | operand {r x : Rule} : .rule x ∈ r.operands → MadeFrom s r x
  | dimension {r x : Rule} {part : Part} : .part part ∈ r.operands → x ∈ s.dimensionRules part →
      MadeFrom s r x

/-- Where a rule is met, so are those it is made from. -/
theorem MadeFrom.subrules_sublist_below (hs : s.WellFounded) {r x : Rule} (h : s.MadeFrom r x) :
    (s.subrules x).Sublist (Rule.subrulesIn (s.partSubrules s.depth) r.operands) := by
  cases h with
  | operand hx => exact Rule.subrulesWith_sublist hx
  | dimension hpart hx =>
      refine List.Sublist.trans ?_ (Rule.met_sublist hpart)
      rw [partSubrules_eq hs]
      simpa using (List.singleton_sublist.mpr hx).flatMap s.subrules

theorem MadeFrom.subrules_sublist (hs : s.WellFounded) {r x : Rule} (h : s.MadeFrom r x) :
    (s.subrules x).Sublist (s.subrules r) := by
  refine (h.subrules_sublist_below hs).trans ?_
  obtain ⟨t, c, xs, a, i⟩ := r
  rw [subrules, Rule.subrulesWith]
  exact List.sublist_append_left _ _

/-- A rule meets more rules than those it is made from. -/
theorem MadeFrom.length_subrules_lt (hs : s.WellFounded) {r x : Rule} (h : s.MadeFrom r x) :
    (s.subrules x).length < (s.subrules r).length :=
  Nat.lt_of_le_of_lt (h.subrules_sublist_below hs).length_le (Rule.length_subrulesIn_lt r)

/-- What holds of the parts of a rule holds of those that it is made from name, if it passes on to the
rules of dimensions. -/
theorem MadeFrom.partsIn {P : Part → Prop}
    (honward : ∀ part, P part → ∀ x ∈ s.dimensionRules part, x.PartsIn P) {r x : Rule}
    (h : s.MadeFrom r x) (hr : r.PartsIn P) : x.PartsIn P := by
  cases h with
  | operand hx => exact hr.operand hx
  | dimension hpart hx => exact honward _ (hr.part hpart) x hx

/-- However far down, a rule meets more rules than those it is made from, and names parts that are
there only if they do. -/
theorem length_subrules_lt_of_transGen (hs : s.WellFounded) {r x : Rule}
    (h : Relation.TransGen s.MadeFrom r x) (hr : r.PartsIn s.Present) :
    x.PartsIn s.Present ∧ (s.subrules x).length < (s.subrules r).length := by
  have honward : ∀ part, s.Present part → ∀ y ∈ s.dimensionRules part, y.PartsIn s.Present :=
    fun _ hpart => hpart.onward
  induction h with
  | single hx => exact ⟨hx.partsIn honward hr, hx.length_subrules_lt hs⟩
  | tail _ hx ih =>
    exact ⟨hx.partsIn honward ih.1, Nat.lt_trans (hx.length_subrules_lt hs) ih.2⟩

/-! ## The orders -/

/-- The orders of cost, by any rounding, over a well-founded space whose partitions keep parts that
fit, on the rules whose parts are in their partitions at any depth.  All three reverse with their
arguments and are transitive, hence are reflexive and total.  That of cost and structure ties two
rules exactly if they have one signature and equal rounded costs, their own and those of the rules
they are built from; that of cost and tie-break ties no rules of different tie-breaks; and that of
cost ties no rule with one it is made from. -/
theorem cost_orders (hs : s.WellFounded) (hfit : s.PartsFit) (round : Float → Int) :
    Std.TransCmp (fun a b : {r : Rule // r.PartsIn s.Present} => s.compareCostBy round a b) ∧
    Std.TransCmp (fun a b : {r : Rule // r.PartsIn s.Present} => s.compareCostNameBy round a b) ∧
    Std.TransCmp (fun a b : {r : Rule // r.PartsIn s.Present} => s.compareCostTieBy round a b) ∧
    (∀ a b : Rule, a.PartsIn s.Present → b.PartsIn s.Present →
      (s.compareCostNameBy round a b = .eq ↔
        a.signature = b.signature ∧ a.costsBy round = b.costsBy round)) ∧
    (∀ a b : Rule, a.PartsIn s.Present → b.PartsIn s.Present → a.tieBreak ≠ b.tieBreak →
      s.compareCostTieBy round a b ≠ .eq) ∧
    ∀ r x : Rule, r.PartsIn s.Present → Relation.TransGen s.MadeFrom r x →
      s.compareCostBy round r x ≠ .eq := by
  have hP := hfit.comparable
  refine ⟨(lawfulOn_compareCostBy round hs hP).transCmp,
    (lawfulOn_compareCostNameBy round hs hP).transCmp,
    (lawfulOn_compareCostTieBy round hs hP).transCmp, fun a b _ _ => compareCostNameBy_eq_iff hs,
    ?_, ?_⟩
  · intro a b _ _ hne htied
    rw [compareCostTieBy, Ordering.then_eq_eq, Std.compare_eq_iff_eq] at htied
    exact hne htied.2
  · intro r x hr hx htied
    obtain ⟨hpresent, hlt⟩ := length_subrules_lt_of_transGen hs hx hr
    rw [length_subrules_of_tied hs hP hr hpresent htied] at hlt
    exact Nat.lt_irrefl _ hlt

end Space

/-! ## Customers by their small orders -/

namespace Shops

/-- The number of small orders of a customer, to be taken after others of its cost. -/
def later : Rule := { count 0 with tieBreak := 1 }

/-- The small orders of a customer. -/
def smallOrders : Rule :=
  ⟨.tableSelection, "Customers", [.field "Orders" orders, .part ⟨0, [0]⟩], 0, 0⟩

theorem present_small : space.Present ⟨0, [0]⟩ :=
  .mk rfl fun _ hr => absurd hr List.not_mem_nil

theorem present_count : (count 0).PartsIn space.Present := by
  intro part hpart
  obtain rfl : part = ⟨0, [0]⟩ := List.mem_singleton.mp hpart
  exact present_small

end Shops

open Shops in
/-- The order of cost and structure does not see the tie-break, which tells the two rules apart in
the other order; and the number of small orders does not cost what the small orders do. -/
theorem shops_cost_orders :
    space.WellFounded ∧ space.PartsFit ∧ (count 0).PartsIn space.Present ∧
      space.compareCostName (count 0) later = .eq ∧ space.compareCostTie (count 0) later ≠ .eq ∧
      space.compareCost (count 0) smallOrders ≠ .eq := by
  obtain ⟨-, -, -, hties, hbreaks, hnested⟩ :=
    Space.cost_orders built_space.wellFounded built_space.partsFit roundedCost
  refine ⟨built_space.wellFounded, built_space.partsFit, present_count, ?_, ?_, ?_⟩
  · exact (hties (count 0) later present_count present_count).mpr ⟨rfl, rfl⟩
  · exact hbreaks (count 0) later present_count present_count (by decide)
  · exact hnested (count 0) smallOrders present_count
      (.single (.operand (List.mem_singleton.mpr rfl)))

end FeatureSynth
