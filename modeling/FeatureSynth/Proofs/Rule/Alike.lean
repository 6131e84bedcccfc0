/-
# Rules the orders do not tell apart

On a well-founded space the structural order finds two rules equal exactly when
they have one signature, for it descends to dimensions and ends where registration
has told them apart.  The order of cost and structure asks for equal costs besides,
of the rules and of all rules they are built from, up to rounding.  Such rules are
*alike*.  Being alike does not depend on the space: a ledger that is kept in this
order goes by the rules alone.
-/
import FeatureSynth.Proofs.Space.WellFounded
import FeatureSynth.Rule.Order

namespace FeatureSynth

namespace Rule

mutual

/-- The rounded costs of a rule and of the rules it is built from, depth first. -/
def costsBy (round : Float → Int) : Rule → List Int
  | ⟨_, _, operands, cost, _⟩ => round cost :: costsInBy round operands

/-- The rounded costs of the rules that operands are built from, depth first. -/
def costsInBy (round : Float → Int) : List (RuleOperand Rule) → List Int
  | [] => []
  | .field .. :: rest => costsInBy round rest
  | .rule inner :: rest => costsBy round inner ++ costsInBy round rest
  | .part _ :: rest => costsInBy round rest

end

/-- The costs of a rule and of the rules it is built from, to seven decimals. -/
abbrev costs : Rule → List Int := costsBy roundedCost

/-- The costs of the rules that operands are built from, to seven decimals. -/
abbrev costsIn : List (RuleOperand Rule) → List Int := costsInBy roundedCost

/-- One signature, and equal rounded costs throughout. -/
structure Alike (a b : Rule) : Prop where
  signature : a.signature = b.signature
  costs : a.costs = b.costs

namespace Alike

variable {a b c : Rule}

protected theorem refl (a : Rule) : Alike a a := ⟨rfl, rfl⟩

protected theorem symm (h : Alike a b) : Alike b a := ⟨h.signature.symm, h.costs.symm⟩

protected theorem trans (h : Alike a b) (h' : Alike b c) : Alike a c :=
  ⟨h.signature.trans h'.signature, h.costs.trans h'.costs⟩

end Alike

/-! ## Structure -/

theorem length_signatureList : ∀ xs, (signatureList xs).length = xs.length
  | [] => rfl
  | .field .. :: rest => by simp [signatureList, length_signatureList rest]
  | .rule _ :: rest => by simp [signatureList, length_signatureList rest]
  | .part _ :: rest => by simp [signatureList, length_signatureList rest]

section Structure

variable {parts : Part → Part → Ordering}

mutual

/-- An order of parts that finds the parts of two rules equal only if they are makes for an order
of rules that compares signatures. -/
theorem compareWith_eq_iff : ∀ a b : Rule,
    (∀ p ∈ a.parts, ∀ q ∈ b.parts, parts p q = .eq ↔ p = q) →
      (compareWith parts a b = .eq ↔ a.signature = b.signature)
  | ⟨t, c, xs, _, _⟩, ⟨u, d, ys, _, _⟩, h => by
      simp only [compareWith, signature, Signature.mk.injEq, Ordering.then_eq_eq,
        Std.compare_eq_iff_eq, compareOperandsWith_eq_iff xs ys h]

theorem compareOperandsWith_eq_iff : ∀ xs ys : List (RuleOperand Rule),
    (∀ p ∈ partsList xs, ∀ q ∈ partsList ys, parts p q = .eq ↔ p = q) →
      (xs.length = ys.length ∧ compareOperandsWith parts xs ys = .eq ↔
        signatureList xs = signatureList ys)
  | [], [], _ => by simp [compareOperandsWith, signatureList]
  | [], y :: ys, _ => by cases y <;> simp [signatureList]
  | x :: xs, [], _ => by cases x <;> simp [signatureList]
  | .field x _ :: xs, .field y _ :: ys, h => by
      have ih := compareOperandsWith_eq_iff xs ys h
      simp only [compareOperandsWith, signatureList, List.length_cons, Nat.add_right_cancel_iff,
        Ordering.then_eq_eq, Std.compare_eq_iff_eq, List.cons.injEq,
        SignatureOperand.field.injEq, ← ih]
      exact and_left_comm
  | .rule x :: xs, .rule y :: ys, h => by
      have ih := compareOperandsWith_eq_iff xs ys fun p hp q hq =>
        h p (List.mem_append_right _ hp) q (List.mem_append_right _ hq)
      have ihx := compareWith_eq_iff x y fun p hp q hq =>
        h p (List.mem_append_left _ hp) q (List.mem_append_left _ hq)
      simp only [compareOperandsWith, signatureList, List.length_cons, Nat.add_right_cancel_iff,
        Ordering.then_eq_eq, List.cons.injEq, SignatureOperand.rule.injEq, ← ih, ihx]
      exact and_left_comm
  | .part x :: xs, .part y :: ys, h => by
      have ih := compareOperandsWith_eq_iff xs ys fun p hp q hq =>
        h p (List.mem_cons_of_mem _ hp) q (List.mem_cons_of_mem _ hq)
      have hxy := h x List.mem_cons_self y List.mem_cons_self
      simp only [compareOperandsWith, signatureList, List.length_cons, Nat.add_right_cancel_iff,
        Ordering.then_eq_eq, List.cons.injEq, SignatureOperand.part.injEq, ← ih, hxy]
      exact and_left_comm
  | .field .. :: _, .rule _ :: _, _ | .field .. :: _, .part _ :: _, _
  | .rule _ :: _, .field .. :: _, _ | .rule _ :: _, .part _ :: _, _
  | .part _ :: _, .field .. :: _, _ | .part _ :: _, .rule _ :: _, _ => by
      simp [compareOperandsWith, signatureList, RuleOperand.origin, OperandOrigin.compare,
        OperandOrigin.rank]

end

end Structure

/-! ## Cost -/

/-- Rules of one signature have as many costs. -/
theorem length_costs (round : Float → Int) : ∀ a b : Rule, a.signature = b.signature →
    (a.costsBy round).length = (b.costsBy round).length :=
  SameSignature.rules
    (Q := fun xs ys => (costsInBy round xs).length = (costsInBy round ys).length)
    { rule := fun t u c xs ys a b i j _ _ ih => by simp only [costsBy, List.length_cons, ih]
      nil := rfl
      field := fun name type type' xs ys ih => by simp only [costsInBy, ih]
      nested := fun x y xs ys _ _ hx ih => by simp only [costsInBy, List.length_append, hx, ih]
      part := fun p xs ys ih => by simp only [costsInBy, ih] }

/-- Operands at one place of rules that are alike. -/
def OperandsAlike : RuleOperand Rule → RuleOperand Rule → Prop
  | .field x _, .field y _ => x = y
  | .rule x, .rule y => x.Alike y
  | .part p, .part q => p = q
  | _, _ => False

/-- Operands of one signature and equal costs are alike, one by one. -/
theorem operandsAlike : ∀ xs ys : List (RuleOperand Rule), signatureList xs = signatureList ys →
    costsIn xs = costsIn ys → List.Forall₂ OperandsAlike xs ys :=
  SameSignature.operands (P := fun _ _ => True)
    { rule := fun _ _ _ _ _ _ _ _ _ _ _ _ => trivial
      nil := fun _ => .nil
      field := fun name type type' xs ys ih hcosts => .cons rfl (ih hcosts)
      nested := fun z w xs ys hsig _ _ ih hcosts => by
        obtain ⟨hfirst, hrest⟩ := List.append_inj hcosts (length_costs roundedCost z w hsig)
        exact .cons ⟨hsig, hfirst⟩ (ih hrest)
      part := fun p xs ys ih hcosts => .cons rfl (ih hcosts) }

theorem getElem?_forall₂ {α β : Type} {R : α → β → Prop} : ∀ {xs : List α} {ys : List β},
    List.Forall₂ R xs ys → ∀ i : Nat, (xs[i]? = none ∧ ys[i]? = none) ∨
      ∃ x y, xs[i]? = some x ∧ ys[i]? = some y ∧ R x y
  | _, _, .nil, _ => .inl ⟨rfl, rfl⟩
  | _, _, .cons h _, 0 => .inr ⟨_, _, rfl, rfl, h⟩
  | _, _, .cons _ h, i + 1 => getElem?_forall₂ h i

namespace Alike

variable {a b x : Rule}

theorem operands (h : Alike a b) : List.Forall₂ OperandsAlike a.operands b.operands := by
  obtain ⟨t, c, xs, _, _⟩ := a
  obtain ⟨u, d, ys, _, _⟩ := b
  obtain ⟨hsig, hcosts⟩ := h
  simp only [Rule.signature, Signature.mk.injEq] at hsig
  simp only [Rule.costs, costsBy, List.cons.injEq] at hcosts
  exact operandsAlike xs ys hsig.2.2 hcosts.2

theorem exists_operand (h : Alike a b) (hx : .rule x ∈ a.operands) :
    ∃ y, .rule y ∈ b.operands ∧ Alike x y := by
  obtain ⟨i, hi⟩ := List.mem_iff_getElem?.mp hx
  rcases getElem?_forall₂ h.operands i with ⟨hnone, -⟩ | ⟨z, w, hz, hw, hzw⟩
  · cases hi.symm.trans hnone
  · obtain rfl : .rule x = z := Option.some.inj (hi.symm.trans hz)
    match w, hzw with
    | .rule y, hxy => exact ⟨y, List.mem_of_getElem? hw, hxy⟩

end Alike

theorem length_costs_le_costsIn {inner : Rule} : ∀ {xs : List (RuleOperand Rule)},
    .rule inner ∈ xs → inner.costs.length ≤ (costsIn xs).length
  | .field .. :: rest, h => by
      rw [costsIn, costsInBy]
      rcases List.mem_cons.mp h with heq | h
      · cases heq
      · exact length_costs_le_costsIn h
  | .rule x :: rest, h => by
      rw [costsIn, costsInBy, List.length_append]
      rcases List.mem_cons.mp h with heq | h
      · cases heq
        exact Nat.le_add_right _ _
      · exact Nat.le_trans (length_costs_le_costsIn h) (Nat.le_add_left _ _)
  | .part _ :: rest, h => by
      rw [costsIn, costsInBy]
      rcases List.mem_cons.mp h with heq | h
      · cases heq
      · exact length_costs_le_costsIn h

/-- A rule has more costs than the rules it is built from. -/
theorem length_costs_lt {r inner : Rule} (h : .rule inner ∈ r.operands) :
    inner.costs.length < r.costs.length := by
  obtain ⟨t, c, xs, a, i⟩ := r
  rw [costs, costsBy, List.length_cons]
  exact Nat.lt_succ_of_le (length_costs_le_costsIn h)

section Cost

variable {round : Float → Int} {parts : Part → Part → Ordering}

/-- Among rules of one signature the order of costs compares all costs. -/
theorem compareCostWith_eq_iff (hparts : ∀ p, parts p p = .eq) : ∀ a b : Rule,
    a.signature = b.signature →
      (compareCostWith round parts a b = .eq ↔ a.costsBy round = b.costsBy round) :=
  SameSignature.rules
    (Q := fun xs ys =>
      compareOperandCostsWith round parts xs ys = .eq ↔ costsInBy round xs = costsInBy round ys)
    { rule := fun t u c xs ys a b i j _ hsig ih => by
        have hlen : xs.length = ys.length := by
          rw [← length_signatureList xs, ← length_signatureList ys, hsig]
        simp only [compareCostWith, costsBy, Ordering.then_eq_eq, Std.compare_eq_iff_eq, hlen, true_and,
          List.cons.injEq, ih]
      nil := by simp [compareOperandCostsWith]
      field := fun name type type' xs ys ih => by
        simpa [compareOperandCostsWith, costsInBy, RuleOperand.origin, OperandOrigin.compare] using ih
      nested := fun x y xs ys hsig _ hx ih => by
        simp only [compareOperandCostsWith, costsInBy, Ordering.then_eq_eq, hx, ih]
        constructor
        · rintro ⟨hx, hxs⟩
          rw [hx, hxs]
        · exact fun heq => List.append_inj heq (length_costs round x y hsig)
      part := fun p xs ys ih => by
        simpa [compareOperandCostsWith, costsInBy, hparts] using ih }

end Cost

end Rule

namespace Space

variable {s : Space}

/-! ## Ranks -/

theorem compareZip_self {α : Type} {order : α → α → Ordering} :
    ∀ xs : List α, (∀ x ∈ xs, order x x = .eq) → compareZip order xs xs = .eq
  | [], _ => rfl
  | x :: xs, h => by
      simp only [compareZip, Ordering.then_eq_eq]
      exact ⟨h x List.mem_cons_self, compareZip_self xs fun y hy => h y (List.mem_cons_of_mem _ hy)⟩

theorem compareZip_eq_iff {α : Type} {order : α → α → Ordering} :
    ∀ xs ys : List α, xs.length = ys.length →
      (∀ x ∈ xs, ∀ y ∈ ys, order x y = .eq ↔ x = y) → (compareZip order xs ys = .eq ↔ xs = ys)
  | [], [], _, _ => by simp [compareZip]
  | x :: xs, y :: ys, hlen, h => by
      have ih := compareZip_eq_iff xs ys (Nat.succ.inj hlen) fun x' hx y' hy =>
        h x' (List.mem_cons_of_mem _ hx) y' (List.mem_cons_of_mem _ hy)
      simp only [compareZip, Ordering.then_eq_eq, List.cons.injEq, ih,
        h x List.mem_cons_self y List.mem_cons_self]
  | [], _ :: _, hlen, _ => by cases hlen
  | _ :: _, [], hlen, _ => by cases hlen

/-- An order of dimensions that is equality of ranks makes for an order of partitions that is. -/
theorem comparePartitionsWith_eq_iff (hs : s.WellFounded)
    {dimensions : Dimension → Dimension → Ordering} {bound : Nat}
    (hdims : ∀ i j d e, i < bound → j < bound → s.dimensions[i]? = some d →
      s.dimensions[j]? = some e → d.className = e.className → (dimensions d e = .eq ↔ i = j))
    {a b : Nat} (ha : s.Below bound a) (hb : s.Below bound b) :
    s.comparePartitionsWith dimensions a b = .eq ↔ a = b := by
  unfold comparePartitionsWith
  split
  · rename_i h
    exact iff_of_true rfl h
  · rename_i hne
    split
    · rename_i p q hp hq
      simp only [Ordering.then_eq_eq, Std.compare_eq_iff_eq]
      refine ⟨?_, fun h => absurd h hne⟩
      rintro ⟨hC, hparent, htable, hlen, haxes⟩
      refine hs.partition_unique hp hq ?_
      have hiff := (compareZip_eq_iff p.axes q.axes hlen
        fun x hx y hy => ?_).mp haxes
      · rw [Partition.identity, Partition.identity, hparent, htable, hiff]
      · obtain ⟨d, hd, hdC⟩ := hs.axis_dimension p (List.mem_of_getElem? hp) x hx
        obtain ⟨e, he, heC⟩ := hs.axis_dimension q (List.mem_of_getElem? hq) y hy
        have hde : d.className = e.className := by rw [hdC, heC, hC]
        obtain ⟨i, g⟩ := x
        obtain ⟨j, g'⟩ := y
        simp only [compareAxisWith, hd, he, Ordering.then_eq_eq, Std.compare_eq_iff_eq,
          hdims i j d e (ha p hp _ hx) (hb q hq _ hy) hd he hde, Axis.mk.injEq, and_comm]
    · rw [Std.compare_eq_iff_eq]

theorem comparePartsWith_eq_iff {partitions : Nat → Nat → Ordering} {x y : Part}
    (h : partitions x.partition y.partition = .eq ↔ x.partition = y.partition) :
    comparePartsWith partitions x y = .eq ↔ x = y := by
  obtain ⟨i, is⟩ := x
  obtain ⟨j, js⟩ := y
  simp only [comparePartsWith, Ordering.then_eq_eq, Std.compare_eq_iff_eq, h, Part.mk.injEq]

/-- Dimensions of one class are equal in the structural order only if they are of one rank, as long
as the bound for the way down lies above it. -/
theorem compareDimensions_eq_iff (hs : s.WellFounded) : ∀ (fuel : Nat) (i j : Nat) (d e : Dimension),
    i < fuel → j < fuel → s.dimensions[i]? = some d → s.dimensions[j]? = some e →
      d.className = e.className → (s.compareDimensions fuel d e = .eq ↔ i = j)
  | 0, i, _, _, _, hi, _, _, _, _ => by omega
  | fuel + 1, i, j, d, e, hi, hj, hd, he, hC => by
      have hunique : d.identity = e.identity ↔ i = j := by
        refine ⟨hs.dimension_unique hd he, ?_⟩
        rintro rfl
        rw [Option.some.inj (hd.symm.trans he)]
      rw [← hunique]
      unfold compareDimensions
      have hC' : d.className = e.className := hC
      cases hdo : d.origin with
      | field x _ =>
        cases heo : e.origin with
        | field y _ => simp [Dimension.identity, hdo, heo, hC']
        | rule y => simp [Dimension.identity, hdo, heo]
      | rule x =>
        cases heo : e.origin with
        | field y _ => simp [Dimension.identity, hdo, heo]
        | rule y =>
          simp only [Dimension.identity, hdo, heo, hC', Prod.mk.injEq, true_and, Sum.inr.injEq]
          refine Rule.compareWith_eq_iff x y fun p hp q hq => ?_
          refine comparePartsWith_eq_iff (comparePartitionsWith_eq_iff hs
            (fun i j d e hi hj hd he hC => compareDimensions_eq_iff hs fuel i j d e hi hj hd he hC)
            (hs.below_of_earlier hi hd hdo hp) (hs.below_of_earlier hj he heo hq))

theorem comparePartitions_eq_iff (hs : s.WellFounded) {a b : Nat} :
    s.comparePartitions a b = .eq ↔ a = b :=
  comparePartitionsWith_eq_iff hs
    (fun i j d e hi hj hd he hC => compareDimensions_eq_iff hs s.depth i j d e hi hj hd he hC)
    (hs.below_depth a) (hs.below_depth b)

/-- The structural order finds two rules equal exactly if they have one signature. -/
theorem compareRules_eq_iff (hs : s.WellFounded) {a b : Rule} :
    s.compareRules a b = .eq ↔ a.signature = b.signature :=
  Rule.compareWith_eq_iff a b fun _ _ _ _ => comparePartsWith_eq_iff (comparePartitions_eq_iff hs)

/-! ## Cost and structure -/

section Cost

variable {round : Float → Int}

theorem comparePartCosts_self :
    ∀ (fuel : Nat) (x : Part), s.comparePartCosts round fuel x x = .eq
  | 0, _ => rfl
  | fuel + 1, x => by
      have hdims : ∀ d, compareDimensionCostsWith
          (Rule.compareCostWith round (s.comparePartCosts round fuel)) d d = .eq := by
        intro d
        unfold compareDimensionCostsWith
        cases d.origin with
        | field _ _ => rfl
        | rule r =>
          exact (Rule.compareCostWith_eq_iff (comparePartCosts_self fuel) r r rfl).mpr rfl
      unfold comparePartCosts
      cases s.partitions[x.partition]? with
      | none => simp
      | some p => simp [compareZip_self _ fun d _ => hdims d]

/-- The order of cost and structure does not tell two rules apart exactly if they have one signature
and equal rounded costs throughout. -/
theorem compareCostNameBy_eq_iff (hs : s.WellFounded) {a b : Rule} :
    s.compareCostNameBy round a b = .eq ↔
      a.signature = b.signature ∧ a.costsBy round = b.costsBy round := by
  rw [compareCostNameBy, Ordering.then_eq_eq, compareRules_eq_iff hs, compareCostBy]
  constructor
  · rintro ⟨hcost, hsig⟩
    exact ⟨hsig, (Rule.compareCostWith_eq_iff (comparePartCosts_self _) a b hsig).mp hcost⟩
  · rintro ⟨hsig, hcosts⟩
    exact ⟨(Rule.compareCostWith_eq_iff (comparePartCosts_self _) a b hsig).mpr hcosts, hsig⟩

/-- The order of cost and structure does not tell two rules apart exactly if they are alike. -/
theorem compareCostName_eq_iff (hs : s.WellFounded) {a b : Rule} :
    s.compareCostName a b = .eq ↔ a.Alike b :=
  (compareCostNameBy_eq_iff hs).trans ⟨fun h => ⟨h.1, h.2⟩, fun h => ⟨h.signature, h.costs⟩⟩

end Cost

end Space

end FeatureSynth
