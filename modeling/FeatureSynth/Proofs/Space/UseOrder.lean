/-
# Uses in any order

To use a part is to count up, once each, the partition of the part, the dimensions it is cut
along, and all that the rules of these dimensions select.  Which counters these are is
known from what does not change while counting; and counting up one counter and then
another leaves what the other order leaves.  So the uses by some rules do not depend on
the order of the rules.
-/
import FeatureSynth.Proofs.Space.Uses

namespace FeatureSynth

namespace Space

/-- A counter of a space: that of a dimension, or that of a part, with its partition. -/
inductive Counter where
  | dimension (rank : Nat)
  | part (part : Part)

/-- Counts up once. -/
def count (s : Space) : Counter → Space
  | .dimension rank => s.modifyDimension rank countDimension
  | .part part => s.modifyPartition part.partition (countPart part.indexes)

/-- The counters that one use of a part counts up. -/
def countersOf (s : Space) : (fuel : Nat) → Part → List Counter
  | 0, _ => []
  | fuel + 1, part =>
    match s.partitions[part.partition]? with
    | none => []
    | some p => .part part :: p.axes.flatMap fun a =>
      match s.dimensions[a.dimension]? with
      | none => []
      | some d =>
        .dimension a.dimension ::
          ((d.rule?.map Rule.parts).getD []).flatMap (s.countersOf fuel)

variable {s t : Space}

theorem resetUses_count (s : Space) (c : Counter) : (s.count c).resetUses = s.resetUses := by
  cases c with
  | dimension rank => exact resetUses_countDimension s rank
  | part part => exact resetUses_countPart s part.partition part.indexes

/-! ## Counters in turn -/

theorem foldl_flatMap {α β γ : Type} {f : γ → α → γ} {g : β → List α} {h : γ → β → γ}
    {P : γ → Prop} (hP : ∀ c x, P c → P (f c x)) : ∀ {l : List β},
      (∀ y ∈ l, ∀ c, P c → h c y = (g y).foldl f c) → ∀ c, P c →
        l.foldl h c = (l.flatMap g).foldl f c
  | [], _, _, _ => rfl
  | y :: l, hl, c, hc => by
      have hkeep : ∀ (xs : List α) c, P c → P (xs.foldl f c) := by
        intro xs
        induction xs with
        | nil => exact fun c hc => hc
        | cons x xs ih => exact fun c hc => ih _ (hP c x hc)
      rw [List.foldl_cons, List.flatMap_cons, List.foldl_append, hl y List.mem_cons_self c hc]
      exact foldl_flatMap hP (fun z hz => hl z (List.mem_cons_of_mem _ hz)) _ (hkeep _ _ hc)

/-- A use of a part counts up its counters in turn. -/
theorem usePart_eq : ∀ (fuel : Nat) (part : Part) (t : Space), t.resetUses = s.resetUses →
    usePart fuel t part = (s.countersOf fuel part).foldl count t
  | 0, _, _, _ => rfl
  | fuel + 1, part, t, ht => by
      have hkeep : ∀ (t : Space) c, t.resetUses = s.resetUses →
          (t.count c).resetUses = s.resetUses := fun t c h => (resetUses_count t c).trans h
      have hframe := frame_of_reset ht
      unfold usePart countersOf
      cases hp : s.partitions[part.partition]? with
      | none =>
        have hnone : t.partitions[part.partition]? = none := by
          cases ht' : t.partitions[part.partition]? with
          | none => rfl
          | some q =>
            obtain ⟨p, hp', -⟩ := partition_of_frame hframe.symm ht'
            cases hp.symm.trans hp'
        rw [hnone]
        rfl
      | some p =>
        obtain ⟨q, hq, -, haxes⟩ := partition_of_frame hframe hp
        simp only [hq, haxes, List.foldl_cons]
        refine foldl_flatMap hkeep (fun a ha t ht => ?_) _ (hkeep t (.part part) ht)
        have hframe := frame_of_reset ht
        cases hd : s.dimensions[a.dimension]? with
        | none =>
          have hnone : t.dimensions[a.dimension]? = none := by
            cases ht' : t.dimensions[a.dimension]? with
            | none => rfl
            | some e =>
              obtain ⟨d, hd', -⟩ := dimension_of_frame hframe.symm ht'
              cases hd.symm.trans hd'
          rw [hnone]
          rfl
        | some d =>
          obtain ⟨e, he, -, horigin⟩ := dimension_of_frame hframe hd
          have hrule : e.rule? = d.rule? := by rw [Dimension.rule?, horigin, Dimension.rule?]
          simp only [he, hrule, List.foldl_cons]
          exact foldl_flatMap hkeep (fun inner _ t ht => usePart_eq fuel inner t ht) _
            (hkeep t (.dimension a.dimension) ht)

/-- The counters that rules count up. -/
def countersOfRules (s : Space) (rules : List Rule) : List Counter :=
  rules.flatMap fun r => r.parts.flatMap (s.countersOf s.depth)

theorem countUses_eq (s : Space) (rules : List Rule) :
    s.countUses rules = (s.countersOfRules rules).foldl count s.resetUses := by
  have hkeep : ∀ (t : Space) c, t.resetUses = s.resetUses →
      (t.count c).resetUses = s.resetUses := fun t c h => (resetUses_count t c).trans h
  refine foldl_flatMap hkeep (fun r _ t ht => ?_) _ (resetUses_resetUses s)
  have hdepth : t.depth = s.depth := by
    have := congrArg (fun t : Space => t.dimensions.length) ht
    simpa [depth, resetUses] using this
  rw [useRule, hdepth]
  exact foldl_flatMap hkeep (fun part _ t ht => usePart_eq s.depth part t ht) t ht

/-! ## Counters in any order -/

theorem countPart_comm (is js : List Nat) (p : Partition) :
    countPart is (countPart js p) = countPart js (countPart is p) := by
  have hparts : (countPart is (countPart js p)).parts = (countPart js (countPart is p)).parts := by
    simp only [countPart, List.map_map]
    refine List.map_congr_left fun x _ => ?_
    by_cases his : x.1 = is <;> by_cases hjs : x.1 = js <;> simp [his, hjs] <;> grind
  simp only [countPart] at hparts ⊢
  rw [hparts]

theorem count_comm (s : Space) (c d : Counter) : (s.count c).count d = (s.count d).count c := by
  cases c with
  | dimension i =>
    cases d with
    | dimension j =>
      simp only [count, modifyDimension]
      by_cases h : i = j
      · rw [h]
      · rw [List.modify_modify_ne _ _ _ h]
    | part q => rfl
  | part p =>
    cases d with
    | dimension j => rfl
    | part q =>
      simp only [count, modifyPartition]
      by_cases h : p.partition = q.partition
      · rw [h, List.modify_modify_eq, List.modify_modify_eq]
        congr 2
        funext x
        exact countPart_comm q.indexes p.indexes x
      · rw [List.modify_modify_ne _ _ _ h]

/-- The uses by rules do not depend on their order. -/
theorem countUses_perm {rules rules' : List Rule} (h : rules.Perm rules') (s : Space) :
    s.countUses rules = s.countUses rules' := by
  rw [countUses_eq, countUses_eq]
  exact (h.flatMap_right _).foldl_eq' (fun c _ d _ t => count_comm t c d) _

end Space

end FeatureSynth
