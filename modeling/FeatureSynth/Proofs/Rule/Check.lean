/-
# What checked rules are made of

A rule that was checked is made of rules that were, and names parts that are there:
what holds of the slots is asked of every operand on the way down.  The class of a
rule operand is the one its slot asks for.  So a statistic of a selection takes its
table from a partition that cuts a table of the very class of the statistic.
-/
import FeatureSynth.Proofs.Space.Lawful
import FeatureSynth.Rule.Check

namespace FeatureSynth

namespace Rule

variable {s : Space} {r inner : Rule} {i : Nat}

/-- What is asked of the operand at an index. -/
def Fits (s : Space) (r : Rule) (i : Nat) : RuleOperand Rule → Prop
  | .field .. => True
  | .rule inner => inner.check s = .ok () ∧ ∃ slot, r.checkInner inner i slot = .ok ()
  | .part part => ∃ slot, r.checkPart s part i slot = .ok ()

theorem fits_of_checkOperands : ∀ (k : Nat) (slots : List Kind) (xs : List (RuleOperand Rule)),
    slots.length = xs.length → checkOperands s r k slots xs = .ok () →
      ∀ i x, xs[i]? = some x → r.Fits s (k + i) x
  | k, [], [], _, _, i, x, hx => by simp at hx
  | k, slot :: slots, y :: ys, hlen, h, i, x, hx => by
      have hrest : checkOperands s r (k + 1) slots ys = .ok () ∧ r.Fits s k y := by
        cases y with
        | field name type =>
          rw [checkOperands] at h
          split at h
          · cases h
          · exact ⟨h, trivial⟩
        | rule inner =>
          rw [checkOperands] at h
          split at h
          · cases h
          · rename_i hinner
            split at h
            · cases h
            · rename_i hslot
              exact ⟨h, hinner, slot, hslot⟩
        | part part =>
          rw [checkOperands] at h
          split at h
          · cases h
          · rename_i hslot
            exact ⟨h, slot, hslot⟩
      cases i with
      | zero =>
        cases hx
        exact hrest.2
      | succ i =>
        have hi := fits_of_checkOperands (k + 1) slots ys (Nat.succ.inj hlen) hrest.1 i x hx
        rwa [Nat.add_right_comm] at hi

theorem of_check (h : r.check s = .ok ()) :
    (∀ i x, r.operands[i]? = some x → r.Fits s i x) ∧ r.checkSelection s = .ok () := by
  obtain ⟨template, className, operands, cost, tieBreak⟩ := r
  rw [check] at h
  split at h
  · cases h
  · split at h
    · cases h
    · rename_i hlen
      split at h
      · rename_i hoperands
        refine ⟨fun i x hx => ?_, h⟩
        have hfits := fits_of_checkOperands 0 _ _ (not_not.mp hlen) hoperands i x hx
        rwa [Nat.zero_add] at hfits
      · cases h

/-- The operands of a checked rule are checked. -/
theorem check_operand (h : r.check s = .ok ()) (hinner : .rule inner ∈ r.operands) :
    inner.check s = .ok () := by
  obtain ⟨i, hi⟩ := List.mem_iff_getElem?.mp hinner
  exact ((of_check h).1 i _ hi).1

/-! ## Parts -/

mutual

/-- The parts a checked rule names are in their partitions. -/
theorem part?_of_check : ∀ r : Rule, r.check s = .ok () →
    r.PartsIn fun part => (s.part? part).isSome = true
  | ⟨template, className, operands, cost, tieBreak⟩, h => by
      obtain ⟨hfits, -⟩ := of_check h
      refine part?_of_fits operands fun x hx => ?_
      obtain ⟨i, hi⟩ := List.mem_iff_getElem?.mp hx
      exact ⟨_, i, hfits i x hi⟩

theorem part?_of_fits : ∀ xs : List (RuleOperand Rule), (∀ x ∈ xs, ∃ r i, Fits s r i x) →
    ∀ part ∈ partsList xs, (s.part? part).isSome = true
  | [], _, _, hpart => by cases hpart
  | .field name type :: rest, h, part, hpart =>
      part?_of_fits rest (fun x hx => h x (List.mem_cons_of_mem _ hx)) part hpart
  | .rule inner :: rest, h, part, hpart => by
      rcases List.mem_append.mp hpart with hpart | hpart
      · obtain ⟨r, i, hinner, -⟩ := h _ List.mem_cons_self
        exact part?_of_check inner hinner part hpart
      · exact part?_of_fits rest (fun x hx => h x (List.mem_cons_of_mem _ hx)) part hpart
  | .part p :: rest, h, part, hpart => by
      rcases List.mem_cons.mp hpart with rfl | hpart
      · obtain ⟨r, i, slot, hslot⟩ := h _ List.mem_cons_self
        unfold checkPart at hslot
        split at hslot
        · cases hslot
        · split at hslot
          · cases hslot
          · rename_i hnone
            cases hp : s.part? part with
            | none => simp [hp] at hnone
            | some entry => rfl
      · exact part?_of_fits rest (fun x hx => h x (List.mem_cons_of_mem _ hx)) part hpart

end

/-! ## Classes -/

theorem operandClass_of_checkInner {slot : Kind} (h : r.checkInner inner i slot = .ok ()) :
    r.operandClass i = .ok inner.className := by
  unfold checkInner at h
  cases hresult : inner.resultType with
  | error e =>
    rw [hresult] at h
    cases h
  | ok result =>
    rw [hresult] at h
    dsimp only [bind, Except.bind] at h
    split at h
    · cases h
    · cases hclass : r.operandClass i with
      | error e =>
        rw [hclass] at h
        cases h
      | ok expected =>
        rw [hclass] at h
        dsimp only at h
        split at h
        · cases h
        · rename_i heq
          rw [not_not.mp heq]

theorem getElem?_of_ruleOperand? (h : r.ruleOperand? i = some inner) :
    r.operands[i]? = some (.rule inner) := by
  unfold ruleOperand? at h
  split at h
  · rename_i x hx
    cases h
    exact hx
  · cases h

/-- A rule operand is of the class that the slot asks for. -/
theorem operandClass_of_check (h : r.check s = .ok ()) (hinner : r.ruleOperand? i = some inner) :
    r.operandClass i = .ok inner.className := by
  obtain ⟨-, slot, hslot⟩ := (of_check h).1 i _ (getElem?_of_ruleOperand? hinner)
  exact operandClass_of_checkInner hslot

/-- A statistic of a selection takes its table from a partition of a table of its class. -/
theorem parentClass_of_partitionBlock (h : r.check s = .ok ()) (hr : r.isPartitionBlock = true)
    {part : Part} (hpart : (r.ruleOperand? 0).bind (partOperand? · 1) = some part) :
    ∃ p, s.partitions[part.partition]? = some p ∧ p.parentClass = r.className := by
  obtain ⟨selection, hfirst, hpart⟩ := Option.bind_eq_some_iff.mp hpart
  have hselects : selection.isSelection = true := by
    simp only [isPartitionBlock, hfirst, Option.any_some, Bool.and_eq_true] at hr
    exact hr.2
  have hclass : selection.className = r.className := by
    have := operandClass_of_check h hfirst
    simpa [operandClass, eq_comm] using this
  have hchecked := check_operand h (List.mem_of_getElem? (getElem?_of_ruleOperand? hfirst))
  have hselection := (of_check hchecked).2
  unfold checkSelection at hselection
  rw [if_pos hselects, hpart] at hselection
  split at hselection
  · rename_i table type q hfield heq
    cases heq
    split at hselection
    · rename_i p hp
      split at hselection
      · cases hselection
      · rename_i hforeign
        refine ⟨p, hp, ?_⟩
        rw [← hclass]
        by_contra hne
        exact hforeign (.inr hne)
    · cases hselection
  · cases hselection

end Rule

end FeatureSynth
