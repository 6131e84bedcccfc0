/-
# The order of blocks

The ledger of block rules has one entry for each block, so its order may not tell
apart the rules that members of one block realize, and has to tell apart all others
of equal cost.  Rules are taken as the structural order takes them, with the
indexes of their first parts erased.  That makes the order of blocks lawful, and
says which rules it ties.

A checked block rule over the default catalogue uses the first part it names.  So
two of them with equal rounded costs share an entry exactly if they differ in the
indexes of their used parts at most.
-/
import FeatureSynth.Proofs.Ledger.Sorted
import FeatureSynth.Proofs.Rule.FirstPart
import FeatureSynth.Proofs.Space.Structure

namespace FeatureSynth

namespace Space

variable {s : Space} {a b : Rule} {l : Ledger}

/-- The order of blocks compares rounded costs and what is left of rules without the indexes of
their first parts. -/
theorem compareBlock_eq (s : Space) (a b : Rule) :
    s.compareBlock a b = (compare (roundedCost a.cost) (roundedCost b.cost)).then
      (s.compareRules a.eraseFirst b.eraseFirst) := by
  rw [compareBlock, (Rule.counts_compareBlockWith s.comparePartitions 0 a b).order]
  rfl

/-- The order of blocks looks at the cuts of a space only. -/
theorem compareBlock_congr {s' : Space} (h : SameCuts s s') : s'.compareBlock = s.compareBlock := by
  funext a b
  rw [compareBlock_eq, compareBlock_eq, compareRules_congr h.frame]

/-- The order of blocks is lawful on the rules whose partitions are registered. -/
theorem lawfulOn_compareBlock (hs : s.WellFounded) :
    LawfulOn (Rule.PartsIn fun part => s.Registered part.partition) s.compareBlock := by
  have heq : s.compareBlock = fun a b => (compare (roundedCost a.cost) (roundedCost b.cost)).then
      (s.compareRules a.eraseFirst b.eraseFirst) := by
    funext a b
    exact compareBlock_eq s a b
  rw [heq]
  exact (LawfulOn.of_compare fun r : Rule => roundedCost r.cost).both
    ((lawfulOn_compareRules hs).comp Rule.eraseFirst fun _ hr => hr.eraseFirst)

/-- The order of blocks ties rules of equal rounded cost that have one signature once the indexes of
their first parts are erased. -/
theorem compareBlock_eq_iff (hs : s.WellFounded) :
    s.compareBlock a b = .eq ↔
      roundedCost a.cost = roundedCost b.cost ∧ a.eraseFirst.signature = b.eraseFirst.signature := by
  rw [compareBlock_eq, Ordering.then_eq_eq, Std.compare_eq_iff_eq, compareRules_eq_iff hs]

/-! ## Block rules over the default catalogue -/

/-- A block rule that builds deal with: over the default catalogue, and checked. -/
structure DefaultBlock (s : Space) (r : Rule) : Prop where
  templates : r.Over .default
  check : r.check s = .ok ()
  block : r.isBlockRule = true

namespace DefaultBlock

variable {r : Rule}

theorem usesFirst (h : s.DefaultBlock r) : r.UsesFirst :=
  Rule.usesFirst_of_check Catalogue.blocksOfTables_default r h.templates h.check h.block

theorem registered (h : s.DefaultBlock r) : r.PartsIn fun part => s.Registered part.partition :=
  fun part hpart => by
    obtain ⟨entry, hentry⟩ := Option.isSome_iff_exists.mp (Rule.part?_of_check r h.check part hpart)
    obtain ⟨p, hp, -⟩ := Option.bind_eq_some_iff.mp hentry
    exact ⟨p, hp⟩

end DefaultBlock

/-- Ledgers of block rules over a space, as a build keeps them: rules are entered, and the blocks that
realize them are noted. -/
inductive BlockLedger (s : Space) : Ledger → Prop
  | empty : BlockLedger s .empty
  | enter {l : Ledger} {r : Rule} : BlockLedger s l →
      (r.PartsIn fun part => s.Registered part.partition) → BlockLedger s (l.enter s.compareBlock r)
  | update {l : Ledger} (r : Rule) (block : String) : BlockLedger s l →
      BlockLedger s (l.update s.compareBlock r block)

theorem BlockLedger.sorted (hs : s.WellFounded) (h : s.BlockLedger l) :
    l.Sorted (Rule.PartsIn fun part => s.Registered part.partition) s.compareBlock := by
  induction h with
  | empty => exact Ledger.sorted_empty
  | enter _ hr ih => exact ih.enter (lawfulOn_compareBlock hs) hr
  | update _ _ _ ih => exact ih.update

/-- Block rules share an entry if and only if the order of blocks ties them. -/
theorem BlockLedger.shared_iff (hs : s.WellFounded) (h : s.BlockLedger l) (ha : s.DefaultBlock a)
    (hb : s.DefaultBlock b) (hmem : l.contains s.compareBlock a = true) :
    (∃ i, l.search s.compareBlock a = .found i ∧ l.search s.compareBlock b = .found i) ↔
      s.compareBlock a b = .eq := by
  have hiff := fun i => (h.sorted hs).shared_iff (i := i) (lawfulOn_compareBlock hs) ha.registered
    hb.registered
  constructor
  · rintro ⟨i, hi, hi'⟩
    exact (hiff i hi).mp hi'
  · intro hab
    unfold Ledger.contains at hmem
    cases hsearch : l.search s.compareBlock a with
    | vacant i =>
      rw [hsearch] at hmem
      cases hmem
    | found i => exact ⟨i, rfl, (hiff i hsearch).mpr hab⟩

/-- The order of blocks over a well-founded space, on the rules whose partitions are registered,
reverses with its arguments and is transitive, hence is reflexive and total.  It ties two rules exactly
if their rounded costs are equal and they have one signature once the indexes of the first part that
each names are erased.  That is the part that a checked block rule over the default catalogue uses; so
of two of these with equal rounded costs, one of which was entered, both have one entry exactly if they
differ in the indexes of their used parts at most. -/
theorem block_order (hs : s.WellFounded) :
    Std.TransCmp (fun a b : {r : Rule // r.PartsIn fun part => s.Registered part.partition} =>
      s.compareBlock a b) ∧
    (∀ a b : Rule, s.compareBlock a b = .eq ↔
      roundedCost a.cost = roundedCost b.cost ∧ a.eraseFirst.signature = b.eraseFirst.signature) ∧
    (∀ r, s.DefaultBlock r → ∃ part, r.usedPart? = some part ∧ r.parts.head? = some part) ∧
    ∀ (l : Ledger) (a b : Rule), s.BlockLedger l → s.DefaultBlock a → s.DefaultBlock b →
      roundedCost a.cost = roundedCost b.cost → l.contains s.compareBlock a = true →
        ((∃ i, l.search s.compareBlock a = .found i ∧ l.search s.compareBlock b = .found i) ↔
          a.eraseUsed.signature = b.eraseUsed.signature) := by
  refine ⟨(lawfulOn_compareBlock hs).transCmp, fun a b => compareBlock_eq_iff hs,
    fun r hr => hr.usesFirst.used, ?_⟩
  intro l a b hl ha hb hcost hmem
  rw [hl.shared_iff hs ha hb hmem, compareBlock_eq_iff hs, ha.usesFirst.erase, hb.usesFirst.erase]
  exact and_iff_right hcost

end Space

/-! ## Customers by orders of either size -/

namespace Shops

/-- Small and large orders by amount, and customers by the number of their small orders. -/
def bothSizes : Space :=
  ⟨[amount, smallCount], [byAmount [([0], ⟨0, 2⟩), ([1], ⟨0, 2⟩)], byCount]⟩

theorem built_bothSizes : bothSizes.Built := by
  have h : space.addPart 0 [1] 2 = .ok (⟨0, [1]⟩, bothSizes) := rfl
  exact .part built_space h

theorem defaultBlock_small : bothSizes.DefaultBlock (count 0) :=
  ⟨⟨rfl, ⟨rfl, trivial⟩, trivial⟩, rfl, rfl⟩

theorem defaultBlock_large : bothSizes.DefaultBlock (count 1) :=
  ⟨⟨rfl, ⟨rfl, trivial⟩, trivial⟩, rfl, rfl⟩

/-- The ledger with the number of small orders. -/
def ledger : Ledger := Ledger.empty.enter bothSizes.compareBlock (count 0)

theorem blockLedger_ledger : bothSizes.BlockLedger ledger :=
  .enter .empty defaultBlock_small.registered

end Shops

open Shops in
/-- The numbers of small and of large orders share an entry: they differ in the indexes of the parts
they use. -/
theorem shops_block_order :
    bothSizes.WellFounded ∧ bothSizes.DefaultBlock (count 0) ∧ bothSizes.DefaultBlock (count 1) ∧
      count 0 ≠ count 1 ∧ bothSizes.BlockLedger ledger ∧
      ∃ i, ledger.search bothSizes.compareBlock (count 0) = .found i ∧
        ledger.search bothSizes.compareBlock (count 1) = .found i := by
  obtain ⟨-, -, -, hshare⟩ := Space.block_order built_bothSizes.wellFounded
  refine ⟨built_bothSizes.wellFounded, defaultBlock_small, defaultBlock_large, ?_,
    blockLedger_ledger, ?_⟩
  · intro h
    simp [count] at h
  · refine (hshare ledger (count 0) (count 1) blockLedger_ledger defaultBlock_small
      defaultBlock_large rfl rfl).mpr ?_
    rw [defaultBlock_small.usesFirst.erase, defaultBlock_large.usesFirst.erase]
    rfl

end FeatureSynth
