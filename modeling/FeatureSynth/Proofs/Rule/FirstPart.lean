/-
# The first part of a rule

Blocks gather the rules that agree up to the indexes of one part, the first one met
depth first.  The order of blocks finds it by counting.  As long as a comparison has
decided nothing, as many parts were met in the one rule as in the other, so the count
is right for both: rules compare as the structural order compares them with the
indexes of their first parts erased.

For the block rules over the default catalogue the first part is the one that says
which member of a block a rule is.  The table of a statistic is a field or a
selection there, and a checked selection starts with a field and goes on with its
part.
-/
import FeatureSynth.Proofs.Rule.Check
import FeatureSynth.Proofs.Rule.Templates
import FeatureSynth.Template.Default

namespace FeatureSynth

/-- A part of which only the partition is known. -/
def Part.withoutIndexes (part : Part) : Part := ⟨part.partition, []⟩

namespace Rule

/-! ## Erasure -/

mutual

/-- A rule with the indexes of its first part erased, unless parts were seen before. -/
def eraseFrom : (seen : Nat) → Rule → Rule
  | seen, ⟨template, className, operands, cost, tieBreak⟩ =>
    ⟨template, className, eraseFromIn seen operands, cost, tieBreak⟩

/-- Operands with the indexes of their first part erased, unless parts were seen before. -/
def eraseFromIn : (seen : Nat) → List (RuleOperand Rule) → List (RuleOperand Rule)
  | _, [] => []
  | seen, .field name type :: rest => .field name type :: eraseFromIn seen rest
  | seen, .rule inner :: rest =>
    .rule (eraseFrom seen inner) :: eraseFromIn (seen + inner.parts.length) rest
  | seen, .part part :: rest =>
    .part (if seen = 0 then part.withoutIndexes else part) :: eraseFromIn (seen + 1) rest

end

theorem length_eraseFromIn : ∀ (seen : Nat) (xs : List (RuleOperand Rule)),
    (eraseFromIn seen xs).length = xs.length
  | _, [] => by rw [eraseFromIn]
  | seen, .field .. :: rest => by
      rw [eraseFromIn, List.length_cons, length_eraseFromIn seen rest, List.length_cons]
  | seen, .rule inner :: rest => by
      rw [eraseFromIn, List.length_cons, length_eraseFromIn _ rest, List.length_cons]
  | seen, .part _ :: rest => by
      rw [eraseFromIn, List.length_cons, length_eraseFromIn _ rest, List.length_cons]

/-- A rule with the indexes of the first part met depth first erased. -/
def eraseFirst (r : Rule) : Rule := r.eraseFrom 0

mutual

/-- Behind a part nothing is erased. -/
theorem eraseFrom_succ (n : Nat) : ∀ r : Rule, r.eraseFrom (n + 1) = r
  | ⟨_, _, xs, _, _⟩ => by rw [eraseFrom, eraseFromIn_succ n xs]

theorem eraseFromIn_succ (n : Nat) : ∀ xs : List (RuleOperand Rule), eraseFromIn (n + 1) xs = xs
  | [] => by rw [eraseFromIn]
  | .field .. :: rest => by rw [eraseFromIn, eraseFromIn_succ n rest]
  | .rule inner :: rest => by
      rw [eraseFromIn, eraseFrom_succ n inner, Nat.add_right_comm, eraseFromIn_succ _ rest]
  | .part part :: rest => by
      rw [eraseFromIn, eraseFromIn_succ _ rest, if_neg (Nat.succ_ne_zero n)]

end

/-- Parts with the indexes of the first erased, unless parts were seen before. -/
def eraseHead (seen : Nat) (parts : List Part) : List Part :=
  if seen = 0 then parts.modifyHead Part.withoutIndexes else parts

theorem eraseHead_append (seen : Nat) (ps qs : List Part) :
    eraseHead seen (ps ++ qs) = eraseHead seen ps ++ eraseHead (seen + ps.length) qs := by
  unfold eraseHead
  cases ps with
  | nil => simp
  | cons p ps =>
    rw [if_neg (show ¬ seen + (p :: ps).length = 0 by simp)]
    split <;> simp

mutual

/-- Erasure leaves all parts but the first as they are, and the first in its partition. -/
theorem parts_eraseFrom : ∀ (seen : Nat) (r : Rule),
    (r.eraseFrom seen).parts = eraseHead seen r.parts
  | seen, ⟨_, _, xs, _, _⟩ => by rw [eraseFrom, parts, parts, partsList_eraseFromIn seen xs]

theorem partsList_eraseFromIn : ∀ (seen : Nat) (xs : List (RuleOperand Rule)),
    partsList (eraseFromIn seen xs) = eraseHead seen (partsList xs)
  | seen, [] => by simp [eraseFromIn, partsList, eraseHead]
  | seen, .field .. :: rest => by
      rw [eraseFromIn, partsList, partsList, partsList_eraseFromIn seen rest]
  | seen, .rule inner :: rest => by
      rw [eraseFromIn, partsList, partsList, parts_eraseFrom seen inner,
        partsList_eraseFromIn _ rest, eraseHead_append]
  | seen, .part part :: rest => by
      rw [eraseFromIn, partsList, partsList, partsList_eraseFromIn _ rest, eraseHead, eraseHead,
        if_neg (Nat.succ_ne_zero seen)]
      split <;> simp

end

/-- Erasure takes no part out of its partition. -/
theorem PartsIn.eraseFirst {P : Nat → Prop} {r : Rule}
    (h : r.PartsIn fun part => P part.partition) :
    r.eraseFirst.PartsIn fun part => P part.partition := by
  intro part hpart
  rw [Rule.eraseFirst, parts_eraseFrom, eraseHead, if_pos rfl] at hpart
  cases hparts : r.parts with
  | nil =>
    rw [hparts] at hpart
    cases hpart
  | cons p ps =>
    rw [hparts, List.modifyHead_cons] at hpart
    rcases List.mem_cons.mp hpart with rfl | hpart
    · exact h p (hparts ▸ List.mem_cons_self)
    · exact h part (hparts ▸ List.mem_cons_of_mem _ hpart)

/-! ## Comparison by counting -/

/-- A comparison by counting decides as a structural one does, and if it decides nothing, it has
counted the parts of both sides. -/
structure Counts (seen : Nat) (counted : Ordering × Nat) (order : Ordering) (ps qs : List Part) :
    Prop where
  order : counted.1 = order
  left : counted.1 = .eq → counted.2 = seen + ps.length
  right : counted.1 = .eq → counted.2 = seen + qs.length

namespace Counts

variable {seen : Nat} {first : Ordering × Nat} {next : Nat → Ordering × Nat}
variable {order order' : Ordering} {ps qs ps' qs' : List Part}

/-- Comparisons that meet no part come to their end, or go on with the count they started with. -/
theorem head (h : order = .eq → Counts seen (next seen) order' ps qs) :
    Counts seen (Rule.goOn (order, seen) next) (order.then order') ps qs := by
  cases order with
  | lt | gt => exact ⟨rfl, fun h => (by cases h), fun h => (by cases h)⟩
  | eq => exact h rfl

/-- Where the first comparison decides nothing the count is the same on both sides, and the next one
goes on with it. -/
theorem goOn (h : Counts seen first order ps qs)
    (h' : ps.length = qs.length →
      Counts (seen + ps.length) (next (seen + ps.length)) order' ps' qs') :
    Counts seen (goOn first next) (order.then order') (ps ++ ps') (qs ++ qs') := by
  obtain ⟨decided, count⟩ := first
  obtain ⟨rfl, hleft, hright⟩ := h
  cases decided with
  | lt => exact ⟨rfl, fun h => (by cases h), fun h => (by cases h)⟩
  | gt => exact ⟨rfl, fun h => (by cases h), fun h => (by cases h)⟩
  | eq =>
    -- as nothing is decided, both sides have met as many parts
    have hps : count = seen + ps.length := hleft rfl
    have hqs : count = seen + qs.length := hright rfl
    obtain ⟨horder, hleft', hright'⟩ := h' (by omega)
    rw [← hps] at horder hleft' hright'
    refine ⟨horder, fun h => ?_, fun h => ?_⟩
    · rw [List.length_append, ← Nat.add_assoc, ← hps]
      exact hleft' h
    · rw [List.length_append, ← Nat.add_assoc, ← hqs]
      exact hright' h

end Counts

section Counting

variable (partitions : Nat → Nat → Ordering)

/-- Parts are compared as what is left of them: the first by partition, all others whole. -/
theorem counts_part (seen : Nat) (p q : Part) :
    Counts seen
      (if seen = 0 then partitions p.partition q.partition
        else (partitions p.partition q.partition).then (compare p.indexes q.indexes), seen + 1)
      (Space.comparePartsWith partitions (if seen = 0 then p.withoutIndexes else p)
        (if seen = 0 then q.withoutIndexes else q)) [p] [q] where
  order := by
    split
    · rw [Space.comparePartsWith, Part.withoutIndexes, Part.withoutIndexes, Std.compare_self,
        Ordering.then_eq]
    · rfl
  left := fun _ => rfl
  right := fun _ => rfl

mutual

/-- Comparison by counting is the structural one of what erasure leaves. -/
theorem counts_compareBlockWith : ∀ (seen : Nat) (a b : Rule),
    Counts seen (compareBlockWith partitions seen a b)
      (compareWith (Space.comparePartsWith partitions) (a.eraseFrom seen) (b.eraseFrom seen))
      a.parts b.parts
  | seen, ⟨t, c, xs, _, _⟩, ⟨u, d, ys, _, _⟩ => by
      simp only [compareBlockWith, eraseFrom, compareWith, parts, length_eraseFromIn]
      have hassoc : ∀ c n l o : Ordering, c.then (n.then (l.then o)) = (c.then (n.then l)).then o :=
        fun _ _ _ _ => by simp only [Ordering.then_assoc]
      rw [hassoc]
      refine .head fun hhead => counts_compareBlockOperandsWith seen xs ys ?_
      simp only [Ordering.then_eq_eq, Std.compare_eq_iff_eq] at hhead
      exact hhead.2.2

theorem counts_compareBlockOperandsWith : ∀ (seen : Nat) (xs ys : List (RuleOperand Rule)),
    xs.length = ys.length →
    Counts seen (compareBlockOperandsWith partitions seen xs ys)
      (compareOperandsWith (Space.comparePartsWith partitions) (eraseFromIn seen xs)
        (eraseFromIn seen ys))
      (partsList xs) (partsList ys)
  | seen, [], [], _ => by
      simp only [compareBlockOperandsWith, eraseFromIn, compareOperandsWith, partsList]
      exact ⟨rfl, fun _ => rfl, fun _ => rfl⟩
  | seen, .field x _ :: xs, .field y _ :: ys, h => by
      simp only [compareBlockOperandsWith, eraseFromIn, compareOperandsWith, partsList]
      exact .head fun _ => counts_compareBlockOperandsWith seen xs ys (Nat.succ.inj h)
  | seen, .rule x :: xs, .rule y :: ys, h => by
      simp only [compareBlockOperandsWith, eraseFromIn, compareOperandsWith, partsList]
      refine (counts_compareBlockWith seen x y).goOn fun hlen => ?_
      rw [← hlen]
      exact counts_compareBlockOperandsWith _ xs ys (Nat.succ.inj h)
  | seen, .part x :: xs, .part y :: ys, h => by
      simp only [compareBlockOperandsWith, eraseFromIn, compareOperandsWith, partsList]
      exact (counts_part partitions seen x y).goOn fun _ =>
        counts_compareBlockOperandsWith (seen + 1) xs ys (Nat.succ.inj h)
  | seen, .field _ _ :: xs, .rule _ :: ys, _ | seen, .field _ _ :: xs, .part _ :: ys, _
  | seen, .rule _ :: xs, .field _ _ :: ys, _ | seen, .rule _ :: xs, .part _ :: ys, _
  | seen, .part _ :: xs, .field _ _ :: ys, _ | seen, .part _ :: xs, .rule _ :: ys, _ => by
      simp only [compareBlockOperandsWith, eraseFromIn, compareOperandsWith]
      exact .head fun h => absurd h
        (by simp [RuleOperand.origin, OperandOrigin.compare, OperandOrigin.rank])

end

end Counting

/-! ## The part a block rule uses -/

/-- A rule with the indexes of its operand erased, if that is a part. -/
def eraseOperand (r : Rule) (index : Nat) : Rule :=
  { r with
    operands := r.operands.modify index fun
      | .part part => .part part.withoutIndexes
      | operand => operand }

/-- A rule with the indexes of the part it uses erased. -/
def eraseUsed : Rule → Rule
  | ⟨template, className, operands, cost, tieBreak⟩ =>
    let r : Rule := ⟨template, className, operands, cost, tieBreak⟩
    match r.classify, operands with
    | .selection, _ => r.eraseOperand 1
    | .partitionBlock, .rule selection :: rest =>
      ⟨template, className, .rule (selection.eraseOperand 1) :: rest, cost, tieBreak⟩
    | .valueBlock, first :: .rule inner :: rest =>
      ⟨template, className, first :: .rule (eraseUsed inner) :: rest, cost, tieBreak⟩
    | _, _ => r

end Rule

/-- Only statistics of tables have variants for blocks, none of them is a selection, and only a
selection results in a relation. -/
structure Template.BlocksOfTables (t : Template) : Prop where
  partition : t.partitionStatistic.isSome = true → t.selection = false
  value : t.valueStatistic.isSome = true →
    t.partitionStatistic.isSome = true ∧ t.slots.head? = some .objectArray
  simple : t.selection = false → (FieldType.ofKind? t.result).isSome = true

theorem Catalogue.blocksOfTables_default : ∀ t ∈ Catalogue.default, t.BlocksOfTables := by
  have h : ∀ t ∈ Catalogue.default,
      (t.partitionStatistic.isSome = true → t.selection = false) ∧
      (t.valueStatistic.isSome = true →
        t.partitionStatistic.isSome = true ∧ t.slots.head? = some .objectArray) ∧
      (t.selection = false → (FieldType.ofKind? t.result).isSome = true) := by decide
  exact fun t ht => ⟨(h t ht).1, (h t ht).2.1, (h t ht).2.2⟩

namespace Rule

variable {s : Space} {r inner : Rule}

theorem template_mem_of_over {ts : Catalogue} (h : r.Over ts) : r.template ∈ ts := by
  obtain ⟨template, className, operands, cost, tieBreak⟩ := r
  exact List.mem_of_find?_eq_some h.1

/-- A checked selection restricts a field by the part behind it. -/
theorem operands_of_selection (h : r.check s = .ok ()) (hr : r.isSelection = true) :
    ∃ name type part rest, r.operands = .field name type :: .part part :: rest := by
  have hselection := (of_check h).2
  unfold checkSelection at hselection
  rw [if_pos hr] at hselection
  split at hselection
  · rename_i name type part hfield hpart
    unfold fieldOperand? at hfield
    unfold partOperand? at hpart
    match hxs : r.operands with
    | [] => simp [hxs] at hfield
    | [_] => simp [hxs] at hpart
    | x :: y :: rest =>
      cases x <;> cases y <;> simp [hxs] at hfield hpart ⊢
  · cases hselection

/-- The operands of a checked rule fill the slots of its template. -/
theorem checkOperands_of_check (h : r.check s = .ok ()) :
    checkOperands s r 0 r.template.slots r.operands = .ok () := by
  obtain ⟨template, className, operands, cost, tieBreak⟩ := r
  rw [check] at h
  split at h
  · cases h
  · split at h
    · cases h
    · split at h
      · assumption
      · cases h

/-- A rule operand computes what the slot asks for. -/
theorem resultType_of_checkInner {i : Nat} {slot : Kind} (h : r.checkInner inner i slot = .ok ()) :
    ∃ result, inner.resultType = .ok result ∧ result.kind = slot := by
  unfold checkInner at h
  cases hresult : inner.resultType with
  | error e =>
    rw [hresult] at h
    cases h
  | ok result =>
    rw [hresult] at h
    dsimp only [bind, Except.bind] at h
    split at h
    · cases h
    · rename_i hkind
      exact ⟨result, rfl, not_not.mp hkind⟩

theorem resultType_of_simple : ∀ {r : Rule} {simple : FieldType},
    FieldType.ofKind? r.template.result = some simple → r.resultType = .ok simple
  | ⟨template, className, operands, cost, tieBreak⟩, simple, h => by
      change FieldType.ofKind? template.result = some simple at h
      unfold resultType
      rw [h]

/-- The part a rule uses is the first it names. -/
structure UsesFirst (r : Rule) : Prop where
  erase : r.eraseUsed = r.eraseFirst
  used : ∃ part, r.usedPart? = some part ∧ r.parts.head? = some part

section Over

variable {ts : Catalogue} (hts : ∀ t ∈ ts, t.BlocksOfTables)
include hts

/-- A rule that computes a table is a selection. -/
theorem not_table (hover : inner.Over ts) (hinner : inner.isSelection = false) {i : Nat} :
    r.checkInner inner i .objectArray ≠ .ok () := by
  intro h
  obtain ⟨simple, hsimple⟩ := Option.isSome_iff_exists.mp
    ((hts _ (template_mem_of_over hover)).simple hinner)
  obtain ⟨result, hresult, hkind⟩ := resultType_of_checkInner h
  cases hresult.symm.trans (resultType_of_simple hsimple)
  rw [← FieldType.kind_ofKind? hsimple, hkind] at hsimple
  cases hsimple

/-- The table of a statistic that selects nothing is a field. -/
theorem field_of_statistic (hover : r.Over ts) (h : r.check s = .ok ())
    (hvalue : r.template.valueStatistic.isSome = true)
    (hselects : (r.ruleOperand? 0).any isSelection = false) {first : RuleOperand Rule}
    {rest : List (RuleOperand Rule)} (hxs : r.operands = first :: rest) :
    ∃ name type, first = .field name type := by
  have ht := hts _ (template_mem_of_over hover)
  obtain ⟨hpartition, hslot⟩ := ht.value hvalue
  obtain ⟨slots, hslots⟩ := List.head?_eq_some_iff.mp hslot
  have hchecked := checkOperands_of_check h
  rw [hslots, hxs] at hchecked
  match first with
  | .field name type => exact ⟨name, type, rfl⟩
  | .part part =>
    -- parts stand in selections, and a statistic is none
    have hnot : r.isSelection = false := ht.partition hpartition
    simp [checkOperands, checkPart, hnot, refuse, breach] at hchecked
  | .rule inner =>
    -- the slot asks for a table, which no rule but a selection computes
    have hinner : inner.isSelection = false := by simpa [ruleOperand?, hxs] using hselects
    have hmem : .rule inner ∈ r.operands := hxs ▸ List.mem_cons_self
    rw [checkOperands] at hchecked
    split at hchecked
    · cases hchecked
    · split at hchecked
      · cases hchecked
      · rename_i hfits
        exact absurd hfits (not_table hts (over_operand hover hmem) hinner)

/-- A statistic of a selection uses the part that the selection restricts by, the first it names. -/
theorem usesFirst_of_partitionBlock (hover : r.Over ts) (h : r.check s = .ok ())
    (hr : r.isPartitionBlock = true) : r.UsesFirst := by
  obtain ⟨hpartition, hselects⟩ := Bool.and_eq_true_iff.mp hr
  have hnot : r.isSelection = false := (hts _ (template_mem_of_over hover)).partition hpartition
  have hclass : r.classify = .partitionBlock := by rw [classify, hnot, hr]; rfl
  obtain ⟨selection, hfirst, hselection⟩ := (Option.any_eq_true _ _).mp hselects
  have hchecked := check_operand h (List.mem_of_getElem? (getElem?_of_ruleOperand? hfirst))
  obtain ⟨name, type, part, below, hbelow⟩ := operands_of_selection hchecked hselection
  obtain ⟨template, className, operands, cost, tieBreak⟩ := r
  obtain ⟨template', className', operands', cost', tieBreak'⟩ := selection
  obtain rfl : operands' = .field name type :: .part part :: below := hbelow
  obtain ⟨rest, rfl⟩ := List.head?_eq_some_iff.mp
    (List.head?_eq_getElem?.trans (getElem?_of_ruleOperand? hfirst))
  refine ⟨?_, part, ?_, rfl⟩
  · unfold eraseUsed
    dsimp only
    rw [hclass]
    simp only [eraseFirst, eraseFrom, eraseFromIn, parts, partsList, List.length_cons,
      ← Nat.add_assoc, eraseFromIn_succ, Nat.zero_add]
    rfl
  · rw [usedPart?_eq, hclass, hfirst]
    rfl

/-- A statistic of a rule that uses the first part it names uses the first part it names, unless
its table is a selection. -/
theorem usesFirst_of_valueBlock {template : Template} {className : String} {cost : Float}
    {tieBreak : Nat} {first : RuleOperand Rule} {rest : List (RuleOperand Rule)}
    (hr : r = ⟨template, className, first :: .rule inner :: rest, cost, tieBreak⟩)
    (hover : r.Over ts) (h : r.check s = .ok ()) (hnot : r.isPartitionBlock = false)
    (hvalue : r.isValueBlock = true) (hinner : inner.UsesFirst) : r.UsesFirst := by
  obtain ⟨hstatistic, -⟩ := Bool.and_eq_true_iff.mp hvalue
  have ht := hts _ (template_mem_of_over hover)
  obtain ⟨hpartition, -⟩ := ht.value hstatistic
  have hclass : r.classify = .valueBlock := by
    rw [classify, isSelection, ht.partition hpartition, hnot, hvalue]
    rfl
  have hselects : (r.ruleOperand? 0).any isSelection = false := by
    rwa [isPartitionBlock, hpartition, Bool.true_and] at hnot
  subst hr
  obtain ⟨name, type, rfl⟩ := field_of_statistic hts hover h hstatistic hselects rfl
  obtain ⟨herase, part, hused, hhead⟩ := hinner
  obtain ⟨parts', hparts⟩ := List.head?_eq_some_iff.mp hhead
  refine ⟨?_, part, ?_, ?_⟩
  · unfold eraseUsed
    dsimp only
    rw [hclass]
    simp only [eraseFirst, eraseFrom, eraseFromIn, hparts, List.length_cons, Nat.zero_add,
      eraseFromIn_succ]
    rw [herase, eraseFirst]
  · rw [usedPart?_eq, hclass]
    exact hused
  · rw [parts, partsList, partsList, hparts]
    rfl

/-- Over a catalogue whose block variants are those of tables, a checked block rule uses the first
part it names. -/
theorem usesFirst_of_check : ∀ r : Rule, r.Over ts → r.check s = .ok () → r.isBlockRule = true →
    r.UsesFirst
  | ⟨template, className, [], cost, tieBreak⟩, hover, h, hblock
  | ⟨template, className, [_], cost, tieBreak⟩, hover, h, hblock
  | ⟨template, className, _ :: .field .. :: _, cost, tieBreak⟩, hover, h, hblock
  | ⟨template, className, _ :: .part _ :: _, cost, tieBreak⟩, hover, h, hblock => by
      refine usesFirst_of_partitionBlock hts hover h ?_
      simpa [isBlockRule_eq, isValueBlock, ruleOperand?] using hblock
  | ⟨template, className, first :: .rule inner :: rest, cost, tieBreak⟩, hover, h, hblock => by
      have hmem : .rule inner ∈ first :: .rule inner :: rest :=
        List.mem_cons_of_mem _ List.mem_cons_self
      rw [isBlockRule_eq] at hblock
      cases hnot : isPartitionBlock
          ⟨template, className, first :: .rule inner :: rest, cost, tieBreak⟩ with
      | true => exact usesFirst_of_partitionBlock hts hover h hnot
      | false =>
        rw [hnot, Bool.false_or] at hblock
        obtain ⟨-, hinner⟩ := Bool.and_eq_true_iff.mp hblock
        exact usesFirst_of_valueBlock hts rfl hover h hnot hblock
          (usesFirst_of_check inner (over_operand hover hmem) (check_operand h hmem) hinner)

end Over

end Rule

end FeatureSynth
