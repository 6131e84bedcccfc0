/-
# Rules for members of one block

Rules whose fields are members of one block differ in the indexes of the parts that they use,
and in nothing else that a signature keeps.  They are *mates*.  Statistics of selections are
mates if they select from one partition and have the same other operands; statistics of
members, if they have the same table and the members are those of mates.

The order of blocks erases the indexes of the first part of a rule.  For a checked block rule
that is the part it uses, so the rules that the order does not tell from it are its mates.
-/
import FeatureSynth.Proofs.Rule.FirstPart

namespace FeatureSynth

namespace Rule

/-- Block rules that differ in the indexes of the parts they use at most. -/
inductive Mates : Rule → Rule → Prop
  | partition {x r : Rule} {p q : Part} (template : x.template = r.template)
      (className : x.className = r.className) (sort : x.classify = .partitionBlock)
      (sort' : r.classify = .partitionBlock) (used : x.usedPart? = some p)
      (used' : r.usedPart? = some q) (cut : p.partition = q.partition)
      (operands : signatureList (x.operands.drop 1) = signatureList (r.operands.drop 1)) : Mates x r
  | value {x r y inner : Rule} {name : String} {type type' : FieldType}
      (template : x.template = r.template) (className : x.className = r.className)
      (sort : x.classify = .valueBlock) (sort' : r.classify = .valueBlock)
      (first : x.operands[0]? = some (.field name type))
      (first' : r.operands[0]? = some (.field name type')) (second : x.ruleOperand? 1 = some y)
      (second' : r.ruleOperand? 1 = some inner) (below : Mates y inner) : Mates x r

namespace Mates

variable {x r : Rule}

theorem className_eq (h : Mates x r) : x.className = r.className := by
  cases h <;> assumption

theorem classify_eq (h : Mates x r) : x.classify = r.classify := by
  cases h with
  | partition _ _ sort sort' => exact sort.trans sort'.symm
  | value _ _ sort sort' => exact sort.trans sort'.symm

theorem isBlockRule (h : Mates x r) : x.isBlockRule = true := by
  cases h with
  | partition _ _ sort => exact isBlockRule_of_classify (.inl sort)
  | value _ _ sort => exact isBlockRule_of_classify (.inr sort)

end Mates

/-! ## Rules of one signature, but for the indexes of a part -/

section Erased

variable {seen : Nat} {xs : List (RuleOperand Rule)} {σs : List (SignatureOperand Signature)}

theorem of_erased_field {name : String}
    (h : signatureList (eraseFromIn seen xs) = .field name :: σs) :
    ∃ type rest, xs = .field name type :: rest ∧ signatureList (eraseFromIn seen rest) = σs := by
  match xs with
  | [] => simp [eraseFromIn, signatureList] at h
  | .field x type :: rest =>
    simp only [eraseFromIn, signatureList, List.cons.injEq, SignatureOperand.field.injEq] at h
    exact ⟨type, rest, by rw [h.1], h.2⟩
  | .rule _ :: _ => simp [eraseFromIn, signatureList] at h
  | .part _ :: _ => simp [eraseFromIn, signatureList] at h

theorem of_erased_rule {σ : Signature} (h : signatureList (eraseFromIn seen xs) = .rule σ :: σs) :
    ∃ y rest, xs = .rule y :: rest ∧ (y.eraseFrom seen).signature = σ ∧
      signatureList (eraseFromIn (seen + y.parts.length) rest) = σs := by
  match xs with
  | [] => simp [eraseFromIn, signatureList] at h
  | .field .. :: _ => simp [eraseFromIn, signatureList] at h
  | .rule y :: rest =>
    simp only [eraseFromIn, signatureList, List.cons.injEq, SignatureOperand.rule.injEq] at h
    exact ⟨y, rest, rfl, h⟩
  | .part _ :: _ => simp [eraseFromIn, signatureList] at h

theorem of_erased_part {p : Part} (h : signatureList (eraseFromIn 0 xs) = .part p :: σs) :
    ∃ q rest, xs = .part q :: rest ∧ q.withoutIndexes = p := by
  match xs with
  | [] => simp [eraseFromIn, signatureList] at h
  | .field .. :: _ => simp [eraseFromIn, signatureList] at h
  | .rule _ :: _ => simp [eraseFromIn, signatureList] at h
  | .part q :: rest =>
    simp only [eraseFromIn, signatureList, List.cons.injEq, SignatureOperand.part.injEq] at h
    exact ⟨q, rest, rfl, h.1⟩

theorem template_eq_of_over {ts : Catalogue} {a b : Rule} (ha : a.Over ts) (hb : b.Over ts)
    (h : a.template.name = b.template.name) : a.template = b.template := by
  obtain ⟨t, _, _, _, _⟩ := a
  obtain ⟨u, _, _, _, _⟩ := b
  have ht := ha.1
  rw [show t.name = u.name from h, hb.1] at ht
  exact (Option.some.inj ht).symm

end Erased

/-! ## Mates -/

section Over

variable {s : Space} {ts : Catalogue} (hts : ∀ t ∈ ts, t.BlocksOfTables)
include hts

theorem mates_of_partitionBlock {r x : Rule} (hover : r.Over ts) (h : r.check s = .ok ())
    (hr : r.isPartitionBlock = true) (hx : x.Over ts)
    (hsignature : x.eraseFirst.signature = r.eraseFirst.signature) : Mates x r := by
  obtain ⟨hpartition, hselects⟩ := Bool.and_eq_true_iff.mp hr
  have hnot : r.isSelection = false := (hts _ (template_mem_of_over hover)).partition hpartition
  have hclass : r.classify = .partitionBlock := by rw [classify, hnot, hr]; rfl
  obtain ⟨selection, hfirst, hselection⟩ := (Option.any_eq_true _ _).mp hselects
  have hmem := List.mem_of_getElem? (getElem?_of_ruleOperand? hfirst)
  have hover' := over_operand hover hmem
  obtain ⟨name, type, part, below, hbelow⟩ :=
    operands_of_selection (check_operand h hmem) hselection
  obtain ⟨template, className, operands, cost, tieBreak⟩ := r
  obtain ⟨template', className', operands', cost', tieBreak'⟩ := selection
  obtain rfl : operands' = .field name type :: .part part :: below := hbelow
  obtain ⟨rest, rfl⟩ := List.head?_eq_some_iff.mp
    (List.head?_eq_getElem?.trans (getElem?_of_ruleOperand? hfirst))
  obtain ⟨u, C, ys, cost₂, tieBreak₂⟩ := x
  -- the selection of the other rule restricts the same field by a part of the same partition
  simp only [eraseFirst, eraseFrom, eraseFromIn, signature, signatureList, Signature.mk.injEq,
    parts, partsList, List.length_cons, ← Nat.add_assoc, eraseFromIn_succ, Nat.zero_add] at hsignature
  obtain ⟨rfl, hname, hys⟩ := hsignature
  obtain ⟨y, rest', rfl, hy, hrest⟩ := of_erased_rule hys
  have hyover := over_operand hx List.mem_cons_self
  obtain ⟨u', C', zs, cost₃, tieBreak₃⟩ := y
  simp only [eraseFrom, signature, Signature.mk.injEq] at hy
  obtain ⟨rfl, hname', hzs⟩ := hy
  obtain ⟨type', zs', rfl, hafter⟩ := of_erased_field hzs
  obtain ⟨q, below', rfl, hq⟩ := of_erased_part hafter
  simp only [parts, partsList, List.length_cons, ← Nat.add_assoc, eraseFromIn_succ,
    Nat.zero_add] at hrest
  obtain rfl : u = template := template_eq_of_over hx hover hname
  obtain rfl : u' = template' := template_eq_of_over hyover hover' hname'
  have hxclass : classify ⟨u, C, .rule ⟨u', C', .field name type' :: .part q :: below', cost₃,
      tieBreak₃⟩ :: rest', cost₂, tieBreak₂⟩ = .partitionBlock := by
    have hblock : isPartitionBlock ⟨u, C, .rule ⟨u', C', .field name type' :: .part q :: below',
        cost₃, tieBreak₃⟩ :: rest', cost₂, tieBreak₂⟩ = true := by
      rw [isPartitionBlock, Bool.and_eq_true]
      exact ⟨hpartition, hselection⟩
    have hplain : isSelection ⟨u, C, .rule ⟨u', C', .field name type' :: .part q :: below', cost₃,
        tieBreak₃⟩ :: rest', cost₂, tieBreak₂⟩ = false := hnot
    rw [classify, hplain, hblock]
    rfl
  have hcut : q.partition = part.partition := by
    simpa [Part.withoutIndexes] using congrArg Part.partition hq
  refine .partition rfl rfl hxclass hclass ?_ ?_ hcut hrest
  · rw [usedPart?_eq, hxclass]
    rfl
  · rw [usedPart?_eq, hclass]
    rfl

/-- Over a catalogue whose block variants are those of tables, the rules that have one signature
with a checked block rule, once the indexes of first parts are erased, are its mates. -/
theorem mates_of_eraseFirst : ∀ r x : Rule, r.Over ts → r.check s = .ok () → r.isBlockRule = true →
    x.Over ts → x.eraseFirst.signature = r.eraseFirst.signature → Mates x r
  | ⟨template, className, [], cost, tieBreak⟩, x, hover, h, hblock, hx, hsignature
  | ⟨template, className, [_], cost, tieBreak⟩, x, hover, h, hblock, hx, hsignature
  | ⟨template, className, _ :: .field .. :: _, cost, tieBreak⟩, x, hover, h, hblock, hx, hsignature
  | ⟨template, className, _ :: .part _ :: _, cost, tieBreak⟩, x, hover, h, hblock, hx, hsignature => by
      refine mates_of_partitionBlock hts hover h ?_ hx hsignature
      simpa [isBlockRule_eq, isValueBlock, ruleOperand?] using hblock
  | ⟨template, className, first :: .rule inner :: rest, cost, tieBreak⟩, ⟨u, C, ys, cost₂, tieBreak₂⟩,
      hover, h, hblock, hx, hsignature => by
      have hmem : .rule inner ∈ first :: .rule inner :: rest :=
        List.mem_cons_of_mem _ List.mem_cons_self
      rw [isBlockRule_eq] at hblock
      cases hnot : isPartitionBlock
          ⟨template, className, first :: .rule inner :: rest, cost, tieBreak⟩ with
      | true => exact mates_of_partitionBlock hts hover h hnot hx hsignature
      | false =>
        rw [hnot, Bool.false_or] at hblock
        obtain ⟨hstatistic, hinner⟩ := Bool.and_eq_true_iff.mp hblock
        have ht := hts _ (template_mem_of_over hover)
        obtain ⟨hpartition, -⟩ := ht.value hstatistic
        have hselects : ((Rule.mk template className (first :: .rule inner :: rest) cost
            tieBreak).ruleOperand? 0).any isSelection = false := by
          rwa [isPartitionBlock, hpartition, Bool.true_and] at hnot
        obtain ⟨name, type, rfl⟩ := field_of_statistic hts hover h hstatistic hselects rfl
        simp only [eraseFirst, eraseFrom, eraseFromIn, signature, signatureList,
          Signature.mk.injEq] at hsignature
        obtain ⟨rfl, hname, hys⟩ := hsignature
        obtain ⟨type', ys, rfl, hafter⟩ := of_erased_field hys
        obtain ⟨y, rest', rfl, hy, -⟩ := of_erased_rule hafter
        obtain rfl : u = template := template_eq_of_over hx hover hname
        have hbelow := mates_of_eraseFirst inner y (over_operand hover hmem) (check_operand h hmem)
          hinner (over_operand hx (List.mem_cons_of_mem _ List.mem_cons_self)) hy
        have hclass : ∀ (z : Rule) (t : FieldType) (zs : List (RuleOperand Rule)) (c : Float)
            (i : Nat), z.isBlockRule = true →
              classify ⟨u, C, .field name t :: .rule z :: zs, c, i⟩ = .valueBlock := by
          intro z t zs c i hz
          have hplain : isPartitionBlock ⟨u, C, .field name t :: .rule z :: zs, c, i⟩ = false := by
            simp [isPartitionBlock, ruleOperand?]
          have hvalue : isValueBlock ⟨u, C, .field name t :: .rule z :: zs, c, i⟩ = true := by
            rw [isValueBlock, Bool.and_eq_true]
            exact ⟨hstatistic, hz⟩
          rw [classify, isSelection, ht.partition hpartition, hplain, hvalue]
          rfl
        exact .value rfl rfl (hclass y type' rest' cost₂ tieBreak₂ hbelow.isBlockRule)
          (hclass inner type rest cost tieBreak hinner) rfl rfl rfl rfl hbelow

end Over

/-! ## The part that mates use -/

/-- Mates use parts of one partition. -/
theorem Mates.usedPart? {x r : Rule} (h : Mates x r) : ∃ p q, x.usedPart? = some p ∧
    r.usedPart? = some q ∧ p.partition = q.partition := by
  induction h with
  | @partition x r p q _ _ _ _ used used' cut => exact ⟨p, q, used, used', cut⟩
  | value _ _ sort sort' _ _ second second' _ ih =>
    obtain ⟨p, q, hp, hq, hcut⟩ := ih
    refine ⟨p, q, ?_, ?_, hcut⟩
    · rw [usedPart?_eq, sort, second]
      exact hp
    · rw [usedPart?_eq, sort', second']
      exact hq

end Rule

end FeatureSynth
