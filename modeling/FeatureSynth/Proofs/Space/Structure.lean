/-
# The structural order

A space grows by registration: dimensions and partitions are added, and parts to the
partitions.  A rule becomes a dimension after the partitions it selects on, so the
spaces *built* in this way are well-founded, and no bound cuts the way down from a
rule through its parts to the rules of dimensions: the structural orders of rules,
partitions and dimensions satisfy the equations by which they call each other.

On the partitions of such a space the structural order is a total order.  On the
rules that select on them it is one up to signatures: it finds two rules equal
exactly if they have the same signature.
-/
import FeatureSynth.Proofs.Space.Lawful
import FeatureSynth.Template.Default

namespace FeatureSynth

namespace Space

variable {s s' : Space}

/-! ## Registration -/

/-- The spaces that registration makes out of the empty one.  The rule of a dimension selects on
partitions that are registered by then. -/
inductive Built : Space → Prop
  | empty : Built .empty
  | fieldDimension {s s' : Space} {C field : String} {type : FieldType} {rank : Nat} :
      Built s → s.addFieldDimension C field type = .ok (rank, s') → Built s'
  | ruleDimension {s s' : Space} {rule : Rule} {rank : Nat} :
      Built s → (rule.PartsIn fun part => s.Registered part.partition) →
      s.addRuleDimension rule = .ok (rank, s') → Built s'
  | partition {s s' : Space} {parent table : String} {type : FieldType} {axes : List Axis}
      {rank : Nat} :
      Built s → s.addPartition parent table type axes = .ok (rank, s') → Built s'
  | part {s s' : Space} {rank : Nat} {indexes : List Nat} {cost : Float} {part : Part} :
      Built s → s.addPart rank indexes cost = .ok (part, s') → Built s'

section Registration

variable {rank : Nat}

theorem addFieldDimension_eq_ok {C field : String} {type : FieldType}
    (h : s.addFieldDimension C field type = .ok (rank, s')) :
    s.intern (isField C field) C (.field field type) = (rank, s') := by
  unfold addFieldDimension at h
  cases hcheck : checkDimension field type with
  | error e =>
    rw [hcheck] at h
    cases h
  | ok u =>
    rw [hcheck] at h
    exact Except.ok.inj h

theorem addRuleDimension_eq_ok {rule : Rule} (h : s.addRuleDimension rule = .ok (rank, s')) :
    s.intern (isRule rule) rule.className (.rule rule) = (rank, s') := by
  unfold addRuleDimension at h
  cases htype : rule.resultType with
  | error e =>
    rw [htype] at h
    cases h
  | ok type =>
    rw [htype] at h
    cases hcheck : checkDimension rule.name type with
    | error e =>
      simp only [hcheck, bind, Except.bind] at h
      cases h
    | ok u =>
      simp only [hcheck, bind, Except.bind] at h
      exact Except.ok.inj h

theorem partitions_intern {same : Dimension → Bool} {C : String} {o : DimensionOrigin}
    (h : s.intern same C o = (rank, s')) : s'.partitions = s.partitions := by
  unfold intern at h
  split at h
  · cases h
    rfl
  · cases h
    rfl

/-- A new partition has no parts. -/
theorem partitions_addPartition {parent table : String} {type : FieldType} {axes : List Axis}
    (h : s.addPartition parent table type axes = .ok (rank, s')) :
    s'.partitions = s.partitions ∨ ∃ p, p.parts = [] ∧ s'.partitions = s.partitions ++ [p] := by
  unfold addPartition at h
  split at h
  · split at h
    · cases h
    · split at h
      · cases h
      · split at h
        · cases h
          exact .inl rfl
        · cases h
          exact .inr ⟨_, rfl, rfl⟩
  · cases h

theorem dimensions_addPartition {parent table : String} {type : FieldType} {axes : List Axis}
    (h : s.addPartition parent table type axes = .ok (rank, s')) :
    s'.dimensions = s.dimensions := by
  unfold addPartition at h
  split at h
  · (repeat' split at h) <;> cases h <;> rfl
  · cases h

theorem addPart_eq_ok {indexes : List Nat} {cost : Float} {part : Part}
    (h : s.addPart rank indexes cost = .ok (part, s')) :
    ∃ p, s.partitions[rank]? = some p ∧ fits p.axes indexes = true ∧
      s' = s.modifyPartition rank fun p =>
        { p with parts := Partition.insertPart indexes cost p.parts } := by
  unfold addPart at h
  split at h
  · cases h
  · rename_i p hp
    split at h
    · rename_i hfits
      cases h
      exact ⟨p, hp, hfits, rfl⟩
    · cases h

end Registration

theorem lt_of_registered {rank : Nat} (h : s.Registered rank) : rank < s.partitions.length := by
  obtain ⟨p, hp⟩ := h
  exact (List.getElem?_eq_some_iff.mp hp).1

theorem Built.wellFounded (h : s.Built) : s.WellFounded := by
  induction h with
  | empty => exact wellFounded_empty
  | fieldDimension _ hadd ih => exact ih.addFieldDimension hadd
  | ruleDimension _ hparts hadd ih =>
      exact ih.addRuleDimension (fun part hpart => lt_of_registered (hparts part hpart)) hadd
  | partition _ hadd ih => exact ih.addPartition hadd
  | part _ hadd ih => exact ih.addPart hadd

/-- Every dimension that is a rule is of the class of its rule. -/
def ClassesOfRules (s : Space) : Prop :=
  ∀ d ∈ s.dimensions, ∀ r, d.origin = .rule r → d.className = r.className

theorem ClassesOfRules.intern (hs : s.ClassesOfRules) {same : Dimension → Bool} {C : String}
    {o : DimensionOrigin} {rank : Nat} (h : s.intern same C o = (rank, s'))
    (hclass : ∀ r, o = .rule r → C = r.className) : s'.ClassesOfRules := by
  unfold Space.intern at h
  split at h
  · cases h
    exact hs
  · cases h
    intro d hd r hr
    rcases List.mem_append.mp hd with hd | hd
    · exact hs d hd r hr
    · obtain rfl := List.mem_singleton.mp hd
      exact hclass r hr

theorem Built.classesOfRules (h : s.Built) : s.ClassesOfRules := by
  induction h with
  | empty => exact fun d hd => absurd hd List.not_mem_nil
  | fieldDimension _ hadd ih =>
      exact ih.intern (addFieldDimension_eq_ok hadd) fun _ ho => nomatch ho
  | ruleDimension _ _ hadd ih =>
      exact ih.intern (addRuleDimension_eq_ok hadd) fun r ho => by rw [DimensionOrigin.rule.inj ho]
  | partition _ hadd ih => exact fun d hd => ih d (dimensions_addPartition hadd ▸ hd)
  | part _ hadd ih =>
      obtain ⟨-, -, -, rfl⟩ := addPart_eq_ok hadd
      exact ih

theorem ClassesOfRules.of_frame (h : s.ClassesOfRules) (hframe : s'.frame = s.frame) :
    s'.ClassesOfRules := by
  intro d' hd' r hr
  obtain ⟨k, hk⟩ := List.mem_iff_getElem?.mp hd'
  obtain ⟨d, hd, hclass, horigin⟩ := dimension_of_frame hframe.symm hk
  exact hclass.symm.trans (h d (List.mem_of_getElem? hd) r (horigin.trans hr))

/-! ## The way down -/

/-- An order of partitions looks only at how the dimensions of the one compare with the dimensions of
the other. -/
theorem comparePartitionsWith_of_below {dims dims' : Dimension → Dimension → Ordering} {bound : Nat}
    (hdims : ∀ i j d e, i < bound → j < bound → s.dimensions[i]? = some d →
      s.dimensions[j]? = some e → dims d e = dims' d e)
    {a b : Nat} (ha : s.Below bound a) (hb : s.Below bound b) :
    s.comparePartitionsWith dims a b = s.comparePartitionsWith dims' a b := by
  have haxis : ∀ p q, s.partitions[a]? = some p → s.partitions[b]? = some q → ∀ x ∈ p.axes,
      ∀ y ∈ q.axes, s.compareAxisWith dims x y = s.compareAxisWith dims' x y := by
    intro p q hp hq x hx y hy
    unfold compareAxisWith
    congr 1
    split
    · rename_i d e hd he
      exact hdims _ _ d e (ha p hp x hx) (hb q hq y hy) hd he
    · rfl
  unfold comparePartitionsWith
  split
  · rfl
  · split
    · rename_i p q hp hq
      rw [compareZip_congr p.axes q.axes (haxis p q hp hq)]
    · rfl

/-- A dimension compares as it does within any bound above its rank. -/
theorem compareDimensions_of_lt (hs : s.WellFounded) : ∀ (fuel fuel' i j : Nat) (d e : Dimension),
    i < fuel → j < fuel → i < fuel' → j < fuel' → s.dimensions[i]? = some d →
      s.dimensions[j]? = some e → s.compareDimensions fuel d e = s.compareDimensions fuel' d e
  | 0, _, i, _, _, _, hi, _, _, _, _, _ => absurd hi (Nat.not_lt_zero i)
  | _, 0, i, _, _, _, _, _, hi, _, _, _ => absurd hi (Nat.not_lt_zero i)
  | fuel + 1, fuel' + 1, i, j, d, e, hi, hj, hi', hj', hd, he => by
      unfold compareDimensions
      cases hdo : d.origin with
      | field x _ => cases e.origin <;> rfl
      | rule x =>
        cases heo : e.origin with
        | field y _ => rfl
        | rule y =>
          refine Rule.compareWith_congr fun p hp q hq => ?_
          -- both parts are cut below the greater of the two ranks
          have hbelow : s.Below (max i j) p.partition :=
            fun r hr a ha => Nat.lt_of_lt_of_le
              (hs.below_of_earlier (Nat.lt_succ_self i) hd hdo hp r hr a ha) (Nat.le_max_left i j)
          have hbelow' : s.Below (max i j) q.partition :=
            fun r hr a ha => Nat.lt_of_lt_of_le
              (hs.below_of_earlier (Nat.lt_succ_self j) he heo hq r hr a ha) (Nat.le_max_right i j)
          refine congrArg (Ordering.then · _) (comparePartitionsWith_of_below ?_ hbelow hbelow')
          intro k l d e hk hl hd he
          exact compareDimensions_of_lt hs fuel fuel' k l d e (by omega) (by omega) (by omega)
            (by omega) hd he

/-- Partitions compare by their dimensions, and dimensions that are rules compare as rules do: the
bound for the way down is never met. -/
theorem comparePartitions_eq (hs : s.WellFounded) (a b : Nat) :
    s.comparePartitions a b = s.comparePartitionsWith
      (fun d e => DimensionOrigin.compareBy compare s.compareRules d.origin e.origin) a b := by
  refine comparePartitionsWith_of_below ?_ (hs.below_length a) (hs.below_length b)
  intro i j d e hi hj hd he
  rw [compareDimensions_of_lt hs s.depth (s.depth + 1) i j d e (Nat.lt_succ_of_lt hi)
    (Nat.lt_succ_of_lt hj) (Nat.lt_succ_of_lt (Nat.lt_succ_of_lt hi))
    (Nat.lt_succ_of_lt (Nat.lt_succ_of_lt hj)) hd he]
  unfold compareDimensions DimensionOrigin.compareBy
  cases d.origin <;> cases e.origin <;> rfl

/-! ## The order -/

/-- The structural order of partitions is a total order on the registered ranks, and finds two equal
only if they are the same.  That of rules, among those whose partitions are registered, reverses with
its arguments and is transitive, hence is reflexive and total, and finds two rules equal exactly if
they have the same signature. -/
theorem Built.structural_order (h : s.Built) :
    (∀ a b, s.Registered a → s.Registered b → (s.comparePartitions a b = .eq ↔ a = b)) ∧
    Std.TransCmp (fun a b : {rank // s.Registered rank} => s.comparePartitions a b) ∧
    Std.TransCmp (fun a b : {r : Rule // r.PartsIn fun part => s.Registered part.partition} =>
      s.compareRules a b) ∧
    ∀ a b : Rule, a.PartsIn (fun part => s.Registered part.partition) →
      b.PartsIn (fun part => s.Registered part.partition) →
      (s.compareRules a b = .eq ↔ a.signature = b.signature) := by
  have hs := h.wellFounded
  have hpartitions : LawfulOn s.Registered s.comparePartitions :=
    lawfulOn_comparePartitionsWith hs (lawfulOn_compareDimensions hs s.depth)
  exact ⟨fun a b _ _ => comparePartitions_eq_iff hs, hpartitions.transCmp,
    (lawfulOn_compareRules hs).transCmp, fun a b _ _ => compareRules_eq_iff hs⟩

end Space

/-! ## Shops, their customers and the orders of these -/

namespace Shops

def orders : FieldType := .objectArray "Orders"

def customers : FieldType := .objectArray "Customers"

/-- The number of orders of a customer in one part of the orders. -/
def count (index : Nat) : Rule :=
  ⟨.tableCount, "Customers",
    [.rule ⟨.tableSelection, "Customers", [.field "Orders" orders, .part ⟨0, [index]⟩], 0, 0⟩],
    1, 0⟩

/-- The orders, cut by amount. -/
def byAmount (parts : List (List Nat × PartEntry)) : Partition :=
  ⟨"Orders", "Customers", "Orders", [⟨0, 2⟩], parts, 0, none, none, [.none]⟩

/-- The customers, cut by the number of small orders. -/
def byCount : Partition := ⟨"Customers", "Shops", "Customers", [⟨1, 2⟩], [], 0, none, none, [.none]⟩

def amount : Dimension := ⟨"Orders", .field "amount" .continuous, 0, none, none⟩

def smallCount : Dimension := ⟨"Customers", .rule (count 0), 0, none, none⟩

/-- Orders by amount, and customers by the number of their small orders. -/
def space : Space := ⟨[amount, smallCount], [byAmount [([0], ⟨0, 2⟩)], byCount]⟩

theorem built_space : space.Built := by
  have h₀ : Space.empty.addFieldDimension "Orders" "amount" .continuous = .ok (0, ⟨[amount], []⟩) :=
    rfl
  have h₁ : Space.addPartition ⟨[amount], []⟩ "Customers" "Orders" orders [⟨0, 2⟩] =
      .ok (0, ⟨[amount], [byAmount []]⟩) := rfl
  have h₂ : Space.addPart ⟨[amount], [byAmount []]⟩ 0 [0] 2 =
      .ok (⟨0, [0]⟩, ⟨[amount], [byAmount [([0], ⟨0, 2⟩)]]⟩) := rfl
  have h₃ : Space.addRuleDimension ⟨[amount], [byAmount [([0], ⟨0, 2⟩)]]⟩ (count 0) =
      .ok (1, ⟨[amount, smallCount], [byAmount [([0], ⟨0, 2⟩)]]⟩) := rfl
  have h₄ : Space.addPartition ⟨[amount, smallCount], [byAmount [([0], ⟨0, 2⟩)]]⟩ "Shops"
      "Customers" customers [⟨1, 2⟩] = .ok (1, space) := rfl
  refine .partition (.ruleDimension (.part (.partition (.fieldDimension .empty h₀) h₁) h₂) ?_ h₃) h₄
  intro part hpart
  obtain rfl : part = ⟨0, [0]⟩ := List.mem_singleton.mp hpart
  exact ⟨_, rfl⟩

theorem registered_count (index : Nat) :
    (count index).PartsIn fun part => space.Registered part.partition := by
  intro part hpart
  obtain rfl : part = ⟨0, [index]⟩ := List.mem_singleton.mp hpart
  exact ⟨_, rfl⟩

end Shops

open Shops in
/-- The orders by amount and the customers by number of orders are told apart, and so are the numbers
of small orders and of large ones, in an order that reverses with its arguments. -/
theorem shops_structural_order :
    space.Built ∧ space.comparePartitions 0 1 ≠ .eq ∧ space.compareRules (count 0) (count 1) ≠ .eq ∧
      space.compareRules (count 1) (count 0) = (space.compareRules (count 0) (count 1)).swap := by
  obtain ⟨hpartitions, -, htrans, hrules⟩ := Space.Built.structural_order built_space
  refine ⟨built_space, ?_, ?_, ?_⟩
  · exact fun h => absurd ((hpartitions 0 1 ⟨_, rfl⟩ ⟨_, rfl⟩).mp h) (by decide)
  · intro h
    have hsig := (hrules _ _ (registered_count 0) (registered_count 1)).mp h
    simp [count, Rule.signature, Rule.signatureList] at hsig
  · exact htrans.eq_swap (a := ⟨count 1, registered_count 1⟩) (b := ⟨count 0, registered_count 0⟩)

end FeatureSynth
