/-
# The orders of rules are lawful

A ledger is searched by halving, which finds what is there only if the order
reverses with its arguments and chains: what is not greater and not greater again
is not greater.  Both orders of rules do, wherever the order of parts they are
built from does.

They are proved so at once.  Each compares a head, then the number of operands,
then the operands one by one, and they differ in the head and in how fields
compare; `compareBy` is this common form.  Lexicographic orders chain link by
link, so transitivity is stated of three answers, and only where the first
comparisons are equal the next ones matter.
-/
import FeatureSynth.Proofs.Rule.Alike

namespace FeatureSynth

/-! ## Lawful orders -/

/-- The answers for a first and a second element, for the second and a third, and for the first and
the third, as they are in an order: the last is that of the first step that does not go nowhere. -/
def Chains (ab bc ac : Ordering) : Prop := ab ≠ .gt → bc ≠ .gt → ac = ab.then bc

/-- Where the first answers decide nothing, the next ones have to chain. -/
theorem Chains.then {ab bc ac ab' bc' ac' : Ordering} (h : Chains ab bc ac)
    (h' : ab = .eq → bc = .eq → Chains ab' bc' ac') :
    Chains (ab.then ab') (bc.then bc') (ac.then ac') := by
  intro hab hbc
  cases ab with
  | gt => exact absurd rfl hab
  | lt =>
    cases bc with
    | gt => exact absurd rfl hbc
    | lt => rw [h (by simp) (by simp)]; rfl
    | eq => rw [h (by simp) (by simp)]; rfl
  | eq =>
    cases bc with
    | gt => exact absurd rfl hbc
    | lt =>
      rw [h (by simp) (by simp)]
      cases ab' with
      | gt => exact absurd rfl hab
      | lt => rfl
      | eq => rfl
    | eq =>
      rw [h (by simp) (by simp)]
      exact h' rfl rfl hab hbc

theorem chains_compare {α : Type} [Ord α] [Std.TransOrd α] (x y z : α) :
    Chains (compare x y) (compare y z) (compare x z) := by
  intro hxy hyz
  cases h : compare x y with
  | gt => exact absurd h hxy
  | lt =>
    cases h' : compare y z with
    | gt => exact absurd h' hyz
    | lt => exact Std.TransCmp.lt_trans h h'
    | eq => exact Std.TransCmp.lt_of_lt_of_eq h h'
  | eq =>
    cases h' : compare y z with
    | gt => exact absurd h' hyz
    | lt => exact Std.TransCmp.lt_of_eq_of_lt h h'
    | eq => exact Std.TransCmp.eq_trans h h'

/-- Among the elements that `P` holds of, an order reverses with its arguments and chains. -/
structure LawfulOn {α : Type} (P : α → Prop) (order : α → α → Ordering) : Prop where
  swap : ∀ a b, P a → P b → order b a = (order a b).swap
  chains : ∀ a b c, P a → P b → P c → Chains (order a b) (order b c) (order a c)

namespace LawfulOn

variable {α β : Type} {P : α → Prop} {order order' : α → α → Ordering} {a b c : α}

theorem of_compare [Ord β] [Std.TransOrd β] (f : α → β) :
    LawfulOn P fun a b => compare (f a) (f b) where
  swap := fun _ _ _ _ => Std.OrientedCmp.eq_swap
  chains := fun a b c _ _ _ => chains_compare (f a) (f b) (f c)

/-- One order after another: the second has to be lawful among what the first finds equal. -/
theorem andThen (h : LawfulOn P order)
    (hswap : ∀ a b, P a → P b → order' b a = (order' a b).swap)
    (hchains : ∀ a b c, P a → P b → P c → order a b = .eq → order b c = .eq →
      Chains (order' a b) (order' b c) (order' a c)) :
    LawfulOn P fun a b => (order a b).then (order' a b) where
  swap := by
    intro a b ha hb
    rw [Ordering.swap_then, h.swap a b ha hb, hswap a b ha hb]
  chains := fun a b c ha hb hc =>
    (h.chains a b c ha hb hc).then (hchains a b c ha hb hc)

theorem both (h : LawfulOn P order) (h' : LawfulOn P order') :
    LawfulOn P fun a b => (order a b).then (order' a b) :=
  h.andThen h'.swap fun a b c ha hb hc _ _ => h'.chains a b c ha hb hc

theorem mono {Q : α → Prop} (h : LawfulOn P order) (hQ : ∀ a, Q a → P a) : LawfulOn Q order where
  swap := fun a b ha hb => h.swap a b (hQ a ha) (hQ b hb)
  chains := fun a b c ha hb hc => h.chains a b c (hQ a ha) (hQ b hb) (hQ c hc)

theorem comp {Q : β → Prop} (h : LawfulOn P order) (f : β → α) (hf : ∀ x, Q x → P (f x)) :
    LawfulOn Q fun x y => order (f x) (f y) where
  swap := fun x y hx hy => h.swap (f x) (f y) (hf x hx) (hf y hy)
  chains := fun x y z hx hy hz => h.chains (f x) (f y) (f z) (hf x hx) (hf y hy) (hf z hz)

theorem refl (h : LawfulOn P order) (ha : P a) : order a a = .eq := by
  have hswap := h.swap a a ha ha
  cases horder : order a a with
  | eq => rfl
  | lt => rw [horder] at hswap; cases hswap
  | gt => rw [horder] at hswap; cases hswap

theorem eq_symm (h : LawfulOn P order) (ha : P a) (hb : P b) (hab : order a b = .eq) :
    order b a = .eq := by
  rw [h.swap a b ha hb, hab]
  rfl

theorem lt_of_lt_of_le (h : LawfulOn P order) (ha : P a) (hb : P b) (hc : P c)
    (hab : order a b = .lt) (hbc : order b c ≠ .gt) : order a c = .lt := by
  rw [h.chains a b c ha hb hc (by rw [hab]; simp) hbc, hab]
  rfl

theorem lt_of_eq_of_lt (h : LawfulOn P order) (ha : P a) (hb : P b) (hc : P c)
    (hab : order a b = .eq) (hbc : order b c = .lt) : order a c = .lt := by
  rw [h.chains a b c ha hb hc (by rw [hab]; simp) (by rw [hbc]; simp), hab, hbc]
  rfl

theorem eq_trans (h : LawfulOn P order) (ha : P a) (hb : P b) (hc : P c)
    (hab : order a b = .eq) (hbc : order b c = .eq) : order a c = .eq := by
  rw [h.chains a b c ha hb hc (by rw [hab]; simp) (by rw [hbc]; simp), hab, hbc]
  rfl

/-- Where an order is lawful it reverses with its arguments and is transitive, hence it is reflexive
and total. -/
theorem transCmp (h : LawfulOn P order) : Std.TransCmp fun a b : {x // P x} => order a b where
  eq_swap := fun {a b} => h.swap b a b.2 a.2
  isLE_trans := by
    intro a b c hab hbc
    rw [Ordering.isLE_iff_ne_gt] at hab hbc ⊢
    rw [h.chains a b c a.2 b.2 c.2 hab hbc]
    cases hab' : order a b with
    | lt => simp
    | eq => exact hbc
    | gt => exact absurd hab' hab

end LawfulOn

/-! ## The common form -/

namespace Rule

/-- What an order of rules is built from: how rules compare before their operands do, how the names
of fields compare, and how parts do. -/
structure Comparison where
  head : Rule → Rule → Ordering
  fields : String → String → Ordering
  parts : Part → Part → Ordering

mutual

/-- Order of rules by head, number of operands and operands. -/
def compareBy (k : Comparison) : Rule → Rule → Ordering
  | ⟨t, c, xs, a, i⟩, ⟨u, d, ys, b, j⟩ =>
    (k.head ⟨t, c, xs, a, i⟩ ⟨u, d, ys, b, j⟩).then
      ((compare xs.length ys.length).then (compareOperandsBy k xs ys))

/-- Order of operand lists, operand by operand up to the shorter one. -/
def compareOperandsBy (k : Comparison) :
    List (RuleOperand Rule) → List (RuleOperand Rule) → Ordering
  | x :: xs, y :: ys =>
    (x.origin.compare y.origin).then ((compareOperandBy k x y).then (compareOperandsBy k xs ys))
  | _, _ => .eq

/-- Order of operands by what they are, once their origins do not tell them apart. -/
def compareOperandBy (k : Comparison) : RuleOperand Rule → RuleOperand Rule → Ordering
  | .field x _, .field y _ => k.fields x y
  | .rule x, .rule y => compareBy k x y
  | .part x, .part y => k.parts x y
  | _, _ => .eq

end

/-- The structural order compares classes and template names first. -/
def structural (parts : Part → Part → Ordering) : Comparison :=
  { head := fun a b => (compare a.className b.className).then (compare a.name b.name)
    fields := compare, parts }

/-- The order of costs compares rounded costs first, and does not tell fields apart. -/
def byCost (round : Float → Int) (parts : Part → Part → Ordering) : Comparison :=
  { head := fun a b => compare (round a.cost) (round b.cost)
    fields := fun _ _ => .eq, parts }

section Form

variable (round : Float → Int) (parts : Part → Part → Ordering)

mutual

theorem compareWith_eq : ∀ a b : Rule, compareWith parts a b = compareBy (structural parts) a b
  | ⟨t, c, xs, _, _⟩, ⟨u, d, ys, _, _⟩ => by
      rw [compareWith, compareBy, compareOperandsWith_eq xs ys]
      exact (Ordering.then_assoc _ _ _).symm

theorem compareOperandsWith_eq : ∀ xs ys : List (RuleOperand Rule),
    compareOperandsWith parts xs ys = compareOperandsBy (structural parts) xs ys
  | [], [] | [], _ :: _ | _ :: _, [] => by simp only [compareOperandsWith, compareOperandsBy]
  | .field x _ :: xs, .field y _ :: ys => by
      rw [compareOperandsWith, compareOperandsBy, compareOperandsWith_eq xs ys]
      rfl
  | .rule x :: xs, .rule y :: ys => by
      rw [compareOperandsWith, compareOperandsBy, compareOperandsWith_eq xs ys, compareWith_eq x y]
      rfl
  | .part x :: xs, .part y :: ys => by
      rw [compareOperandsWith, compareOperandsBy, compareOperandsWith_eq xs ys]
      rfl
  | .field _ _ :: xs, .rule _ :: ys | .field _ _ :: xs, .part _ :: ys
  | .rule _ :: xs, .field _ _ :: ys | .rule _ :: xs, .part _ :: ys
  | .part _ :: xs, .field _ _ :: ys | .part _ :: xs, .rule _ :: ys => by
      simp only [compareOperandsWith, compareOperandsBy, compareOperandBy,
        compareOperandsWith_eq xs ys, Ordering.eq_then]

end

mutual

theorem compareCostWith_eq : ∀ a b : Rule,
    compareCostWith round parts a b = compareBy (byCost round parts) a b
  | ⟨t, c, xs, _, _⟩, ⟨u, d, ys, _, _⟩ => by
      rw [compareCostWith, compareBy, compareOperandCostsWith_eq xs ys]
      rfl

theorem compareOperandCostsWith_eq : ∀ xs ys : List (RuleOperand Rule),
    compareOperandCostsWith round parts xs ys = compareOperandsBy (byCost round parts) xs ys
  | [], [] | [], _ :: _ | _ :: _, [] => by simp only [compareOperandCostsWith, compareOperandsBy]
  | .rule x :: xs, .rule y :: ys => by
      rw [compareOperandCostsWith, compareOperandsBy, compareOperandCostsWith_eq xs ys,
        compareCostWith_eq x y]
      rfl
  | .part x :: xs, .part y :: ys => by
      rw [compareOperandCostsWith, compareOperandsBy, compareOperandCostsWith_eq xs ys]
      rfl
  | .field _ _ :: xs, .field _ _ :: ys | .field _ _ :: xs, .rule _ :: ys
  | .field _ _ :: xs, .part _ :: ys | .rule _ :: xs, .field _ _ :: ys
  | .rule _ :: xs, .part _ :: ys | .part _ :: xs, .field _ _ :: ys
  | .part _ :: xs, .rule _ :: ys => by
      simp only [compareOperandCostsWith, compareOperandsBy, compareOperandBy, byCost,
        compareOperandCostsWith_eq xs ys, Ordering.eq_then]

end

end Form

/-! ## Parts that rules name -/

/-- The parts a rule names all have a property. -/
def PartsIn (P : Part → Prop) (r : Rule) : Prop := ∀ p ∈ r.parts, P p

theorem partsList_head {p : Part} {x : RuleOperand Rule} {xs : List (RuleOperand Rule)}
    (h : p ∈ partsList [x]) : p ∈ partsList (x :: xs) := by
  cases x with
  | field name type => cases h
  | rule inner =>
    simp only [partsList, List.append_nil] at h ⊢
    exact List.mem_append_left _ h
  | part part =>
    rw [List.mem_singleton.mp h]
    exact List.mem_cons_self

theorem partsList_tail {p : Part} {x : RuleOperand Rule} {xs : List (RuleOperand Rule)}
    (h : p ∈ partsList xs) : p ∈ partsList (x :: xs) := by
  cases x with
  | field name type => exact h
  | rule inner => exact List.mem_append_right _ h
  | part part => exact List.mem_cons_of_mem _ h

theorem mem_partsList {part : Part} {inner : Rule} : ∀ {xs : List (RuleOperand Rule)},
    .rule inner ∈ xs → part ∈ inner.parts → part ∈ partsList xs
  | x :: xs, h, hpart => by
      rcases List.mem_cons.mp h with rfl | h
      · exact List.mem_append_left _ hpart
      · exact partsList_tail (mem_partsList h hpart)

theorem mem_partsList_of_part {part : Part} : ∀ {xs : List (RuleOperand Rule)},
    .part part ∈ xs → part ∈ partsList xs
  | x :: xs, h => by
      rcases List.mem_cons.mp h with rfl | h
      · exact List.mem_cons_self
      · exact partsList_tail (mem_partsList_of_part h)

namespace PartsIn

variable {P : Part → Prop} {r : Rule}

theorem operand (h : r.PartsIn P) {inner : Rule} (hinner : .rule inner ∈ r.operands) :
    inner.PartsIn P := by
  obtain ⟨template, className, operands, cost, tieBreak⟩ := r
  exact fun part hpart => h part (mem_partsList hinner hpart)

theorem part (h : r.PartsIn P) {part : Part} (hpart : .part part ∈ r.operands) : P part := by
  obtain ⟨template, className, operands, cost, tieBreak⟩ := r
  exact h part (mem_partsList_of_part hpart)

end PartsIn

section Congr

variable {parts parts' : Part → Part → Ordering}

mutual

/-- An order of rules looks only at how the parts of the one compare with the parts of the other. -/
theorem compareBy_congr (k : Comparison) : ∀ a b : Rule,
    (∀ p ∈ a.parts, ∀ q ∈ b.parts, parts p q = parts' p q) →
      compareBy { k with parts } a b = compareBy { k with parts := parts' } a b
  | ⟨t, c, xs, x, i⟩, ⟨u, d, ys, y, j⟩, h => by
      rw [compareBy, compareBy, compareOperandsBy_congr k xs ys h]

theorem compareOperandsBy_congr (k : Comparison) : ∀ xs ys : List (RuleOperand Rule),
    (∀ p ∈ partsList xs, ∀ q ∈ partsList ys, parts p q = parts' p q) →
      compareOperandsBy { k with parts } xs ys = compareOperandsBy { k with parts := parts' } xs ys
  | [], [], _ | [], _ :: _, _ | _ :: _, [], _ => by simp only [compareOperandsBy]
  | x :: xs, y :: ys, h => by
      rw [compareOperandsBy, compareOperandsBy,
        compareOperandBy_congr k x y fun p hp q hq => h p (partsList_head hp) q (partsList_head hq),
        compareOperandsBy_congr k xs ys fun p hp q hq =>
          h p (partsList_tail hp) q (partsList_tail hq)]

theorem compareOperandBy_congr (k : Comparison) : ∀ x y : RuleOperand Rule,
    (∀ p ∈ partsList [x], ∀ q ∈ partsList [y], parts p q = parts' p q) →
      compareOperandBy { k with parts } x y = compareOperandBy { k with parts := parts' } x y
  | .field _ _, .field _ _, _ => rfl
  | .rule x, .rule y, h => compareBy_congr k x y fun p hp q hq =>
      h p (List.mem_append_left _ hp) q (List.mem_append_left _ hq)
  | .part x, .part y, h => h x List.mem_cons_self y List.mem_cons_self
  | .field _ _, .rule _, _ | .field _ _, .part _, _ | .rule _, .field _ _, _
  | .rule _, .part _, _ | .part _, .field _ _, _ | .part _, .rule _, _ => rfl

end

variable {a b : Rule}

theorem compareWith_congr (h : ∀ p ∈ a.parts, ∀ q ∈ b.parts, parts p q = parts' p q) :
    compareWith parts a b = compareWith parts' a b := by
  rw [compareWith_eq, compareWith_eq]
  exact compareBy_congr (structural parts) a b h

theorem compareCostWith_congr (round : Float → Int)
    (h : ∀ p ∈ a.parts, ∀ q ∈ b.parts, parts p q = parts' p q) :
    compareCostWith round parts a b = compareCostWith round parts' a b := by
  rw [compareCostWith_eq, compareCostWith_eq]
  exact compareBy_congr (byCost round parts) a b h

end Congr

/-! ## Lawfulness -/

/-- A comparison whose parts compare lawfully where they have a property. -/
structure Comparison.Lawful (k : Comparison) (P : Part → Prop) : Prop where
  head : LawfulOn (fun _ => True) k.head
  fields : LawfulOn (fun _ => True) k.fields
  parts : LawfulOn P k.parts

section Lawful

variable {k : Comparison} {P : Part → Prop}

mutual

theorem swap_compareBy (h : k.Lawful P) : ∀ a b : Rule, a.PartsIn P → b.PartsIn P →
    compareBy k b a = (compareBy k a b).swap
  | ⟨t, c, xs, x, i⟩, ⟨u, d, ys, y, j⟩, ha, hb => by
      have hlen : compare ys.length xs.length = (compare xs.length ys.length).swap :=
        Std.OrientedCmp.eq_swap
      rw [compareBy, compareBy, Ordering.swap_then, Ordering.swap_then,
        swap_compareOperandsBy h xs ys ha hb, h.head.swap _ _ trivial trivial, hlen]

theorem swap_compareOperandsBy (h : k.Lawful P) : ∀ xs ys : List (RuleOperand Rule),
    (∀ p ∈ partsList xs, P p) → (∀ p ∈ partsList ys, P p) →
      compareOperandsBy k ys xs = (compareOperandsBy k xs ys).swap
  | [], [], _, _ | [], _ :: _, _, _ | _ :: _, [], _, _ => by
      simp only [compareOperandsBy, Ordering.swap_eq]
  | x :: xs, y :: ys, hx, hy => by
      have horigin : y.origin.compare x.origin = (x.origin.compare y.origin).swap :=
        (LawfulOn.of_compare (P := fun _ => True) OperandOrigin.rank).swap _ _ trivial trivial
      rw [compareOperandsBy, compareOperandsBy, Ordering.swap_then, Ordering.swap_then, horigin,
        swap_compareOperandBy h x y (fun p hp => hx p (partsList_head hp))
          fun p hp => hy p (partsList_head hp),
        swap_compareOperandsBy h xs ys (fun p hp => hx p (partsList_tail hp))
          fun p hp => hy p (partsList_tail hp)]

theorem swap_compareOperandBy (h : k.Lawful P) : ∀ x y : RuleOperand Rule,
    (∀ p ∈ partsList [x], P p) → (∀ p ∈ partsList [y], P p) →
      compareOperandBy k y x = (compareOperandBy k x y).swap
  | .field x _, .field y _, _, _ => h.fields.swap x y trivial trivial
  | .rule x, .rule y, hx, hy =>
      swap_compareBy h x y (fun p hp => hx p (List.mem_append_left _ hp))
        fun p hp => hy p (List.mem_append_left _ hp)
  | .part x, .part y, hx, hy => h.parts.swap x y (hx x List.mem_cons_self) (hy y List.mem_cons_self)
  | .field _ _, .rule _, _, _ | .field _ _, .part _, _, _ | .rule _, .field _ _, _, _
  | .rule _, .part _, _, _ | .part _, .field _ _, _, _ | .part _, .rule _, _, _ => rfl

end

mutual

theorem chains_compareBy (h : k.Lawful P) : ∀ a b c : Rule, a.PartsIn P → b.PartsIn P →
    c.PartsIn P → Chains (compareBy k a b) (compareBy k b c) (compareBy k a c)
  | ⟨t, _, xs, _, _⟩, ⟨u, _, ys, _, _⟩, ⟨v, _, zs, _, _⟩, ha, hb, hc => by
      rw [compareBy, compareBy, compareBy]
      refine (h.head.chains _ _ _ trivial trivial trivial).then fun _ _ => ?_
      refine (chains_compare xs.length ys.length zs.length).then fun hxy hyz => ?_
      exact chains_compareOperandsBy h xs ys zs (Std.compare_eq_iff_eq.mp hxy)
        (Std.compare_eq_iff_eq.mp hyz) ha hb hc

theorem chains_compareOperandsBy (h : k.Lawful P) : ∀ xs ys zs : List (RuleOperand Rule),
    xs.length = ys.length → ys.length = zs.length → (∀ p ∈ partsList xs, P p) →
    (∀ p ∈ partsList ys, P p) → (∀ p ∈ partsList zs, P p) →
      Chains (compareOperandsBy k xs ys) (compareOperandsBy k ys zs) (compareOperandsBy k xs zs)
  | [], [], [], _, _, _, _, _ => fun _ _ => rfl
  | x :: xs, y :: ys, z :: zs, hxy, hyz, hx, hy, hz => by
      rw [compareOperandsBy, compareOperandsBy, compareOperandsBy]
      refine (chains_compare x.origin.rank y.origin.rank z.origin.rank).then fun hxy' hyz' => ?_
      refine (chains_compareOperandBy h x y z hxy' hyz' (fun p hp => hx p (partsList_head hp))
        (fun p hp => hy p (partsList_head hp)) fun p hp => hz p (partsList_head hp)).then
          fun _ _ => ?_
      exact chains_compareOperandsBy h xs ys zs (Nat.succ.inj hxy) (Nat.succ.inj hyz)
        (fun p hp => hx p (partsList_tail hp)) (fun p hp => hy p (partsList_tail hp))
        fun p hp => hz p (partsList_tail hp)

theorem chains_compareOperandBy (h : k.Lawful P) : ∀ x y z : RuleOperand Rule,
    compare x.origin.rank y.origin.rank = .eq → compare y.origin.rank z.origin.rank = .eq →
    (∀ p ∈ partsList [x], P p) → (∀ p ∈ partsList [y], P p) → (∀ p ∈ partsList [z], P p) →
      Chains (compareOperandBy k x y) (compareOperandBy k y z) (compareOperandBy k x z)
  | .field x _, .field y _, .field z _, _, _, _, _, _ =>
      h.fields.chains x y z trivial trivial trivial
  | .rule x, .rule y, .rule z, _, _, hx, hy, hz =>
      chains_compareBy h x y z (fun p hp => hx p (List.mem_append_left _ hp))
        (fun p hp => hy p (List.mem_append_left _ hp)) fun p hp => hz p (List.mem_append_left _ hp)
  | .part x, .part y, .part z, _, _, hx, hy, hz =>
      h.parts.chains x y z (hx x List.mem_cons_self) (hy y List.mem_cons_self)
        (hz z List.mem_cons_self)

end

theorem Comparison.Lawful.lawfulOn (h : k.Lawful P) : LawfulOn (PartsIn P) (compareBy k) :=
  ⟨swap_compareBy h, chains_compareBy h⟩

end Lawful

section Orders

variable {parts : Part → Part → Ordering} {P : Part → Prop}

theorem lawfulOn_const : LawfulOn (fun _ : String => True) fun _ _ => .eq where
  swap := fun _ _ _ _ => rfl
  chains := fun _ _ _ _ _ _ _ _ => rfl

/-- The structural order of rules is lawful where that of their parts is. -/
theorem lawfulOn_compareWith (h : LawfulOn P parts) : LawfulOn (PartsIn P) (compareWith parts) := by
  have hk : (structural parts).Lawful P :=
    { head := (LawfulOn.of_compare Rule.className).both (.of_compare Rule.name)
      fields := .of_compare id
      parts := h }
  have heq : compareWith parts = compareBy (structural parts) :=
    funext fun a => funext fun b => compareWith_eq parts a b
  exact heq ▸ hk.lawfulOn

/-- The order of rules by cost is lawful where that of their parts is. -/
theorem lawfulOn_compareCostWith (round : Float → Int) (h : LawfulOn P parts) :
    LawfulOn (PartsIn P) (compareCostWith round parts) := by
  have hk : (byCost round parts).Lawful P :=
    { head := LawfulOn.of_compare fun r : Rule => round r.cost
      fields := lawfulOn_const
      parts := h }
  have heq : compareCostWith round parts = compareBy (byCost round parts) :=
    funext fun a => funext fun b => compareCostWith_eq round parts a b
  exact heq ▸ hk.lawfulOn

end Orders

end Rule

end FeatureSynth
