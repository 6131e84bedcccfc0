/-
# A ledger is a map

Over the life of a ledger rules are entered, names are noted for them, and they are looked
up, in any order.  What the ledger answers then is told by the calls alone: a rule has an
entry if one that the order does not tell from it was entered, with the name noted last
for any such rule since.  So the ledger is a map on the classes of rules that the order
makes, and there are as many entries as classes were entered.

One call changes the answers for one class only.  What it makes of them is proved of each
sort of call; the rest is induction on the calls.
-/
import Mathlib.Data.List.TakeWhile
import Mathlib.Data.Set.Card
import FeatureSynth.Proofs.Ledger.Sorted
import FeatureSynth.Proofs.Space.Blocks
import FeatureSynth.Proofs.Space.Costs

namespace FeatureSynth

namespace Ledger

/-- A call of a ledger: a rule is entered, with or without a name noted for it; a name is noted for
a rule that has an entry; a rule is looked up. -/
inductive Call where
  | enter (r : Rule)
  | record (r : Rule) (name : String)
  | update (r : Rule) (name : String)
  | get (r : Rule)
  | contains (r : Rule)

namespace Call

/-- The rule that a ledger is called with. -/
def rule : Call → Rule
  | enter r | record r _ | update r _ | get r | contains r => r

/-- Whether the rule has an entry after the call. -/
def enters : Call → Bool
  | enter _ | record .. => true
  | update .. | get _ | contains _ => false

/-- The name that the call notes. -/
def noted : Call → Option String
  | record _ name | update _ name => some name
  | enter _ | get _ | contains _ => none

/-- The ledger after a call. -/
def apply (order : Rule → Rule → Ordering) (l : Ledger) : Call → Ledger
  | enter r => l.enter order r
  | record r name => l.record order r name
  | update r name => l.update order r name
  | get _ | contains _ => l

end Call

/-- The ledger after some calls, from an empty one on. -/
def after (order : Rule → Rule → Ordering) (calls : List Call) : Ledger :=
  calls.foldl (Call.apply order) .empty

/-- The calls with rules that the order does not tell from a rule, from the first that enters one
on. -/
def callsOn (order : Rule → Rule → Ordering) (calls : List Call) (r : Rule) : List Call :=
  (calls.filter fun c => order c.rule r == .eq).dropWhile fun c => !c.enters

/-- The name noted last for rules that the order does not tell from a rule, once one was entered. -/
def lastNoted (order : Rule → Rule → Ordering) (calls : List Call) (r : Rule) : Option String :=
  ((callsOn order calls r).filterMap (·.noted)).getLast?

/-- The rules, of those that `P` holds of, that an order does not tell from a rule. -/
def classOf (P : Rule → Prop) (order : Rule → Rule → Ordering) (r : Rule) : Set Rule :=
  {x | P x ∧ order r x = .eq}

/-- What a ledger is after some calls: its rules increase strictly; it has an entry for a rule exactly
if one that the order does not tell from it was entered, with the name noted last for such a one; a
call changes no answer for a rule that the order tells from its own; and there are as many entries as
classes of rules were entered. -/
structure MapOf (P : Rule → Prop) (order : Rule → Rule → Ordering) (calls : List Call) (l : Ledger) :
    Prop where
  increasing : l.entries.Pairwise fun x y => order x.1 y.1 = .lt
  found_iff : ∀ r, P r →
    ((l.get? order r).isSome = true ↔ ∃ c ∈ calls, c.enters = true ∧ order c.rule r = .eq)
  value : ∀ r v, P r → l.get? order r = some v → v = lastNoted order calls r
  contains_eq : ∀ r, l.contains order r = (l.get? order r).isSome
  others : ∀ (c : Call) r, P c.rule → P r → order c.rule r ≠ .eq →
    (c.apply order l).get? order r = l.get? order r
  size_eq : l.size = {k | ∃ c ∈ calls, c.enters = true ∧ k = classOf P order c.rule}.ncard

variable {P : Rule → Prop} {order : Rule → Rule → Ordering} {l : Ledger} {r x y : Rule}
variable {name : String} {v : Option String} {i : Nat} {c : Call} {calls : List Call}

/-! ## Answers -/

theorem contains_eq_isSome (order : Rule → Rule → Ordering) (l : Ledger) (r : Rule) :
    l.contains order r = (l.get? order r).isSome := by
  unfold contains get?
  cases hsearch : l.search order r with
  | vacant i => rfl
  | found i =>
    obtain ⟨entry, hi, -⟩ := of_search_found hsearch
    simp [Spot.found?, hi]

theorem Sorted.get?_eq_some_iff (h : l.Sorted P order) (ho : LawfulOn P order) (hr : P r) :
    l.get? order r = some v ↔ ∃ x, (x, v) ∈ l.entries ∧ order x r = .eq := by
  refine ⟨fun hget => ?_, fun ⟨x, hx, heq⟩ => h.get?_eq ho hr hx heq⟩
  unfold get? at hget
  cases hsearch : l.search order r with
  | vacant i =>
    rw [hsearch] at hget
    cases hget
  | found i =>
    obtain ⟨entry, hi, heq⟩ := of_search_found hsearch
    simp only [hsearch, Spot.found?, Option.bind_some, hi, Option.map_some,
      Option.some.injEq] at hget
    exact ⟨entry.1, hget ▸ List.mem_of_getElem? hi, heq⟩

/-- Where a search ends says what is answered for the whole class of the rule. -/
theorem Sorted.get?_of_found (h : l.Sorted P order) (ho : LawfulOn P order) (hx : P x) (hr : P r)
    (hsearch : l.search order x = .found i) (hxr : order x r = .eq) :
    ∃ v, l.get? order r = some v := by
  obtain ⟨entry, hi, hentry⟩ := of_search_found hsearch
  have hmem := List.mem_of_getElem? hi
  exact ⟨entry.2, h.get?_eq ho hr hmem (ho.eq_trans (h.within _ hmem) hx hr hentry hxr)⟩

theorem Sorted.get?_of_vacant (h : l.Sorted P order) (ho : LawfulOn P order) (hx : P x) (hr : P r)
    (hsearch : l.search order x = .vacant i) (hxr : order x r = .eq) : l.get? order r = none := by
  refine Option.eq_none_iff_forall_ne_some.mpr fun v hv => ?_
  obtain ⟨y, hy, hyr⟩ := (h.get?_eq_some_iff ho hr).mp hv
  have hyx := ho.eq_trans (h.within _ hy) hr hx hyr (ho.eq_symm hx hr hxr)
  exact h.not_vacant ho hx hy hyx hsearch

/-! ## One call -/

theorem Sorted.get?_insert (h : l.Sorted P order) (ho : LawfulOn P order) (hx : P x) (hr : P r)
    (hsearch : l.search order x = .vacant i) :
    get? order ⟨l.entries.insertIdx i (x, v)⟩ r =
      if order x r = .eq then some v else l.get? order r := by
  have hsorted : Sorted P order ⟨l.entries.insertIdx i (x, v)⟩ := h.insert ho hx hsearch
  have hmem : ∀ {entry}, entry ∈ l.entries.insertIdx i (x, v) ↔ entry = (x, v) ∨ entry ∈ l.entries :=
    List.mem_insertIdx (of_search_vacant hsearch)
  split
  · rename_i heq
    exact hsorted.get?_eq ho hr (hmem.mpr (.inl rfl)) heq
  · rename_i hne
    refine Option.ext fun w => ?_
    rw [hsorted.get?_eq_some_iff ho hr, h.get?_eq_some_iff ho hr]
    constructor
    · rintro ⟨y, hy, hyr⟩
      rcases hmem.mp hy with heq | hy
      · cases heq
        exact absurd hyr hne
      · exact ⟨y, hy, hyr⟩
    · rintro ⟨y, hy, hyr⟩
      exact ⟨y, hmem.mpr (.inr hy), hyr⟩

/-- The ledger with a name noted in an entry. -/
theorem Sorted.get?_modify (h : l.Sorted P order) (ho : LawfulOn P order) (hx : P x) (hr : P r)
    (hsearch : l.search order x = .found i) :
    get? order ⟨l.entries.modify i fun entry => (entry.1, some name)⟩ r =
      if order x r = .eq then some (some name) else l.get? order r := by
  obtain ⟨entry, hi, hentry⟩ := of_search_found hsearch
  have hP := h.within _ (List.mem_of_getElem? hi)
  have hsearches : ∀ y, search order ⟨l.entries.modify i fun entry => (entry.1, some name)⟩ y =
      l.search order y := fun y => search_congr (rules_modify l i name)
  unfold get?
  rw [hsearches]
  split
  · rename_i heq
    rw [(h.shared_iff ho hx hr hsearch).mpr heq, Spot.found?, Option.bind_some,
      List.getElem?_modify_eq, hi]
    rfl
  · rename_i hne
    cases hfound : l.search order r with
    | vacant j => rfl
    | found j =>
      have hij : i ≠ j := by
        rintro rfl
        exact hne ((h.shared_iff ho hx hr hsearch).mp hfound)
      rw [Spot.found?, Option.bind_some, Option.bind_some, List.getElem?_modify_ne _ _ hij]

/-- What the ledger answers after a call for the rules that the order does not tell from that of the
call, when it gave an answer before. -/
def Call.answer (c : Call) (before : Option (Option String)) : Option (Option String) :=
  if c.enters || before.isSome then some (c.noted.or before.join) else none

/-- A call changes the answers for the class of its rule, and no others. -/
theorem Sorted.get?_apply (h : l.Sorted P order) (ho : LawfulOn P order) (hc : P c.rule)
    (hr : P r) :
    (c.apply order l).get? order r =
      if order c.rule r = .eq then c.answer (l.get? order r) else l.get? order r := by
  cases c with
  | enter x =>
    change P x at hc
    change (l.enter order x).get? order r = if order x r = .eq then _ else _
    rw [Ledger.enter]
    cases hsearch : l.search order x with
    | vacant i =>
      rw [h.get?_insert ho hc hr hsearch]
      split
      · rename_i hxr
        rw [h.get?_of_vacant ho hc hr hsearch hxr]
        rfl
      · rfl
    | found i =>
      dsimp only
      split
      · rename_i hxr
        obtain ⟨v, hv⟩ := h.get?_of_found ho hc hr hsearch hxr
        rw [hv]
        rfl
      · rfl
  | record x name =>
    change P x at hc
    change (l.record order x name).get? order r = if order x r = .eq then _ else _
    rw [Ledger.record]
    cases hsearch : l.search order x with
    | vacant i => exact h.get?_insert ho hc hr hsearch
    | found i => exact h.get?_modify ho hc hr hsearch
  | update x name =>
    change P x at hc
    change (l.update order x name).get? order r = if order x r = .eq then _ else _
    rw [Ledger.update]
    cases hsearch : l.search order x with
    | vacant i =>
      dsimp only
      split
      · rename_i hxr
        rw [h.get?_of_vacant ho hc hr hsearch hxr]
        rfl
      · rfl
    | found i =>
      rw [h.get?_modify ho hc hr hsearch]
      split
      · rename_i hxr
        obtain ⟨v, hv⟩ := h.get?_of_found ho hc hr hsearch hxr
        rw [hv]
        rfl
      · rfl
  | get x | contains x =>
    change l.get? order r = if order x r = .eq then _ else _
    cases l.get? order r <;> simp [Call.answer, Call.enters, Call.noted]

theorem Sorted.apply (h : l.Sorted P order) (ho : LawfulOn P order) (hc : P c.rule) :
    (c.apply order l).Sorted P order := by
  cases c with
  | enter x => exact h.enter ho hc
  | record x name => exact h.record ho hc
  | update x name => exact h.update
  | get x | contains x => exact h

/-! ## Any calls -/

theorem after_append (order : Rule → Rule → Ordering) (calls : List Call) (c : Call) :
    after order (calls ++ [c]) = c.apply order (after order calls) := by
  rw [after, List.foldl_append]
  rfl

theorem sorted_after (ho : LawfulOn P order) : ∀ {calls : List Call}, (∀ c ∈ calls, P c.rule) →
    (after order calls).Sorted P order := by
  intro calls
  induction calls using List.reverseRecOn with
  | nil => exact fun _ => sorted_empty
  | append_singleton calls c ih =>
    intro hcalls
    rw [after_append]
    exact (ih fun d hd => hcalls d (List.mem_append_left _ hd)).apply ho
      (hcalls c (List.mem_append_right _ List.mem_cons_self))

theorem callsOn_append (order : Rule → Rule → Ordering) (calls : List Call) (c : Call) (r : Rule) :
    callsOn order (calls ++ [c]) r =
      if order c.rule r = .eq ∧ (callsOn order calls r ≠ [] ∨ c.enters = true)
        then callsOn order calls r ++ [c]
      else callsOn order calls r := by
  unfold callsOn
  by_cases hc : order c.rule r = .eq
  · rw [List.filter_append, List.dropWhile_append]
    cases hbefore : ((calls.filter fun c => order c.rule r == .eq).dropWhile fun c => !c.enters) with
    | nil => cases hentry : c.enters <;> simp [hc, hentry]
    | cons d ds => simp [hc]
  · simp [hc]

theorem lastNoted_append (order : Rule → Rule → Ordering) (calls : List Call) (c : Call) (r : Rule) :
    lastNoted order (calls ++ [c]) r =
      if order c.rule r = .eq ∧ (callsOn order calls r ≠ [] ∨ c.enters = true)
        then c.noted.or (lastNoted order calls r)
      else lastNoted order calls r := by
  unfold lastNoted
  rw [callsOn_append]
  split
  · cases hnoted : c.noted <;> simp [hnoted]
  · rfl

/-- The answers of a ledger, from the calls alone. -/
theorem get?_after (ho : LawfulOn P order) (hr : P r) : ∀ {calls : List Call},
    (∀ c ∈ calls, P c.rule) → (after order calls).get? order r =
      if callsOn order calls r = [] then none else some (lastNoted order calls r) := by
  intro calls
  induction calls using List.reverseRecOn with
  | nil => exact fun _ => rfl
  | append_singleton calls c ih =>
    intro hcalls
    have hbefore : ∀ d ∈ calls, P d.rule := fun d hd => hcalls d (List.mem_append_left _ hd)
    have hc : P c.rule := hcalls c (List.mem_append_right _ List.mem_cons_self)
    rw [after_append, (sorted_after ho hbefore).get?_apply ho hc hr, ih hbefore, callsOn_append,
      lastNoted_append]
    by_cases htied : order c.rule r = .eq
    · by_cases hnone : callsOn order calls r = []
      · have hlast : lastNoted order calls r = none := by rw [lastNoted, hnone]; rfl
        cases hentry : c.enters <;> simp [htied, hnone, hentry, hlast, Call.answer]
      · simp [htied, hnone, Call.answer]
    · simp [htied]

theorem callsOn_eq_nil_iff : callsOn order calls r = [] ↔
    ¬ ∃ c ∈ calls, c.enters = true ∧ order c.rule r = .eq := by
  simp only [callsOn, List.dropWhile_eq_nil_iff, List.mem_filter, beq_iff_eq, Bool.not_eq_true',
    not_exists, not_and]
  exact ⟨fun h c hc henters heq => by simp [h c ⟨hc, heq⟩] at henters,
    fun h c hc => Bool.eq_false_iff.mpr fun henters => h c hc.1 henters hc.2⟩

/-- A call leaves the rules of the entries as they are, or enters its own among them. -/
theorem rules_apply (order : Rule → Rule → Ordering) (l : Ledger) (c : Call) :
    (c.apply order l).entries.map (·.1) = l.entries.map (·.1) ∨
      c.enters = true ∧ ∀ x ∈ (c.apply order l).entries.map (·.1),
        x = c.rule ∨ x ∈ l.entries.map (·.1) := by
  cases c with
  | enter x => exact .inr ⟨rfl, fun y hy => mem_rules_enter hy⟩
  | record x name => exact .inr ⟨rfl, fun y hy => mem_rules_record hy⟩
  | update x name => exact .inl (rules_update l order x name)
  | get x | contains x => exact .inl rfl

/-- The rules of the entries were entered. -/
theorem entered_of_mem_after (order : Rule → Rule → Ordering) : ∀ {calls : List Call},
    x ∈ (after order calls).entries.map (·.1) → ∃ c ∈ calls, c.enters = true ∧ c.rule = x := by
  intro calls
  induction calls using List.reverseRecOn with
  | nil => simp [after, Ledger.empty]
  | append_singleton calls c ih =>
    intro hx
    have hearlier : x ∈ (after order calls).entries.map (·.1) →
        ∃ d ∈ calls ++ [c], d.enters = true ∧ d.rule = x := fun h => by
      obtain ⟨d, hd, hdx⟩ := ih h
      exact ⟨d, List.mem_append_left _ hd, hdx⟩
    rw [after_append] at hx
    rcases rules_apply order (after order calls) c with hsame | ⟨henters, hrules⟩
    · exact hearlier (hsame ▸ hx)
    · rcases hrules x hx with rfl | hx
      · exact ⟨c, List.mem_append_right _ List.mem_cons_self, henters, rfl⟩
      · exact hearlier hx

/-! ## Classes -/

theorem classOf_eq (ho : LawfulOn P order) (hx : P x) (hy : P y) (heq : order x y = .eq) :
    classOf P order x = classOf P order y := by
  ext z
  exact and_congr_right fun hz =>
    ⟨ho.eq_trans hy hx hz (ho.eq_symm hx hy heq), ho.eq_trans hx hy hz heq⟩

/-- Rules of one class are not told apart. -/
theorem eq_of_classOf (ho : LawfulOn P order) (hy : P y)
    (h : classOf P order x = classOf P order y) : order x y = .eq := by
  have hmem : y ∈ classOf P order y := ⟨hy, ho.refl hy⟩
  rw [← h] at hmem
  exact hmem.2

/-- The classes of the entries are those entered. -/
theorem classes_after (ho : LawfulOn P order) (hcalls : ∀ c ∈ calls, P c.rule) :
    {k | ∃ c ∈ calls, c.enters = true ∧ k = classOf P order c.rule} =
      {k | k ∈ (after order calls).entries.map fun entry => classOf P order entry.1} := by
  have hsorted := sorted_after ho hcalls
  ext k
  constructor
  · rintro ⟨c, hc, henters, rfl⟩
    have hfound : (after order calls).get? order c.rule =
        some (lastNoted order calls c.rule) := by
      rw [get?_after ho (hcalls c hc) hcalls, if_neg]
      exact fun hnil => callsOn_eq_nil_iff.mp hnil ⟨c, hc, henters, ho.refl (hcalls c hc)⟩
    obtain ⟨x, hx, heq⟩ := (hsorted.get?_eq_some_iff ho (hcalls c hc)).mp hfound
    exact List.mem_map.mpr ⟨_, hx, classOf_eq ho (hsorted.within _ hx) (hcalls c hc) heq⟩
  · intro hk
    obtain ⟨entry, hentry, rfl⟩ := List.mem_map.mp hk
    obtain ⟨c, hc, henters, hrule⟩ := entered_of_mem_after order (List.mem_map_of_mem hentry)
    exact ⟨c, hc, henters, by rw [hrule]⟩

theorem nodup_classes (ho : LawfulOn P order) (h : l.Sorted P order) :
    (l.entries.map fun entry => classOf P order entry.1).Nodup := by
  refine List.pairwise_map.mpr (h.increasing.imp_of_mem fun {a b} _ hb hlt heq => ?_)
  rw [eq_of_classOf ho (h.within b hb) heq] at hlt
  cases hlt

theorem size_after (ho : LawfulOn P order) (hcalls : ∀ c ∈ calls, P c.rule) :
    (after order calls).size =
      {k | ∃ c ∈ calls, c.enters = true ∧ k = classOf P order c.rule}.ncard := by
  classical
  rw [classes_after ho hcalls, ← List.coe_toFinset, Set.ncard_coe_finset,
    List.toFinset_card_of_nodup (nodup_classes ho (sorted_after ho hcalls)), List.length_map]
  rfl

/-- Under a lawful order a ledger is a map on the classes of rules that the order makes. -/
theorem mapOf_after (ho : LawfulOn P order) (hcalls : ∀ c ∈ calls, P c.rule) :
    MapOf P order calls (after order calls) where
  increasing := (sorted_after ho hcalls).increasing
  found_iff := by
    intro r hr
    rw [get?_after ho hr hcalls, ← not_iff_not, ← callsOn_eq_nil_iff]
    split <;> simp [*]
  value := by
    intro r v hr hv
    rw [get?_after ho hr hcalls] at hv
    split at hv
    · cases hv
    · exact (Option.some.inj hv).symm
  contains_eq := contains_eq_isSome order _
  others := by
    intro c r hc hr hne
    rw [(sorted_after ho hcalls).get?_apply ho hc hr, if_neg hne]
  size_eq := size_after ho hcalls

end Ledger

namespace Space

variable {s : Space} {order : Rule → Rule → Ordering} {calls : List Ledger.Call}

/-- Over a well-founded space whose partitions keep parts that fit, either ledger of a build, called
with rules whose parts are in their partitions, is a map on the rules that its order does not tell
apart. -/
theorem ledger_is_map (hs : s.WellFounded) (hfit : s.PartsFit)
    (horder : order = s.compareCostName ∨ order = s.compareBlock)
    (hcalls : ∀ c ∈ calls, c.rule.PartsIn s.Present) :
    Ledger.MapOf (Rule.PartsIn s.Present) order calls (Ledger.after order calls) := by
  have ho : LawfulOn (Rule.PartsIn s.Present) order := by
    rcases horder with rfl | rfl
    · exact lawfulOn_compareCostNameBy roundedCost hs hfit.comparable
    · refine (lawfulOn_compareBlock hs).mono fun r hr part hpart => ?_
      obtain ⟨p, hp, -⟩ := hfit.comparable.shaped part (hr part hpart)
      exact ⟨p, hp⟩
  exact Ledger.mapOf_after ho hcalls

end Space

/-! ## Small and large orders -/

namespace Shops

theorem present_bothSizes : ∀ k < 2, (count k).PartsIn bothSizes.Present := by
  intro k hk part hpart
  obtain rfl : part = ⟨0, [k]⟩ := List.mem_singleton.mp hpart
  have hkept : ∀ k < 2, (bothSizes.part? ⟨0, [k]⟩).isSome = true := by decide
  exact .mk (hkept k hk) fun _ hr => absurd hr List.not_mem_nil

/-- The number of small orders is entered, then a block is noted for that of large ones. -/
def calls : List Ledger.Call := [.enter (count 0), .record (count 1) "numbers", .contains (count 0)]

end Shops

open Shops in
/-- The numbers of small and of large orders are one class in the order of blocks, so the block noted
for one is found for the other. -/
theorem shops_ledger_is_map :
    bothSizes.WellFounded ∧ bothSizes.PartsFit ∧
      (∀ c ∈ calls, c.rule.PartsIn bothSizes.Present) ∧
      Ledger.MapOf (Rule.PartsIn bothSizes.Present) bothSizes.compareBlock calls
        (Ledger.after bothSizes.compareBlock calls) := by
  have hcalls : ∀ c ∈ calls, c.rule.PartsIn bothSizes.Present := by
    simp only [calls, List.mem_cons, List.not_mem_nil, or_false, forall_eq_or_imp, forall_eq]
    exact ⟨present_bothSizes 0 (by decide), present_bothSizes 1 (by decide),
      present_bothSizes 0 (by decide)⟩
  exact ⟨built_bothSizes.wellFounded, built_bothSizes.partsFit, hcalls,
    Space.ledger_is_map built_bothSizes.wellFounded built_bothSizes.partsFit (.inr rfl) hcalls⟩

end FeatureSynth
