/-
# Ledgers under lawful orders

Under a lawful order a ledger is a map.  Its entries are kept strictly increasing,
so a rule has at most one, and the search for a rule ends at it or, if there is
none, at the place where every entry before is smaller and every entry from there
on is greater.  A rule that is entered there leaves the ledger increasing.

So the ledger answers a rule with the name noted for it or for one that the order
does not tell from it, and a note for a rule without a name takes no name away.
-/
import FeatureSynth.Proofs.Ledger
import FeatureSynth.Proofs.Rule.Lawful

namespace FeatureSynth

/-- A list stays in order when an element goes between what may stand before and what may stand
behind it. -/
theorem pairwise_insertIdx {α : Type} {R : α → α → Prop} {x : α} : ∀ {l : List α} {i : Nat},
    l.Pairwise R → (∀ j y, j < i → l[j]? = some y → R y x) →
      (∀ j y, i ≤ j → l[j]? = some y → R x y) → (l.insertIdx i x).Pairwise R
  | [], 0, _, _, _ => by simp
  | [], i + 1, h, _, _ => by simp
  | y :: l, 0, h, _, hbehind => by
      rw [List.insertIdx_zero]
      refine List.pairwise_cons.mpr ⟨fun z hz => ?_, h⟩
      obtain ⟨j, hj⟩ := List.mem_iff_getElem?.mp hz
      exact hbehind j z (Nat.zero_le j) hj
  | y :: l, i + 1, h, hbefore, hbehind => by
      obtain ⟨hy, hl⟩ := List.pairwise_cons.mp h
      rw [List.insertIdx_succ_cons]
      refine List.pairwise_cons.mpr ⟨fun z hz => ?_, ?_⟩
      · by_cases hi : i ≤ l.length
        · rcases (List.mem_insertIdx hi).mp hz with rfl | hz
          · exact hbefore 0 y (Nat.succ_pos i) rfl
          · exact hy z hz
        · rw [List.insertIdx_of_length_lt (by omega)] at hz
          exact hy z hz
      · exact pairwise_insertIdx hl (fun j z hj hz => hbefore (j + 1) z (by omega) hz)
          fun j z hj hz => hbehind (j + 1) z (by omega) hz

namespace Ledger

variable {P : Rule → Prop} {order : Rule → Rule → Ordering} {l : Ledger} {r x : Rule}
variable {name n : String} {v : Option String} {i : Nat}

/-- The entries are strictly increasing, and their rules are among those the order is lawful on. -/
structure Sorted (P : Rule → Prop) (order : Rule → Rule → Ordering) (l : Ledger) : Prop where
  increasing : l.entries.Pairwise fun x y => order x.1 y.1 = .lt
  within : ∀ entry ∈ l.entries, P entry.1

theorem sorted_empty : Ledger.empty.Sorted P order := ⟨.nil, by simp [Ledger.empty]⟩

namespace Sorted

/-- Rules that the order does not tell apart have one place. -/
theorem place_unique (h : l.Sorted P order) (ho : LawfulOn P order) {a b : Rule × Option String}
    {j : Nat} (hi : l.entries[i]? = some a) (hj : l.entries[j]? = some b)
    (hab : order a.1 b.1 = .eq) : i = j := by
  obtain ⟨hil, rfl⟩ := List.getElem?_eq_some_iff.mp hi
  obtain ⟨hjl, rfl⟩ := List.getElem?_eq_some_iff.mp hj
  have hlt := List.pairwise_iff_getElem.mp h.increasing
  rcases Nat.lt_trichotomy i j with hij | rfl | hij
  · rw [hlt i j hil hjl hij] at hab
    cases hab
  · rfl
  · have hba := ho.eq_symm (h.within _ (List.getElem_mem hil)) (h.within _ (List.getElem_mem hjl)) hab
    rw [hlt j i hjl hil hij] at hba
    cases hba

/-- Entries of rules that the order does not tell apart are one entry. -/
theorem unique (h : l.Sorted P order) (ho : LawfulOn P order) {a b : Rule × Option String}
    (ha : a ∈ l.entries) (hb : b ∈ l.entries) (hab : order a.1 b.1 = .eq) : a = b := by
  obtain ⟨i, hi⟩ := List.mem_iff_getElem?.mp ha
  obtain ⟨j, hj⟩ := List.mem_iff_getElem?.mp hb
  obtain rfl := h.place_unique ho hi hj hab
  exact Option.some.inj (hi.symm.trans hj)

theorem falls (h : l.Sorted P order) (ho : LawfulOn P order) (hr : P r) :
    Bisect.Falls (fun i => (l.entries[i]?.map fun entry => order entry.1 r).getD .gt)
      l.entries.length := by
  have hlt := List.pairwise_iff_getElem.mp h.increasing
  refine ⟨fun i j hij hj hjr => ?_, fun i j hij hj hir => ?_⟩
  · have hi : i < l.entries.length := by omega
    simp only [List.getElem?_eq_getElem hi, List.getElem?_eq_getElem hj, Option.map_some,
      Option.getD_some] at hjr ⊢
    exact ho.lt_of_lt_of_le (h.within _ (List.getElem_mem hi)) (h.within _ (List.getElem_mem hj)) hr
      (hlt i j hi hj hij) (by rw [hjr]; simp)
  · have hi : i < l.entries.length := by omega
    have hPi := h.within _ (List.getElem_mem hi)
    have hPj := h.within _ (List.getElem_mem hj)
    simp only [List.getElem?_eq_getElem hi, List.getElem?_eq_getElem hj, Option.map_some,
      Option.getD_some] at hir ⊢
    have hri : order r l.entries[i].1 = .lt := by
      rw [ho.swap _ _ hPi hr, hir]
      rfl
    have hrj := ho.lt_of_lt_of_le hr hPi hPj hri (by rw [hlt i j hi hj hij]; simp)
    rw [ho.swap _ _ hr hPj, hrj]
    rfl

/-- A rule that is not found belongs between the smaller and the greater rules. -/
theorem between (h : l.Sorted P order) (ho : LawfulOn P order) (hr : P r)
    (hsearch : l.search order r = .vacant i) :
    (∀ j entry, j < i → l.entries[j]? = some entry → order entry.1 r = .lt) ∧
      ∀ j entry, i ≤ j → l.entries[j]? = some entry → order entry.1 r = .gt := by
  obtain ⟨hbelow, habove⟩ := between_of_bisect_vacant (h.falls ho hr) hsearch
  refine ⟨fun j entry hj hentry => ?_, fun j entry hj hentry => ?_⟩
  · simpa [hentry] using hbelow j hj
  · simpa [hentry] using habove j hj (List.getElem?_eq_some_iff.mp hentry).1

/-- A rule that has an entry is found. -/
theorem not_vacant (h : l.Sorted P order) (ho : LawfulOn P order) (hr : P r)
    (hx : (x, v) ∈ l.entries) (heq : order x r = .eq) : l.search order r ≠ .vacant i := by
  intro hsearch
  obtain ⟨j, hj⟩ := List.mem_iff_getElem?.mp hx
  obtain ⟨hbelow, habove⟩ := h.between ho hr hsearch
  rcases Nat.lt_or_ge j i with hji | hji
  · have := hbelow j _ hji hj
    rw [heq] at this
    cases this
  · have := habove j _ hji hj
    rw [heq] at this
    cases this

/-- Rules share an entry exactly if the order does not tell them apart. -/
theorem shared_iff (h : l.Sorted P order) (ho : LawfulOn P order) (hr : P r) (hx : P x)
    (hsearch : l.search order r = .found i) : l.search order x = .found i ↔ order r x = .eq := by
  obtain ⟨entry, hi, hentry⟩ := of_search_found hsearch
  have hP := h.within _ (List.mem_of_getElem? hi)
  constructor
  · intro hfound
    obtain ⟨entry', hi', hentry'⟩ := of_search_found hfound
    obtain rfl : entry = entry' := Option.some.inj (hi.symm.trans hi')
    exact ho.eq_trans hr hP hx (ho.eq_symm hP hr hentry) hentry'
  · intro hrx
    have hentry' := ho.eq_trans hP hr hx hentry hrx
    cases hfound : l.search order x with
    | vacant j => exact absurd hfound (h.not_vacant ho hx (List.mem_of_getElem? hi) hentry')
    | found j =>
      obtain ⟨entry', hj, hxj⟩ := of_search_found hfound
      have hP' := h.within _ (List.mem_of_getElem? hj)
      rw [h.place_unique ho hj hi (ho.eq_trans hP' hx hP hxj (ho.eq_symm hP hx hentry'))]

/-- The ledger answers with the name of the entry that the order does not tell from the rule. -/
theorem get?_eq (h : l.Sorted P order) (ho : LawfulOn P order) (hr : P r)
    (hx : (x, v) ∈ l.entries) (heq : order x r = .eq) : l.get? order r = some v := by
  unfold get?
  cases hsearch : l.search order r with
  | vacant i => exact absurd hsearch (h.not_vacant ho hr hx heq)
  | found i =>
    obtain ⟨entry, hi, hentry⟩ := of_search_found hsearch
    have hmem := List.mem_of_getElem? hi
    have hPx := h.within _ hx
    have hPe := h.within _ hmem
    have hxe : order x entry.1 = .eq := ho.eq_trans hPx hr hPe heq (ho.eq_symm hPe hr hentry)
    obtain rfl : (x, v) = entry := h.unique ho hx hmem hxe
    rw [Spot.found?, Option.bind_some, hi]
    rfl

theorem name?_eq (h : l.Sorted P order) (ho : LawfulOn P order) (hr : P r)
    (hx : (x, some n) ∈ l.entries) (heq : order x r = .eq) : l.name? order r = some n := by
  rw [name?, h.get?_eq ho hr hx heq]
  rfl

/-! ## What keeps a ledger sorted -/

theorem insert (h : l.Sorted P order) (ho : LawfulOn P order) (hr : P r)
    (hsearch : l.search order r = .vacant i) :
    Sorted P order ⟨l.entries.insertIdx i (r, v)⟩ where
  increasing := by
    obtain ⟨hbelow, habove⟩ := h.between ho hr hsearch
    refine pairwise_insertIdx h.increasing hbelow fun j entry hj hentry => ?_
    have hP := h.within _ (List.mem_of_getElem? hentry)
    show order r entry.1 = .lt
    rw [ho.swap entry.1 r hP hr, habove j entry hj hentry]
    rfl
  within := by
    intro entry hentry
    rcases (List.mem_insertIdx (of_search_vacant hsearch)).mp hentry with rfl | hentry
    · exact hr
    · exact h.within entry hentry

/-- The order looks at the rules of the entries only. -/
theorem of_map {l' : Ledger} (h : l.Sorted P order)
    (hrules : l'.entries.map (·.1) = l.entries.map (·.1)) : l'.Sorted P order where
  increasing := by
    have hmap : (l.entries.map (·.1)).Pairwise fun x y => order x y = .lt :=
      List.pairwise_map.mpr h.increasing
    rw [← hrules] at hmap
    exact List.pairwise_map.mp hmap
  within := by
    intro entry hentry
    have hmem : entry.1 ∈ l.entries.map (·.1) := hrules ▸ List.mem_map_of_mem hentry
    obtain ⟨entry', hentry', heq⟩ := List.mem_map.mp hmem
    exact heq ▸ h.within entry' hentry'

theorem enter (h : l.Sorted P order) (ho : LawfulOn P order) (hr : P r) :
    (l.enter order r).Sorted P order := by
  unfold Ledger.enter
  cases hsearch : l.search order r with
  | found i => exact h
  | vacant i => exact h.insert ho hr hsearch

theorem foldl_enter (ho : LawfulOn P order) : ∀ (rules : List Rule) (l : Ledger),
    l.Sorted P order → (∀ r ∈ rules, P r) → (rules.foldl (·.enter order ·) l).Sorted P order
  | [], _, h, _ => h
  | r :: rules, l, h, hrules =>
      foldl_enter ho rules (l.enter order r) (h.enter ho (hrules r List.mem_cons_self))
        fun x hx => hrules x (List.mem_cons_of_mem _ hx)

theorem update (h : l.Sorted P order) : (l.update order r name).Sorted P order :=
  h.of_map (rules_update l order r name)

theorem record (h : l.Sorted P order) (ho : LawfulOn P order) (hr : P r) :
    (l.record order r name).Sorted P order := by
  cases hsearch : l.search order r with
  | found i => exact h.of_map (rules_record_of_found hsearch)
  | vacant i =>
    rw [Ledger.record, hsearch]
    exact h.insert ho hr hsearch

end Sorted

end Ledger

end FeatureSynth
