/-
# Searches by halving

The search never leaves its run, so what it ends at is one of the entries, and one that is
found is what was sought.  On a table in order it ends, where nothing is found, between what
is smaller and what is greater.  So in a list whose entries have increasing numbers it finds
the entry of a number if there is one.
-/
import Mathlib.Order.Compare
import Mathlib.Order.Nat
import FeatureSynth.Bisect

namespace FeatureSynth

namespace Bisect

variable {f : Nat → Ordering} {n : Nat}

/-- The run shrinks, but stays where it was. -/
theorem narrow_lt : ∀ fuel size base : Nat, 0 < size → narrow f fuel size base < base + size
  | 0, size, base, h => by
      rw [narrow]
      omega
  | fuel + 1, size, base, h => by
      have hbelow := narrow_lt fuel (size - size / 2) base (by omega)
      have habove := narrow_lt fuel (size - size / 2) (base + size / 2) (by omega)
      unfold narrow
      dsimp only
      split
      · split <;> omega
      · omega

/-- The first `n` answers are in order: below an answer `lt` there is no other, and above an answer
`gt` neither. -/
structure Falls (f : Nat → Ordering) (n : Nat) : Prop where
  below : ∀ i j, i < j → j < n → f j = .lt → f i = .lt
  above : ∀ i j, i < j → j < n → f i = .gt → f j = .gt

/-- What is behind the run is too great, and what it starts with is not, unless it is the first of
all; halving keeps both. -/
theorem narrow_bounds (hf : Falls f n) : ∀ fuel size base : Nat, size ≤ fuel + 1 → 0 < size →
    base + size ≤ n → (base = 0 ∨ f base ≠ .gt) → (∀ j, base + size ≤ j → j < n → f j = .gt) →
      (narrow f fuel size base = 0 ∨ f (narrow f fuel size base) ≠ .gt) ∧
        ∀ j, narrow f fuel size base < j → j < n → f j = .gt
  | 0, size, base, hfuel, hpos, hle, hbase, hbehind => by
      rw [narrow]
      exact ⟨hbase, fun j hj hjn => hbehind j (by omega) hjn⟩
  | fuel + 1, size, base, hfuel, hpos, hle, hbase, hbehind => by
      unfold narrow
      dsimp only
      split
      · rename_i hsize
        split
        · rename_i hgt
          refine narrow_bounds hf fuel _ base (by omega) (by omega) (by omega) hbase fun j hj hjn => ?_
          rcases Nat.lt_or_ge j (base + size) with hlt | hge
          · rcases Nat.eq_or_lt_of_le (show base + size / 2 ≤ j by omega) with rfl | hmiddle
            · exact hgt
            · exact hf.above _ j hmiddle hjn hgt
          · exact hbehind j hge hjn
        · rename_i hgt
          exact narrow_bounds hf fuel _ _ (by omega) (by omega) (by omega) (.inr hgt)
            fun j hj hjn => hbehind j (by omega) hjn
      · exact ⟨hbase, fun j hj hjn => hbehind j (by omega) hjn⟩

end Bisect

/-! ## Where a search ends -/

theorem Spot.found?_eq_some {s : Spot} {i : Nat} : s.found? = some i ↔ s = .found i := by
  cases s <;> simp [found?]

theorem of_bisect_found {f : Nat → Ordering} {n i : Nat} (h : bisect n f = .found i) :
    f i = .eq := by
  unfold bisect at h
  split at h
  · cases h
  · dsimp only at h
    split at h
    · rename_i heq
      cases h
      exact heq
    · cases h
    · cases h

theorem of_bisect_vacant {f : Nat → Ordering} {n i : Nat} (h : bisect n f = .vacant i) : i ≤ n := by
  unfold bisect at h
  split at h
  · cases h
    omega
  · rename_i hn
    have hlt := Bisect.narrow_lt (f := f) n n 0 (Nat.pos_of_ne_zero hn)
    dsimp only at h
    split at h
    · cases h
    · cases h
      omega
    · cases h
      omega

/-- A search that ends at a vacant place ends between what is smaller and what is greater. -/
theorem between_of_bisect_vacant {f : Nat → Ordering} {n i : Nat} (hf : Bisect.Falls f n)
    (h : bisect n f = .vacant i) :
    (∀ j, j < i → f j = .lt) ∧ ∀ j, i ≤ j → j < n → f j = .gt := by
  unfold bisect at h
  split at h
  · rename_i hn
    cases h
    exact ⟨fun j hj => by omega, fun j _ hjn => by omega⟩
  · rename_i hn
    have hlt := Bisect.narrow_lt (f := f) n n 0 (Nat.pos_of_ne_zero hn)
    obtain ⟨hbase, hbehind⟩ := Bisect.narrow_bounds hf n n 0 (by omega) (by omega) (by omega)
      (.inl rfl) fun j hj hjn => by omega
    dsimp only at h
    split at h
    · cases h
    · rename_i heq
      cases h
      refine ⟨fun j hj => ?_, fun j hj hjn => hbehind j hj hjn⟩
      rcases Nat.lt_or_ge j (Bisect.narrow f n n 0) with hj' | hj'
      · exact hf.below j _ hj' (by omega) heq
      · obtain rfl : j = Bisect.narrow f n n 0 := by omega
        exact heq
    · rename_i heq
      cases h
      have hzero : Bisect.narrow f n n 0 = 0 := hbase.resolve_right (fun hne => hne heq)
      rw [hzero] at heq hbehind ⊢
      refine ⟨fun j hj => by omega, fun j hj hjn => ?_⟩
      rcases Nat.eq_zero_or_pos j with rfl | hpos
      · exact heq
      · exact hbehind j hpos hjn

/-! ## Searches in lists -/

section Lists

variable {α : Type} {l : List α} {f : α → Ordering} {i k : Nat}

/-- What is found in a list is one of its entries, and what was sought. -/
theorem of_bisectList_found (h : bisectList l f = .found i) : ∃ x, l[i]? = some x ∧ f x = .eq := by
  have heq := of_bisect_found h
  cases hi : l[i]? with
  | none =>
    rw [hi] at heq
    cases heq
  | some x =>
    rw [hi] at heq
    exact ⟨x, rfl, heq⟩

variable {number : α → Nat}

theorem falls_of_pairwise (h : l.Pairwise fun x y => number x < number y) (k : Nat) :
    Bisect.Falls (fun i => (l[i]?.map fun x => compare (number x) k).getD .gt) l.length := by
  have hlt := List.pairwise_iff_getElem.mp h
  constructor
  · intro i j hij hj hjk
    have hi : i < l.length := hij.trans hj
    have hless := hlt i j hi hj hij
    simp only [List.getElem?_eq_getElem hi, List.getElem?_eq_getElem hj, Option.map_some,
      Option.getD_some, compare_lt_iff_lt] at hjk ⊢
    exact hless.trans hjk
  · intro i j hij hj hik
    have hi : i < l.length := hij.trans hj
    have hless := hlt i j hi hj hij
    simp only [List.getElem?_eq_getElem hi, List.getElem?_eq_getElem hj, Option.map_some,
      Option.getD_some, compare_gt_iff_gt] at hik ⊢
    exact hik.trans hless

/-- Where numbers increase, a search ends at the entry of the number sought if there is one. -/
theorem bisectList_found?_iff (h : l.Pairwise fun x y => number x < number y) :
    (bisectList l fun x => compare (number x) k).found? = some i ↔
      ∃ x, l[i]? = some x ∧ number x = k := by
  rw [Spot.found?_eq_some]
  constructor
  · intro hfound
    obtain ⟨x, hx, heq⟩ := of_bisectList_found hfound
    exact ⟨x, hx, compare_eq_iff_eq.mp heq⟩
  · rintro ⟨x, hx, rfl⟩
    obtain ⟨hi, hxi⟩ := List.getElem?_eq_some_iff.mp hx
    cases hspot : bisectList l fun y => compare (number y) (number x) with
    | vacant j =>
      obtain ⟨hbelow, habove⟩ := between_of_bisect_vacant (falls_of_pairwise h _) hspot
      have hself : compare (number x) (number x) = .eq := compare_eq_iff_eq.mpr rfl
      rcases Nat.lt_or_ge i j with hij | hij
      · have hlt := hbelow i hij
        simp [hx] at hlt
      · have hgt := habove i hij hi
        simp [hx] at hgt
    | found j =>
      obtain ⟨y, hy, heq⟩ := of_bisectList_found hspot
      obtain ⟨hj, hyj⟩ := List.getElem?_eq_some_iff.mp hy
      have hnumber : number y = number x := compare_eq_iff_eq.mp heq
      have hlt := List.pairwise_iff_getElem.mp h
      rcases Nat.lt_trichotomy i j with hij | rfl | hij
      · have hless := hlt i j hi hj hij
        rw [hxi, hyj] at hless
        omega
      · rfl
      · have hless := hlt j i hj hi hij
        rw [hxi, hyj] at hless
        omega

/-- So what is found is what has the number sought. -/
theorem bisectList_bind_eq_some (h : l.Pairwise fun x y => number x < number y) {x : α} :
    (bisectList l fun x => compare (number x) k).found?.bind (l[·]?) = some x ↔
      x ∈ l ∧ number x = k := by
  simp only [Option.bind_eq_some_iff, bisectList_found?_iff h]
  constructor
  · rintro ⟨i, ⟨y, hy, hk⟩, hx⟩
    obtain rfl : y = x := Option.some.inj (hy.symm.trans hx)
    exact ⟨List.mem_of_getElem? hx, hk⟩
  · rintro ⟨hmem, hk⟩
    obtain ⟨i, hi⟩ := List.mem_iff_getElem?.mp hmem
    exact ⟨i, ⟨x, hi, hk⟩, hi⟩

/-! ## Partition points -/

variable {p : α → Bool}

theorem answer_eq_lt_iff {j : Nat} (hj : j < l.length) :
    (l[j]?.map fun x => if p x = true then Ordering.lt else .gt).getD .gt = .lt ↔
      p l[j] = true := by
  rw [List.getElem?_eq_getElem hj, Option.map_some, Option.getD_some]
  cases p l[j] <;> simp

theorem answer_eq_gt_iff {j : Nat} (hj : j < l.length) :
    (l[j]?.map fun x => if p x = true then Ordering.lt else .gt).getD .gt = .gt ↔
      ¬ p l[j] = true := by
  rw [List.getElem?_eq_getElem hj, Option.map_some, Option.getD_some]
  cases p l[j] <;> simp

theorem falls_of_first (h : l.Pairwise fun x y => p y = true → p x = true) : Bisect.Falls
    (fun i => (l[i]?.map fun x => if p x = true then Ordering.lt else .gt).getD .gt) l.length := by
  have hp := List.pairwise_iff_getElem.mp h
  constructor
  · intro i j hij hj hlt
    have hi : i < l.length := hij.trans hj
    exact (answer_eq_lt_iff hi).mpr (hp i j hi hj hij ((answer_eq_lt_iff hj).mp hlt))
  · intro i j hij hj hgt
    have hi : i < l.length := hij.trans hj
    exact (answer_eq_gt_iff hj).mpr fun hpj =>
      (answer_eq_gt_iff hi).mp hgt (hp i j hi hj hij hpj)

/-- Where the elements that `p` holds of come first, they reach up to the partition point. -/
theorem partitionPoint_eq_countP (h : l.Pairwise fun x y => p y = true → p x = true) :
    partitionPoint p l = l.countP p := by
  unfold partitionPoint
  cases hspot : bisectList l fun x => if p x = true then Ordering.lt else .gt with
  | found i =>
    obtain ⟨x, -, heq⟩ := of_bisectList_found hspot
    split at heq <;> cases heq
  | vacant i =>
    obtain ⟨hbelow, habove⟩ := between_of_bisect_vacant (falls_of_first h) hspot
    have hle : i ≤ l.length := of_bisect_vacant hspot
    have htake : (l.take i).countP p = i := by
      refine (List.countP_eq_length.mpr fun x hx => ?_).trans (List.length_take_of_le hle)
      obtain ⟨j, hj, rfl⟩ := List.mem_iff_getElem.mp hx
      rw [List.length_take_of_le hle] at hj
      rw [List.getElem_take]
      exact (answer_eq_lt_iff (hj.trans_le hle)).mp (hbelow j hj)
    have hdrop : (l.drop i).countP p = 0 := by
      refine List.countP_eq_zero.mpr fun x hx => ?_
      obtain ⟨j, hj, rfl⟩ := List.mem_iff_getElem.mp hx
      rw [List.length_drop] at hj
      have hlt : i + j < l.length := by omega
      rw [List.getElem_drop]
      exact (answer_eq_gt_iff hlt).mp (habove (i + j) (by omega) hlt)
    have hsplit : (l.take i ++ l.drop i).countP p = (l.take i).countP p + (l.drop i).countP p :=
      List.countP_append
    rw [List.take_append_drop, htake, hdrop] at hsplit
    exact hsplit.symm

end Lists

end FeatureSynth
