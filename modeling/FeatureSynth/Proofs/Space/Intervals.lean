/-
# Cells of intervals

The bounds of an axis are collected interval by interval.  A bound that is there
already is not repeated, the last interval has no upper bound where it is open,
and the missing value becomes a bound of its own where an interval tells it from
the least numbers.  The cell of an interval is found on the way: it is the number
of bounds below the greatest value of the interval, at that time and ever after,
since later bounds are not below.

What carries the proof is one invariant of the bounds collected so far.  No bound
lies inside of an interval, and every end of an interval is a bound, unless the
interval has no end there.  So the values of an interval are the values above as
many bounds.
-/
import Mathlib.Data.List.Chain
import Mathlib.Data.List.Count
import FeatureSynth.Proofs.Partile.Criterion

namespace FeatureSynth

open Scalar (place)

/-! ## Counting -/

section Count

variable {α : Type} [LinearOrder α] {l : List α} {x y : α}

/-- How many of some bounds are below a value. -/
def countBelow (bounds : List α) (x : α) : Nat := bounds.countP (· < x)

theorem countBelow_eq_length (h : ∀ d ∈ l, d < x) : countBelow l x = l.length :=
  List.countP_eq_length.mpr fun d hd => decide_eq_true (h d hd)

theorem countBelow_congr (h : ∀ d ∈ l, d < x ↔ d < y) : countBelow l x = countBelow l y :=
  List.countP_congr fun d hd => by simpa using h d hd

/-- A bound between two values tells them apart. -/
theorem countBelow_lt {d : α} (hd : d ∈ l) (hx : x ≤ d) (hy : d < y) :
    countBelow l x < countBelow l y := by
  obtain ⟨before, after, rfl⟩ := List.append_of_mem hd
  have hmono : ∀ l : List α, countBelow l x ≤ countBelow l y := fun l =>
    List.countP_mono_left fun e _ he => by
      simp only [decide_eq_true_eq] at he ⊢
      exact he.trans (hx.trans_lt hy)
  have hbefore := hmono before
  have hafter := hmono after
  simp only [countBelow, List.countP_append, List.countP_cons, decide_eq_true hy,
    decide_eq_false hx.not_gt] at hbefore hafter ⊢
  simp only [if_pos, Bool.false_eq_true, if_false]
  omega

/-- Bounds that are not below a value do not count. -/
theorem countBelow_append {new : List α} (h : ∀ d ∈ new, x ≤ d) :
    countBelow (new ++ l) x = countBelow l x := by
  rw [countBelow, List.countP_append, List.countP_eq_zero.mpr, Nat.zero_add, countBelow]
  intro d hd
  simpa using h d hd

end Count

namespace Partile

/-! ## Intervals in a row -/

/-- Intervals as the levels of an operand have them.  They need not be adjacent, nor start at the
first index. -/
structure InARow (partiles : List Partile) : Prop where
  intervals : ∀ p ∈ partiles, p.isOf .continuous = true
  numbers : ∀ p ∈ partiles, Scalar.isNaN p.lower = false ∧ Scalar.isNaN p.upper = false
  /-- Indexes grow, and no interval starts before the last one ends. -/
  ordered : partiles.IsChain fun p q => p.index < q.index ∧ p.upper ≤ q.lower
  /-- Only the first interval can be the missing value alone. -/
  proper : ∀ p ∈ partiles, p.lower < p.upper ∨
    (partiles.head? = some p ∧ p.lower == Scalar.missing ∧ p.upper == Scalar.missing)
  greatest : ∀ p ∈ partiles, p.upper == Scalar.maxValue → partiles.getLast? = some p
  /-- An interval of all numbers is not the first one of its granularity. -/
  least : ∀ p ∈ partiles, p.index = 0 →
    ¬(p.lower == Scalar.missing ∧ p.upper == Scalar.maxValue)

/-- An interval that can come after some. -/
structure Follows (earlier : List Partile) (p : Partile) : Prop where
  interval : p.isOf .continuous = true
  lower : Scalar.isNaN p.lower = false
  upper : Scalar.isNaN p.upper = false
  index : ∀ q ∈ earlier, q.index < p.index
  after : ∀ q ∈ earlier, place q.upper ≤ place p.lower
  bounded : ∀ q ∈ earlier, place q.upper ≠ place Scalar.maxValue
  proper : place p.lower < place p.upper ∨
    earlier = [] ∧ place p.lower = place Scalar.missing ∧ place p.upper = place Scalar.missing
  least : p.index = 0 →
    ¬(place p.lower = place Scalar.missing ∧ place p.upper = place Scalar.maxValue)

namespace InARow

variable {partiles earlier later : List Partile} {p : Partile}

theorem indexes (h : InARow partiles) : (partiles.map (·.index)).Pairwise (· < ·) :=
  List.isChain_iff_pairwise.mp ((List.isChain_map _).mpr (h.ordered.imp fun _ _ h => h.1))

theorem lower_le_upper (h : InARow partiles) (hp : p ∈ partiles) : place p.lower ≤ place p.upper := by
  obtain ⟨hlower, hupper⟩ := h.numbers p hp
  rcases h.proper p hp with hlt | ⟨-, hl, hu⟩
  · exact ((Scalar.lt_iff_place hlower hupper).mp hlt).le
  · rw [Scalar.beq_iff_place hlower Scalar.isNaN_missing] at hl
    rw [Scalar.beq_iff_place hupper Scalar.isNaN_missing] at hu
    exact (hl.trans hu.symm).le

/-- No interval starts before an earlier one ends. -/
theorem pairwise (h : InARow partiles) :
    partiles.Pairwise fun q p => place q.upper ≤ place p.lower := by
  let R (q p : Partile) : Prop := place q.upper ≤ place p.lower ∧ place p.lower ≤ place p.upper
  have : Trans R R R := ⟨fun h₁ h₂ => ⟨h₁.1.trans (h₁.2.trans h₂.1), h₂.2⟩⟩
  have hchain : partiles.IsChain R := h.ordered.imp_of_mem_imp fun q p hq hp hqp =>
    ⟨(Scalar.le_iff_place (h.numbers q hq).2 (h.numbers p hp).1).mp hqp.2, h.lower_le_upper hp⟩
  exact (List.isChain_iff_pairwise.mp hchain).imp fun h => h.1

theorem follows (h : InARow (earlier ++ p :: later)) : Follows earlier p := by
  have hp : p ∈ earlier ++ p :: later := List.mem_append_right _ List.mem_cons_self
  have hindexes := h.indexes
  rw [List.map_append, List.map_cons, List.pairwise_append] at hindexes
  have hindex : ∀ q ∈ earlier, q.index < p.index := fun q hq =>
    hindexes.2.2 _ (List.mem_map_of_mem hq) _ List.mem_cons_self
  obtain ⟨hlower, hupper⟩ := h.numbers p hp
  exact {
    interval := h.intervals p hp
    lower := hlower
    upper := hupper
    index := hindex
    after := fun q hq => (List.pairwise_append.mp h.pairwise).2.2 q hq p List.mem_cons_self
    bounded := by
      intro q hq hmax
      have hq' := List.mem_append_left (p :: later) hq
      have hlast := h.greatest q hq' ((Scalar.beq_iff_place (h.numbers q hq').2
        Scalar.isNaN_maxValue).mpr hmax)
      rw [List.getLast?_append_cons] at hlast
      have hmem := List.mem_map_of_mem (f := (·.index)) (List.mem_of_getLast? hlast)
      exact lt_irrefl _ (hindexes.2.2 _ (List.mem_map_of_mem hq) _ hmem)
    proper := by
      rcases h.proper p hp with hlt | ⟨hhead, hl, hu⟩
      · exact .inl ((Scalar.lt_iff_place hlower hupper).mp hlt)
      · refine .inr ⟨?_, (Scalar.beq_iff_place hlower Scalar.isNaN_missing).mp hl,
          (Scalar.beq_iff_place hupper Scalar.isNaN_missing).mp hu⟩
        cases earlier with
        | nil => rfl
        | cons q earlier =>
          obtain rfl : q = p := Option.some.inj hhead
          exact absurd (hindex q List.mem_cons_self) (lt_irrefl _)
    least := fun hzero hall => h.least p hp hzero
      ⟨(Scalar.beq_iff_place hlower Scalar.isNaN_missing).mpr hall.1,
        (Scalar.beq_iff_place hupper Scalar.isNaN_maxValue).mpr hall.2⟩ }

end InARow

theorem openBelow_iff {p : Partile} (hlower : Scalar.isNaN p.lower = false)
    (hupper : Scalar.isNaN p.upper = false) :
    p.openBelow = true ↔ place p.upper = place Scalar.missing ∨
      place p.lower = place Scalar.missing ∧ p.index = 0 ∧ place p.upper ≠ place Scalar.maxValue := by
  rw [openBelow, Bool.or_eq_true, Bool.and_eq_true, Bool.and_eq_true, bne, Bool.not_eq_true',
    ← Bool.not_eq_true, Scalar.beq_iff_place hupper Scalar.isNaN_missing,
    Scalar.beq_iff_place hlower Scalar.isNaN_missing,
    Scalar.beq_iff_place hupper Scalar.isNaN_maxValue, beq_iff_eq, and_assoc]

end Partile

/-! ## Bounds of an interval -/

/-- Bounds that tell the values of an interval from the others: the ends of the interval are among
them, and none is inside of it. -/
structure Bounded (bounds : List Scalar.Place) (p : Partile) : Prop where
  lower : p.openBelow = true ∨ place p.lower ∈ bounds
  upper : place p.upper = place Scalar.maxValue ∨ place p.upper ∈ bounds
  inside : ∀ d ∈ bounds, d < place p.upper → p.openBelow = false ∧ d ≤ place p.lower
  above : place p.upper = place Scalar.maxValue → ∀ d ∈ bounds, d < place p.upper

namespace Bounded

variable {bounds new : List Scalar.Place} {p : Partile}

/-- Later bounds are not below the interval. -/
theorem append (h : Bounded bounds p) (hmax : place p.upper ≠ place Scalar.maxValue)
    (hnew : ∀ d ∈ new, place p.upper ≤ d) : Bounded (new ++ bounds) p where
  lower := h.lower.imp_right (List.mem_append_right _)
  upper := h.upper.imp_right (List.mem_append_right _)
  inside d hd hlt := by
    rcases List.mem_append.mp hd with hd | hd
    · exact absurd hlt (hnew d hd).not_gt
    · exact h.inside d hd hlt
  above hupper := absurd hupper hmax

theorem ne_nil (h : Bounded bounds p) (hlower : Scalar.isNaN p.lower = false)
    (hupper : Scalar.isNaN p.upper = false) : bounds ≠ [] := by
  rintro rfl
  have hopen := h.lower.resolve_right List.not_mem_nil
  have hmax := h.upper.resolve_right List.not_mem_nil
  rcases (Partile.openBelow_iff hlower hupper).mp hopen with hmissing | ⟨-, -, hne⟩
  · exact Scalar.place_missing_lt_maxValue.ne (hmissing.symm.trans hmax)
  · exact hne hmax

/-- The values of an interval are those above as many bounds as its greatest one. -/
theorem covers_iff (h : Bounded bounds p) (hlower : Scalar.isNaN p.lower = false)
    (hupper : Scalar.isNaN p.upper = false) (hproper : place p.lower < place p.upper ∨
      place p.lower = place Scalar.missing ∧ place p.upper = place Scalar.missing)
    {x : Float} (hx : Scalar.isNaN x = false) :
    p.covers x = true ↔ countBelow bounds (place x) = countBelow bounds (place p.upper) := by
  rw [Partile.covers, Bool.and_eq_true, Bool.or_eq_true, Bool.or_eq_true, decide_eq_true_iff,
    decide_eq_true_iff, Scalar.lt_iff_place hlower hx, Scalar.le_iff_place hx hupper,
    Scalar.beq_iff_place hupper Scalar.isNaN_maxValue]
  constructor
  · rintro ⟨hbelow, habove⟩
    refine countBelow_congr fun d hd => ⟨fun hlt => ?_, fun hlt => ?_⟩
    · rcases habove with hmax | hle
      · exact h.above hmax d hd
      · exact hlt.trans_le hle
    · obtain ⟨hclosed, hle⟩ := h.inside d hd hlt
      rcases hbelow with hopen | hlt
      · rw [hopen] at hclosed
        cases hclosed
      · exact hle.trans_lt hlt
  · intro hcount
    constructor
    · refine or_iff_not_imp_left.mpr fun hclosed => ?_
      -- at or below the lower end, which is a bound, there are fewer
      by_contra hle
      have hmem := h.lower.resolve_left hclosed
      have hlt : place p.lower < place p.upper := hproper.resolve_right fun ⟨_, hmissing⟩ =>
        hclosed ((Partile.openBelow_iff hlower hupper).mpr (.inl hmissing))
      exact (countBelow_lt hmem (not_lt.mp hle) hlt).ne hcount
    · refine or_iff_not_imp_left.mpr fun hmax => ?_
      -- and above the upper end there are more
      by_contra hle
      exact (countBelow_lt (h.upper.resolve_left hmax) le_rfl (not_le.mp hle)).ne' hcount

end Bounded

namespace Bounds

/-! ## One interval -/

/-- The places of the bounds, greatest first. -/
def places (b : Bounds) : List Scalar.Place := b.bounds.map place

/-- The bounds where an interval starts: its lower end is one, unless it has none. -/
def opened (b : Bounds) (p : Partile) : Bounds :=
  let b := b.separateMissing p.lower p.upper p.index
  if p.lower != b.last then b.push p.lower else b

/-- The bounds where an interval ends: its upper end is one, unless it has none. -/
def closed (b : Bounds) (p : Partile) : Bounds :=
  if p.upper != b.last && p.upper != Scalar.maxValue then b.push p.upper else b

/-- The cell below or above the last bound. -/
def lastCell (b : Bounds) (p : Partile) : Nat :=
  if b.last < p.upper then b.bounds.length else b.bounds.length - 1

theorem add_of_interval (b : Bounds) {p : Partile} (hp : p.isOf .continuous = true) :
    b.add p =
      { (b.opened p).closed p with
        cellOf := Cells.insert p.index (((b.opened p).closed p).lastCell p)
          ((b.opened p).closed p).cellOf } := by
  cases p with
  | interval => rfl
  | value => cases hp

/-- Bounds in order, the last one met on top. -/
structure Ordered (b : Bounds) : Prop where
  numbers : ∀ d ∈ b.bounds, Scalar.isNaN d = false
  lastNumber : Scalar.isNaN b.last = false
  sorted : b.places.Pairwise (· > ·)
  last : b.places.head? = some (place b.last) ∨
    b.places = [] ∧ place b.last = place Scalar.missing

theorem Ordered.le_last {b : Bounds} (h : b.Ordered) : ∀ d ∈ b.places, d ≤ place b.last := by
  intro d hd
  rcases h.last with hhead | ⟨hnil, -⟩
  · obtain ⟨rest, hrest⟩ := List.head?_eq_some_iff.mp hhead
    have hsorted := h.sorted
    rw [hrest] at hd hsorted
    rcases List.mem_cons.mp hd with rfl | hd
    · exact le_rfl
    · exact (List.rel_of_pairwise_cons hsorted hd).le
  · rw [hnil] at hd
    cases hd

theorem Ordered.push {b : Bounds} (h : b.Ordered) {x : Float} (hx : Scalar.isNaN x = false)
    (hlt : place b.last < place x) : (b.push x).Ordered where
  numbers := List.forall_mem_cons.mpr ⟨hx, h.numbers⟩
  lastNumber := hx
  sorted := List.pairwise_cons.mpr ⟨fun d hd => (h.le_last d hd).trans_lt hlt, h.sorted⟩
  last := .inl rfl

/-- How bounds come to start an interval: its lower end is the last of them, or the interval has
none and there are no bounds. -/
structure Opened (b b' : Bounds) (p : Partile) : Prop where
  ordered : b'.Ordered
  cellOf : b'.cellOf = b.cellOf
  last : place b'.last = place p.lower
  new : ∃ new, b'.places = new ++ b.places ∧ ∀ d ∈ new, d = place p.lower
  start : b'.places.head? = some (place p.lower) ∧
      (p.openBelow = true → place p.lower = place p.upper) ∨
    b'.places = [] ∧ p.openBelow = true ∧ place p.lower < place p.upper

/-- How bounds come to end an interval. -/
structure Closed (b b' : Bounds) (p : Partile) : Prop where
  ordered : b'.Ordered
  cellOf : b'.cellOf = b.cellOf
  new : ∃ new, b'.places = new ++ b.places ∧ ∀ d ∈ new, place p.lower ≤ d ∧ d ≤ place p.upper
  bounded : Bounded b'.places p
  cell : b'.lastCell p = countBelow b'.places (place p.upper)

section Step

variable {b b' : Bounds} {earlier : List Partile} {p : Partile}

theorem bne_iff_place {x y : Float} (hx : Scalar.isNaN x = false) (hy : Scalar.isNaN y = false) :
    (x != y) = true ↔ place x ≠ place y := by
  rw [bne, Bool.not_eq_true', ← Bool.not_eq_true, Scalar.beq_iff_place hx hy]

theorem separateMissing_of_nil (hnil : b.bounds = []) (hlower : Scalar.isNaN p.lower = false)
    (hupper : Scalar.isNaN p.upper = false) :
    b.separateMissing p.lower p.upper p.index =
      if place p.upper = place Scalar.missing ∨ 0 < p.index ∧ place p.lower = place Scalar.missing then
        { b with bounds := [Scalar.missing] } else b := by
  unfold separateMissing
  refine if_congr ?_ rfl rfl
  rw [hnil, Bool.and_eq_true, Bool.or_eq_true, Bool.and_eq_true, decide_eq_true_iff,
    Scalar.beq_iff_place hupper Scalar.isNaN_missing, Scalar.beq_iff_place hlower Scalar.isNaN_missing]
  exact and_iff_right rfl

theorem separateMissing_of_ne_nil (hne : b.bounds ≠ []) :
    b.separateMissing p.lower p.upper p.index = b := by
  refine if_neg ?_
  rw [Bool.and_eq_true, List.isEmpty_iff]
  exact fun h => hne h.1

theorem last_of_nil (hb : b.Ordered) (hnil : b.places = []) :
    place b.last = place Scalar.missing := by
  rcases hb.last with hhead | ⟨-, hlast⟩
  · rw [hnil] at hhead
    cases hhead
  · exact hlast

/-- The first interval starts at the missing value if it holds that value, or is told from it. -/
theorem opened_of_separate (hb : b.Ordered) (hnil : b.places = []) (hp : Partile.Follows [] p)
    (hsep : place p.upper = place Scalar.missing ∨
      0 < p.index ∧ place p.lower = place Scalar.missing) :
    Opened b (b.opened p) p := by
  have hlast := last_of_nil hb hnil
  have hlower : place p.lower = place Scalar.missing := by
    rcases hsep with hmissing | ⟨-, hlower⟩
    · refine (hp.proper.resolve_left fun hlt => ?_).2.1
      exact ((Scalar.place_missing_le p.lower).trans_lt hlt).ne' hmissing
    · exact hlower
  have hopened : b.opened p = { b with bounds := [Scalar.missing] } := by
    rw [opened, separateMissing_of_nil (List.map_eq_nil_iff.mp hnil) hp.lower hp.upper,
      if_pos hsep]
    refine if_neg fun hne => ?_
    exact (bne_iff_place hp.lower hb.lastNumber).mp hne (hlower.trans hlast.symm)
  rw [hopened]
  exact {
    ordered :=
      { numbers := List.forall_mem_singleton.mpr Scalar.isNaN_missing
        lastNumber := hb.lastNumber
        sorted := List.pairwise_singleton ..
        last := .inl (congrArg some hlast.symm) }
    cellOf := rfl
    last := hlast.trans hlower.symm
    new := ⟨[place Scalar.missing], by rw [hnil]; rfl, List.forall_mem_singleton.mpr hlower.symm⟩
    start := by
      refine .inl ⟨congrArg some hlower.symm, fun h => hlower.trans ?_⟩
      rcases (Partile.openBelow_iff hp.lower hp.upper).mp h with hmissing | ⟨-, hzero, -⟩
      · exact hmissing.symm
      · exact (hsep.resolve_right fun h => h.1.ne' hzero).symm }

/-- The first interval starts at its lower end, or at the missing value if it has none and is told
from it. -/
theorem opened_of_nil (hb : b.Ordered) (hnil : b.places = []) (hp : Partile.Follows [] p) :
    Opened b (b.opened p) p := by
  have hlast := last_of_nil hb hnil
  have hopen := Partile.openBelow_iff hp.lower hp.upper
  by_cases hsep : place p.upper = place Scalar.missing ∨
      0 < p.index ∧ place p.lower = place Scalar.missing
  · exact opened_of_separate hb hnil hp hsep
  · obtain ⟨hupper, hindex⟩ := not_or.mp hsep
    have hlt : place p.lower < place p.upper := hp.proper.resolve_right fun h => hupper h.2.2
    rw [opened, separateMissing_of_nil (List.map_eq_nil_iff.mp hnil) hp.lower hp.upper,
      if_neg hsep]
    split
    · rename_i hbne
      have hne := (bne_iff_place hp.lower hb.lastNumber).mp hbne
      have hleast : place b.last < place p.lower :=
        lt_of_le_of_ne (hlast ▸ Scalar.place_missing_le p.lower) hne.symm
      exact {
        ordered := hb.push hp.lower hleast
        cellOf := rfl
        last := rfl
        new := ⟨[place p.lower], rfl, List.forall_mem_singleton.mpr rfl⟩
        start := by
          refine .inl ⟨rfl, fun h => ?_⟩
          rcases hopen.mp h with hmissing | ⟨hmissing, -⟩
          · exact absurd hmissing hupper
          · exact absurd (hmissing.trans hlast.symm) hne }
    · rename_i hbeq
      have heq : place p.lower = place b.last := by
        rwa [bne_iff_place hp.lower hb.lastNumber, not_not] at hbeq
      have hlower := heq.trans hlast
      have hzero : p.index = 0 := Nat.eq_zero_of_not_pos fun hpos => hindex ⟨hpos, hlower⟩
      exact {
        ordered := hb
        cellOf := rfl
        last := heq.symm
        new := ⟨[], rfl, List.forall_mem_nil _⟩
        start := .inr ⟨hnil, hopen.mpr (.inr ⟨hlower, hzero, fun h => hp.least hzero ⟨hlower, h⟩⟩),
          hlt⟩ }

/-- Every other interval starts at its lower end. -/
theorem opened_of_ne_nil (hb : b.Ordered) (hne : b.places ≠ [])
    (hle : place b.last ≤ place p.lower) (hearlier : earlier ≠ [])
    (hp : Partile.Follows earlier p) :
    Opened b (b.opened p) p := by
  have hlt : place p.lower < place p.upper := hp.proper.resolve_right fun h => hearlier h.1
  have hindex : 0 < p.index := by
    obtain ⟨q, hq⟩ := List.exists_mem_of_ne_nil earlier hearlier
    exact (Nat.zero_le q.index).trans_lt (hp.index q hq)
  have hclosed : p.openBelow = false := by
    rw [← Bool.not_eq_true, Partile.openBelow_iff hp.lower hp.upper]
    rintro (hmissing | ⟨-, hzero, -⟩)
    · exact ((Scalar.place_missing_le p.lower).trans_lt hlt).ne' hmissing
    · exact hindex.ne' hzero
  have hstart : ∀ {b' : Bounds}, b'.places.head? = some (place p.lower) →
      b'.places.head? = some (place p.lower) ∧
        (p.openBelow = true → place p.lower = place p.upper) :=
    fun hhead => ⟨hhead, fun hopen => Bool.noConfusion (hclosed.symm.trans hopen)⟩
  rw [opened, separateMissing_of_ne_nil (mt List.map_eq_nil_iff.mpr hne)]
  split
  · rename_i hbne
    have hne' := (bne_iff_place hp.lower hb.lastNumber).mp hbne
    exact {
      ordered := hb.push hp.lower (lt_of_le_of_ne hle hne'.symm)
      cellOf := rfl
      last := rfl
      new := ⟨[place p.lower], rfl, List.forall_mem_singleton.mpr rfl⟩
      start := .inl (hstart rfl) }
  · rename_i hbeq
    have heq : place p.lower = place b.last := by
      rwa [bne_iff_place hp.lower hb.lastNumber, not_not] at hbeq
    exact {
      ordered := hb
      cellOf := rfl
      last := heq.symm
      new := ⟨[], rfl, List.forall_mem_nil _⟩
      start := .inl (hstart (by rw [heq]; exact hb.last.resolve_right fun h => hne h.1)) }

theorem Opened.le (h : Opened b b' p) : ∀ d ∈ b'.places, d ≤ place p.lower :=
  h.last ▸ h.ordered.le_last

/-- The missing value alone ends where it starts. -/
theorem closed_of_missing (h : Opened b b' p) (hlower : place p.lower = place Scalar.missing)
    (hupper : place p.upper = place Scalar.missing) (hp : Partile.Follows earlier p) :
    Closed b (b'.closed p) p := by
  have heq : place p.lower = place p.upper := hlower.trans hupper.symm
  have hclosed : b'.closed p = b' := by
    refine if_neg ?_
    rw [Bool.and_eq_true, bne_iff_place hp.upper h.ordered.lastNumber]
    exact fun hne => hne.1 (heq.symm.trans h.last.symm)
  -- nothing comes before the missing value
  have hleast : ∀ d ∈ b'.places, ¬d < place p.upper := by
    rintro d hd
    obtain ⟨x, -, rfl⟩ := List.mem_map.mp hd
    rw [hupper]
    exact (Scalar.place_missing_le x).not_gt
  have hhead := (h.start.resolve_right fun h => h.2.2.ne heq).1
  obtain ⟨rest, hplaces⟩ := List.head?_eq_some_iff.mp hhead
  have hrest : rest = [] := by
    refine List.eq_nil_iff_forall_not_mem.mpr fun d hd => ?_
    have hsorted := h.ordered.sorted
    rw [hplaces] at hsorted
    exact hleast d (by rw [hplaces]; exact List.mem_cons_of_mem _ hd)
      (heq ▸ List.rel_of_pairwise_cons hsorted hd)
  have hmem : place p.lower ∈ b'.places := List.mem_of_head? hhead
  obtain ⟨new, hnew, hends⟩ := h.new
  rw [hclosed]
  exact {
    ordered := h.ordered
    cellOf := h.cellOf
    new := ⟨new, hnew, fun d hd => ⟨(hends d hd).ge, (hends d hd).trans_le heq.le⟩⟩
    bounded :=
      { lower := .inr hmem
        upper := .inr (heq ▸ hmem)
        inside := fun d hd hlt => absurd hlt (hleast d hd)
        above := fun hmax => absurd (hupper.symm.trans hmax) Scalar.place_missing_lt_maxValue.ne }
    cell := by
      have hlast : ¬b'.last < p.upper := by
        rw [Scalar.lt_iff_place h.ordered.lastNumber hp.upper, h.last, heq]
        exact lt_irrefl _
      have hlength : b'.bounds.length = 1 := by
        rw [← List.length_map (f := place), ← places, hplaces, hrest, List.length_singleton]
      rw [lastCell, if_neg hlast, hlength, countBelow, List.countP_eq_zero.mpr]
      simpa using hleast }

/-- An interval without a greatest value has no upper bound. -/
theorem closed_of_max (h : Opened b b' p) (hlt : place p.lower < place p.upper)
    (hmax : place p.upper = place Scalar.maxValue) (hp : Partile.Follows earlier p) :
    Closed b (b'.closed p) p := by
  have hclosed : b'.closed p = b' := by
    refine if_neg ?_
    rw [Bool.and_eq_true, bne_iff_place hp.upper Scalar.isNaN_maxValue]
    exact fun hne => hne.2 hmax
  have hopen : p.openBelow = false := by
    rw [← Bool.not_eq_true, Partile.openBelow_iff hp.lower hp.upper]
    rintro (hmissing | ⟨-, -, hne⟩)
    · exact ((Scalar.place_missing_le p.lower).trans_lt hlt).ne' hmissing
    · exact hne hmax
  have hhead := (h.start.resolve_right fun h => by simp [hopen] at h).1
  have hbelow : ∀ d ∈ b'.places, d < place p.upper := fun d hd => (h.le d hd).trans_lt hlt
  obtain ⟨new, hnew, hends⟩ := h.new
  rw [hclosed]
  exact {
    ordered := h.ordered
    cellOf := h.cellOf
    new := ⟨new, hnew, fun d hd => ⟨(hends d hd).ge, (hends d hd).trans_le hlt.le⟩⟩
    bounded :=
      { lower := .inr (List.mem_of_head? hhead)
        upper := .inl hmax
        inside := fun d hd _ => ⟨hopen, h.le d hd⟩
        above := fun _ => hbelow }
    cell := by
      have hlast : b'.last < p.upper := by
        rwa [Scalar.lt_iff_place h.ordered.lastNumber hp.upper, h.last]
      rw [lastCell, if_pos hlast, countBelow_eq_length hbelow, places, List.length_map] }

/-- Every other interval ends at a bound of its own. -/
theorem closed_of_lt (h : Opened b b' p) (hlt : place p.lower < place p.upper)
    (hmax : place p.upper ≠ place Scalar.maxValue) (hp : Partile.Follows earlier p) :
    Closed b (b'.closed p) p := by
  have hclosed : b'.closed p = b'.push p.upper := by
    refine if_pos ?_
    rw [Bool.and_eq_true, bne_iff_place hp.upper h.ordered.lastNumber,
      bne_iff_place hp.upper Scalar.isNaN_maxValue, h.last]
    exact ⟨hlt.ne', hmax⟩
  have hbelow : ∀ d ∈ b'.places, d < place p.upper := fun d hd => (h.le d hd).trans_lt hlt
  have hplaces : (b'.push p.upper).places = place p.upper :: b'.places := rfl
  obtain ⟨new, hnew, hends⟩ := h.new
  rw [hclosed]
  exact {
    ordered := h.ordered.push hp.upper (h.last ▸ hlt)
    cellOf := h.cellOf
    new := by
      refine ⟨place p.upper :: new, by rw [hplaces, hnew]; rfl, List.forall_mem_cons.mpr ?_⟩
      exact ⟨⟨hlt.le, le_rfl⟩, fun d hd => ⟨(hends d hd).ge, (hends d hd).trans_le hlt.le⟩⟩
    bounded :=
      { lower := by
          rcases h.start with ⟨hhead, -⟩ | ⟨-, hopen, -⟩
          · exact .inr (List.mem_cons_of_mem _ (List.mem_of_head? hhead))
          · exact .inl hopen
        upper := .inr List.mem_cons_self
        inside := by
          intro d hd hd'
          have hd : d ∈ b'.places := (List.mem_cons.mp hd).resolve_left hd'.ne
          rcases h.start with ⟨-, hopen⟩ | ⟨hnil, -⟩
          · exact ⟨Bool.eq_false_iff.mpr fun h => hlt.ne (hopen h), h.le d hd⟩
          · rw [hnil] at hd
            cases hd
        above := fun h => absurd h hmax }
    cell := by
      have hlast : ¬(b'.push p.upper).last < p.upper :=
        mt (Scalar.lt_iff_place hp.upper hp.upper).mp (lt_irrefl _)
      rw [lastCell, if_neg hlast, hplaces, countBelow, List.countP_cons_of_neg (by simp),
        ← countBelow, countBelow_eq_length hbelow, places, List.length_map]
      rfl }

theorem Opened.closed (h : Opened b b' p) (hp : Partile.Follows earlier p) :
    Closed b (b'.closed p) p := by
  rcases hp.proper with hlt | ⟨-, hlower, hupper⟩
  · by_cases hmax : place p.upper = place Scalar.maxValue
    · exact closed_of_max h hlt hmax hp
    · exact closed_of_lt h hlt hmax hp
  · exact closed_of_missing h hlower hupper hp

end Step

/-! ## All intervals -/

/-- Bounds collected from some intervals, and the cells of these. -/
structure Collected (earlier : List Partile) (b : Bounds) : Prop where
  ordered : b.Ordered
  started : b.places = [] ↔ earlier = []
  le : ∀ d ∈ b.places, ∃ q ∈ earlier, d ≤ place q.upper
  bounded : ∀ q ∈ earlier, Bounded b.places q
  table : b.cellOf.Perm (earlier.map fun q => (q.index, countBelow b.places (place q.upper)))
  grows : earlier.Pairwise fun q p =>
    countBelow b.places (place q.upper) < countBelow b.places (place p.upper)

namespace Collected

variable {earlier : List Partile} {b : Bounds} {p : Partile}

theorem empty : Collected [] .empty where
  ordered :=
    { numbers := List.forall_mem_nil _
      lastNumber := Scalar.isNaN_missing
      sorted := .nil
      last := .inr ⟨rfl, rfl⟩ }
  started := iff_of_true rfl rfl
  le := List.forall_mem_nil _
  bounded := List.forall_mem_nil _
  table := .refl _
  grows := .nil

theorem opened (h : Collected earlier b) (hp : Partile.Follows earlier p) :
    Opened b (b.opened p) p := by
  by_cases hnil : b.places = []
  · rw [h.started.mp hnil] at hp
    exact opened_of_nil h.ordered hnil hp
  · refine opened_of_ne_nil h.ordered hnil ?_ (mt h.started.mpr hnil) hp
    obtain ⟨q, hq, hle⟩ := h.le _ (List.mem_of_head? (h.ordered.last.resolve_right fun h => hnil h.1))
    exact hle.trans (hp.after q hq)

/-- One more interval, whose ends are bounds now. -/
theorem closed {b' : Bounds} (h : Collected earlier b) (hp : Partile.Follows earlier p)
    (hclosed : Closed b b' p) :
    Collected (earlier ++ [p])
      { b' with cellOf := Cells.insert p.index (b'.lastCell p) b'.cellOf } := by
  obtain ⟨new, hplaces, hends⟩ := hclosed.new
  have hnew : ∀ q ∈ earlier, ∀ d ∈ new, place q.upper ≤ d := fun q hq d hd =>
    (hp.after q hq).trans (hends d hd).1
  have hcount : ∀ q ∈ earlier,
      countBelow b'.places (place q.upper) = countBelow b.places (place q.upper) :=
    fun q hq => by rw [hplaces, countBelow_append (hnew q hq)]
  have hfresh : p.index ∉ b.cellOf.map (·.1) := by
    rw [(h.table.map (·.1)).mem_iff, List.map_map]
    intro hmem
    obtain ⟨q, hq, heq⟩ := List.mem_map.mp hmem
    exact (hp.index q hq).ne heq
  have hle : ∀ d ∈ b'.places, ∃ q ∈ earlier ++ [p], d ≤ place q.upper := by
    rw [hplaces]
    refine List.forall_mem_append.mpr ⟨fun d hd => ?_, fun d hd => ?_⟩
    · exact ⟨p, List.mem_append_right _ List.mem_cons_self, (hends d hd).2⟩
    · obtain ⟨q, hq, hle⟩ := h.le d hd
      exact ⟨q, List.mem_append_left _ hq, hle⟩
  have hbounded : ∀ q ∈ earlier ++ [p], Bounded b'.places q := by
    refine List.forall_mem_append.mpr ⟨fun q hq => ?_, List.forall_mem_singleton.mpr hclosed.bounded⟩
    rw [hplaces]
    exact (h.bounded q hq).append (hp.bounded q hq) (hnew q hq)
  have htable : (Cells.insert p.index (b'.lastCell p) b'.cellOf).Perm
      ((earlier ++ [p]).map fun q => (q.index, countBelow b'.places (place q.upper))) := by
    have hearlier : (earlier.map fun q => (q.index, countBelow b'.places (place q.upper))) =
        earlier.map fun q => (q.index, countBelow b.places (place q.upper)) :=
      List.map_congr_left fun q hq => by rw [hcount q hq]
    rw [hclosed.cellOf, hclosed.cell, List.map_append, hearlier]
    exact ((Cells.insert_perm _ _ hfresh).trans (h.table.cons _)).trans
      (List.perm_append_singleton _ _).symm
  have hgrows : (earlier ++ [p]).Pairwise fun q p =>
      countBelow b'.places (place q.upper) < countBelow b'.places (place p.upper) := by
    refine List.pairwise_append.mpr ⟨?_, List.pairwise_singleton .., fun q hq => ?_⟩
    · refine h.grows.imp_of_mem fun hq hq' hlt => ?_
      rwa [hcount _ hq, hcount _ hq']
    · -- the upper end of an earlier interval is a bound between the two
      have hmem : place q.upper ∈ b.places := (h.bounded q hq).upper.resolve_left (hp.bounded q hq)
      have hlt := hp.proper.resolve_right fun hfirst => List.ne_nil_of_mem hq hfirst.1
      exact List.forall_mem_singleton.mpr (countBelow_lt (hplaces ▸ List.mem_append_right _ hmem)
        le_rfl ((hp.after q hq).trans_lt hlt))
  exact {
    ordered :=
      { numbers := hclosed.ordered.numbers
        lastNumber := hclosed.ordered.lastNumber
        sorted := hclosed.ordered.sorted
        last := hclosed.ordered.last }
    started := iff_of_false (hclosed.bounded.ne_nil hp.lower hp.upper) (List.concat_ne_nil _ _)
    le := hle
    bounded := hbounded
    table := htable
    grows := hgrows }

theorem add (h : Collected earlier b) (hp : Partile.Follows earlier p) :
    Collected (earlier ++ [p]) (b.add p) := by
  rw [add_of_interval b hp.interval]
  exact h.closed hp ((h.opened hp).closed hp)

/-- All intervals that follow. -/
theorem foldl : ∀ {later earlier : List Partile} {b : Bounds}, Collected earlier b →
    Partile.InARow (earlier ++ later) → Collected (earlier ++ later) (later.foldl Bounds.add b)
  | [], earlier, _, h, _ => by rwa [List.append_nil]
  | p :: later, earlier, b, h, hrow => by
      have hnext := h.add hrow.follows
      rw [List.append_cons] at hrow ⊢
      exact foldl hnext hrow

end Collected

end Bounds

section Descriptor

variable {partiles : List Partile}

theorem collected_foldl (h : Partile.InARow partiles) :
    Bounds.Collected partiles (partiles.foldl Bounds.add .empty) :=
  Bounds.Collected.empty.foldl h

/-- The table of an axis is one to one: the cells of intervals grow with their indexes. -/
theorem oneToOne_intervalDescriptor (h : Partile.InARow partiles) :
    (intervalDescriptor partiles).2.OneToOne := by
  have hcollected := collected_foldl h
  have htable := hcollected.table
  exact {
    positive := Nat.succ_pos _
    indexes := by
      have hperm := htable.map (·.1)
      rw [List.map_map] at hperm
      exact hperm.nodup_iff.mpr (h.indexes.imp Nat.ne_of_lt)
    cells := by
      have hperm := htable.map (·.2)
      rw [List.map_map] at hperm
      exact hperm.nodup_iff.mpr (List.pairwise_map.mpr (hcollected.grows.imp Nat.ne_of_lt))
    bounded := by
      intro e he
      obtain ⟨q, -, rfl⟩ := List.mem_map.mp (htable.mem_iff.mp he)
      refine Nat.lt_succ_of_le (List.countP_le_length.trans ?_)
      rw [Bounds.places, List.length_map] }

/-- Intervals in a row and the cells of their descriptor cut the values the same way.  The bounds of
the descriptor grow strictly, the table is one to one, and a value meets the criterion of an interval
if and only if the cell of the interval is the number of bounds below the value. -/
theorem intervalDescriptor_cuts (h : Partile.InARow partiles) :
    ∃ bounds : List Float,
      (intervalDescriptor partiles).1 = ⟨"IntervalBounds", bounds.map .continuous⟩ ∧
      bounds.Pairwise (· < ·) ∧
      (intervalDescriptor partiles).2.count = bounds.length + 1 ∧
      (intervalDescriptor partiles).2.OneToOne ∧
      ∀ (operand : Operand) (x : Float), Scalar.isNaN x = false → ∀ p ∈ partiles,
        ∃ f cell, p.criterion operand .continuous = .ok f ∧
          (intervalDescriptor partiles).2.cellOf.lookup p.index = some cell ∧
          operand.meets (.continuous x) f = some (decide (bounds.countP (· < x) = cell)) := by
  have hcollected := collected_foldl h
  have honeToOne := oneToOne_intervalDescriptor h
  unfold intervalDescriptor at honeToOne ⊢
  generalize partiles.foldl Bounds.add .empty = b at hcollected honeToOne ⊢
  have hnumbers := hcollected.ordered.numbers
  refine ⟨b.bounds.reverse, rfl, ?_, by rw [List.length_reverse], honeToOne, ?_⟩
  · refine List.pairwise_reverse.mpr ?_
    refine (List.pairwise_map.mp hcollected.ordered.sorted).imp_of_mem fun hd he hlt => ?_
    exact (Scalar.lt_iff_place (hnumbers _ he) (hnumbers _ hd)).mpr hlt
  · intro operand x hx p hp
    obtain ⟨hlower, hupper⟩ := h.numbers p hp
    obtain ⟨f, hf, hmeets⟩ :=
      Partile.criterion_interval operand (h.intervals p hp) hlower hupper hx
    refine ⟨f, countBelow b.places (place p.upper), hf, ?_, ?_⟩
    · exact honeToOne.lookup_eq_some.mpr (hcollected.table.mem_iff.mpr (List.mem_map_of_mem hp))
    · have hcount : b.bounds.reverse.countP (· < x) = countBelow b.places (place x) := by
        rw [(List.reverse_perm _).countP_eq, countBelow, Bounds.places, List.countP_map]
        refine List.countP_congr fun d hd => ?_
        rw [decide_eq_true_iff, Scalar.lt_iff_place (hnumbers d hd) hx]
        simp
      have hproper : place p.lower < place p.upper ∨
          place p.lower = place Scalar.missing ∧ place p.upper = place Scalar.missing := by
        obtain ⟨earlier, later, rfl⟩ := List.append_of_mem hp
        exact h.follows.proper.imp_right (·.2)
      rw [hmeets, hcount, Option.some_inj, Bool.eq_iff_iff, decide_eq_true_iff]
      exact (hcollected.bounded p hp).covers_iff hlower hupper hproper hx

end Descriptor

namespace Orders

/-- Orders without an amount, those above 10 and up to 25, and those above 40. -/
def amounts : List Partile :=
  [.interval Scalar.missing Scalar.missing 1, .interval 10 25 2, .interval 40 Scalar.maxValue 5]

theorem inARow_amounts : Partile.InARow amounts where
  intervals := by decide
  numbers := by decide +kernel
  ordered := by decide +kernel
  proper := by decide +kernel
  greatest := by decide +kernel
  least := by decide +kernel

end Orders

/-- An order of 12 lies above two of the four bounds of amounts, in the cell of the second interval,
whose criterion it meets. -/
theorem amounts_cut :
    ∃ f, (Partile.interval 10 25 2).criterion (.field "amount") .continuous = .ok f ∧
      (intervalDescriptor Orders.amounts).2.cellOf.lookup 2 = some 2 ∧
      (Operand.field "amount").meets (.continuous 12) f = some true := by
  obtain ⟨bounds, hbounds, -, -, -, hcuts⟩ := intervalDescriptor_cuts Orders.inARow_amounts
  obtain ⟨f, cell, hf, hcell, hmeets⟩ :=
    hcuts (.field "amount") 12 (by decide +kernel) (.interval 10 25 2) (by decide +kernel)
  have hlookup : (intervalDescriptor Orders.amounts).2.cellOf.lookup 2 = some 2 := by decide +kernel
  obtain rfl : cell = 2 := Option.some.inj (hcell.symm.trans hlookup)
  have hformula : (intervalDescriptor Orders.amounts).1 =
      ⟨"IntervalBounds", [Scalar.missing, 10, 25, 40].map .continuous⟩ := by decide +kernel
  have hinj : Function.Injective Operand.continuous := fun _ _ h => by cases h; rfl
  obtain rfl : bounds = [Scalar.missing, 10, 25, 40] :=
    hinj.list_map (Formula.mk.inj (hbounds.symm.trans hformula)).2
  have hcount : [Scalar.missing, 10, 25, 40].countP (· < (12 : Float)) = 2 := by decide +kernel
  rw [hcount] at hmeets
  exact ⟨f, hf, hlookup, hmeets⟩

end FeatureSynth
