/-
# What a criterion says of a value

The criterion of a partile is a formula on one operand.  `Operand.meets` reads it
where the operand has a value: the operators that criteria are made of have their
meaning, and whatever is no criterion on the operand says nothing.  Records meet
the criterion of a partile, and blocks give it a cell of the descriptor; that the
two agree is stated by means of this reading.
-/
import FeatureSynth.Proofs.Scalar.Order
import FeatureSynth.Proofs.Space.Cells
import FeatureSynth.Rule.Formula

namespace FeatureSynth

namespace Operand

theorem symbol_inj {v w : String} : Operand.symbol v = .symbol w ↔ v = w :=
  ⟨fun h => by cases h; rfl, fun h => h ▸ rfl⟩

theorem symbol_mem_map {v : String} {l : List String} : Operand.symbol v ∈ l.map .symbol ↔ v ∈ l :=
  List.mem_map_of_injective fun _ _ => symbol_inj.mp

/-- Whether a value of an operand meets a comparison on that operand. -/
def test (operand : Operand) : String → List Operand → Constant → Option Bool
  | "EQc", [x, .constant (.symbol s)], .symbol v => if x = operand then some (v == s) else none
  | "InGroup", [.nested "ValueGroup" listed, x], .symbol v =>
    if x = operand then some (decide (.symbol v ∈ listed)) else none
  | "EQ", [x, .constant (.continuous c)], .continuous v =>
    if x = operand then some (v == c) else none
  | "NEQ", [x, .constant (.continuous c)], .continuous v =>
    if x = operand then some (v != c) else none
  | "G", [x, .constant (.continuous c)], .continuous v =>
    if x = operand then some (c < v) else none
  | "LE", [x, .constant (.continuous c)], .continuous v =>
    if x = operand then some (v ≤ c) else none
  | "InInterval",
    [.nested "IntervalBounds" [.constant (.continuous l), .constant (.continuous u)], x],
    .continuous v =>
    if x = operand then some (l < v && v ≤ u) else none
  | _, _, _ => none

/-- Whether a value of an operand meets a criterion on that operand. -/
def meets (operand : Operand) (value : Constant) : Formula → Option Bool
  | ⟨"Not", [.nested name operands]⟩ => (operand.test name operands value).map (!·)
  | ⟨name, operands⟩ => operand.test name operands value

end Operand

namespace Partile

/-! ## Values -/

/-- A frequent value meets its own criterion only; the other partile of a level is met by all
values that it does not leave out. -/
theorem criterion_value (operand : Operand) (value : String) (index : Nat) (outside : List String) (v : String) :
    ∃ f, (Partile.value value index outside).criterion operand .symbol = .ok f ∧
      operand.meets (.symbol v) f =
        some (if outside = [] then v == value else decide (v ∉ outside)) := by
  match outside with
  | [] => exact ⟨_, rfl, by simp [Operand.meets, Operand.test, Operand.symbol]⟩
  | o :: outside =>
    refine ⟨_, rfl, ?_⟩
    simp only [Operand.meets, Operand.test, if_pos, Option.map_some, Operand.symbol_mem_map]
    simp

/-! ## Intervals -/

/-- The greatest value an interval leaves out below; that of a value means nothing. -/
def lower : Partile → Float
  | .interval lower _ _ => lower
  | .value .. => Scalar.missing

/-- The greatest value of an interval; that of a value means nothing. -/
def upper : Partile → Float
  | .interval _ upper _ => upper
  | .value .. => Scalar.missing

/-- Whether an interval has no lower end: it is the missing value, or the first one of its
granularity, which takes the missing value with the least numbers. -/
def openBelow (p : Partile) : Bool :=
  p.upper == Scalar.missing ||
    (p.lower == Scalar.missing && p.index == 0 && p.upper != Scalar.maxValue)

/-- Whether a value lies in an interval.  The greatest upper bound is none. -/
def covers (p : Partile) (x : Float) : Bool :=
  (p.openBelow || p.lower < x) && (p.upper == Scalar.maxValue || x ≤ p.upper)

theorem covers_interval (lower upper : Float) (index : Nat) (x : Float) :
    (interval lower upper index).covers x =
      (((upper == Scalar.missing ||
          (lower == Scalar.missing && index == 0 && upper != Scalar.maxValue)) || lower < x) &&
        (upper == Scalar.maxValue || x ≤ upper)) := rfl

/-- The criterion of an interval is met by the values that lie in it. -/
theorem criterion_interval (operand : Operand) {p : Partile} (hof : p.isOf .continuous = true)
    (hlower : Scalar.isNaN p.lower = false) (hupper : Scalar.isNaN p.upper = false) {x : Float}
    (hx : Scalar.isNaN x = false) :
    ∃ f, p.criterion operand .continuous = .ok f ∧
      operand.meets (.continuous x) f = some (p.covers x) := by
  obtain ⟨lower, upper, index⟩ | _ := p
  case value => cases hof
  simp only [Partile.lower, Partile.upper] at hlower hupper
  rw [covers_interval]
  simp only [criterion]
  by_cases hmissing : (upper == Scalar.missing) = true
  · have hmax : (upper == Scalar.maxValue) = false := by
      rw [← Bool.not_eq_true, Scalar.beq_iff_place hupper Scalar.isNaN_maxValue,
        (Scalar.beq_iff_place hupper Scalar.isNaN_missing).mp hmissing]
      exact Scalar.place_missing_lt_maxValue.ne
    have hmet : (x == Scalar.missing) = decide (x ≤ upper) := by
      rw [Bool.eq_iff_iff, decide_eq_true_iff, Scalar.beq_iff_place hx Scalar.isNaN_missing,
        Scalar.le_iff_place hx hupper,
        (Scalar.beq_iff_place hupper Scalar.isNaN_missing).mp hmissing, Scalar.place_le_missing_iff]
    refine ⟨_, if_pos hmissing, ?_⟩
    simp [Operand.meets, Operand.test, Operand.missing, hmissing, hmax, hmet]
  rw [if_neg hmissing]
  rw [Bool.not_eq_true] at hmissing
  by_cases hmax : (upper == Scalar.maxValue) = true
  · by_cases hleast : (lower == Scalar.missing) = true
    · have hmet : (x == Scalar.missing) = !decide (lower < x) := by
        rw [Bool.eq_iff_iff, Bool.not_eq_true', decide_eq_false_iff_not,
          Scalar.beq_iff_place hx Scalar.isNaN_missing, Scalar.lt_iff_place hlower hx,
          (Scalar.beq_iff_place hlower Scalar.isNaN_missing).mp hleast, not_lt,
          Scalar.place_le_missing_iff]
      refine ⟨_, if_pos (by simp [hleast, hmax]), ?_⟩
      simp [Operand.meets, Operand.test, Operand.missing, hmissing, hmax, hmet, bne]
    · refine ⟨_, by simp [hleast, hmax]; rfl, ?_⟩
      simp [Operand.meets, Operand.test, Operand.continuous, hmissing, hmax, bne]
  · rw [Bool.not_eq_true] at hmax
    by_cases hfirst : (lower == Scalar.missing && index == 0) = true
    · refine ⟨_, by simp [hmax, hfirst]; rfl, ?_⟩
      simp [Operand.meets, Operand.test, Operand.continuous, hmissing, hmax, hfirst, bne]
    · refine ⟨_, by simp [hmax, hfirst]; rfl, ?_⟩
      simp [Operand.meets, Operand.test, Operand.continuous, hmissing, hmax, hfirst]

end Partile

end FeatureSynth
