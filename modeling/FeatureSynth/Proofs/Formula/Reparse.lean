/-
# Formulas read from a text are read back, but for two doubles

An operator that was read from a text is an identifier, since the parser takes it
from an identifier token, and a constant that was read is a number, since no numeral
stands for NaN.  So the text of such a formula is read again, whatever numerals and
quotes it was spelled with.

It is read as the formula with two kinds of constants changed (`Formula.settled`):
negative zero is printed without its sign, and positive infinity, which a numeral
beyond the doubles stands for, is printed as a word that is read as a field name.
-/
import FeatureSynth.Proofs.Decimal.Readable
import FeatureSynth.Proofs.Formula.Grammar

namespace FeatureSynth

/-! ## What tokens can hold -/

/-- Identifiers are names that need no quotes, and numbers are numbers. -/
def Token.Proper : Token → Prop
  | .ident name => Text.isIdent name.toList = true
  | .number value => Scalar.isNaN value = false
  | _ => True

namespace Token

/-- What a lexeme must be for its token to be proper. -/
def Lexeme.Proper : Lexeme → Prop
  | .token t => t.Proper
  | .numeral _ => True

theorem Lexeme.Proper.token {l : Lexeme} {t : Token} {text : List Char} (h : l.Proper)
    (ht : l.token? text = .ok t) : t.Proper := by
  cases l with
  | token t' =>
    cases ht
    exact h
  | numeral n =>
    rw [Lexeme.token?] at ht
    split at ht
    · rename_i value hvalue
      cases ht
      exact Numeral.isNaN_value hvalue
    · cases ht

theorem proper_of_scan {s rest : List Char} {l : Lexeme} (h : scan s = some (l, rest)) : l.Proper := by
  unfold scan at h
  split at h
  · cases h
  · cases h
    trivial
  · cases h
    trivial
  · cases h
    trivial
  · obtain ⟨_, -, heq⟩ := Option.map_eq_some_iff.mp h
    cases heq
    trivial
  · obtain ⟨_, -, heq⟩ := Option.map_eq_some_iff.mp h
    cases heq
    trivial
  · split at h
    · cases h
      trivial
    · split at h
      · rename_i hstart
        cases h
        show Text.isIdent (String.ofList _).toList = true
        rw [String.toList_ofList]
        exact Bool.and_eq_true_iff.mpr
          ⟨hstart, List.all_eq_true.mpr fun d hd => List.mem_takeWhile_imp hd⟩
      · obtain ⟨_, -, heq⟩ := Option.map_eq_some_iff.mp h
        cases heq
        trivial

theorem proper_of_ofRest : ∀ {tokens : List Located} {s : List Char} {offset : Nat},
    ofRest offset s = .ok tokens → ∀ t ∈ tokens, t.token.Proper
  | [], _, _, _ => nofun
  | t :: tokens, s, offset, h => by
      obtain ⟨-, hnone⟩ | ⟨l, rest, t', start, behind, more, hscan, ht, hrest, heq, -⟩ := ofRest_eq_ok h
      · cases hnone
      · cases heq
        intro t hmem
        obtain rfl | hmem := List.mem_cons.mp hmem
        · exact (proper_of_scan hscan).token (ht [])
        · exact proper_of_ofRest hrest t hmem

end Token

/-! ## What formulas read from a text can hold -/

namespace Operand

mutual

/-- Operators are identifiers, and constants are numbers. -/
def Proper : Operand → Prop
  | .field _ => True
  | .constant (.symbol _) => True
  | .constant (.continuous value) => Scalar.isNaN value = false
  | .nested name operands => Text.isIdent name.toList = true ∧ ProperAll operands

def ProperAll : List Operand → Prop
  | [] => True
  | x :: xs => Proper x ∧ ProperAll xs

end

end Operand

mutual

theorem DerivesFormula.proper : ∀ {ts : List Token} {f : Formula}, DerivesFormula ts f →
    (∀ t ∈ ts, t.Proper) → (Operand.ofFormula f).Proper
  | _, _, .bare name, h => ⟨h (.ident name) List.mem_cons_self, trivial⟩
  | _, _, @DerivesFormula.applied ts xs name hxs, h =>
      ⟨h (.ident name) List.mem_cons_self, hxs.proper fun t ht => h t (by simp [ht])⟩

theorem DerivesOperands.proper : ∀ {ts : List Token} {xs : List Operand}, DerivesOperands ts xs →
    (∀ t ∈ ts, t.Proper) → Operand.ProperAll xs
  | _, _, .one hx, h => ⟨hx.proper h, trivial⟩
  | _, _, .more hx hxs, h =>
      ⟨hx.proper fun t ht => h t (by simp [ht]), hxs.proper fun t ht => h t (by simp [ht])⟩

theorem DerivesOperand.proper : ∀ {ts : List Token} {x : Operand}, DerivesOperand ts x →
    (∀ t ∈ ts, t.Proper) → x.Proper
  | _, _, .formula hf, h => hf.proper h
  | _, _, .ident _, _ => trivial
  | _, _, .quoted _, _ => trivial
  | _, _, .text _, _ => trivial
  | _, _, .number value, h => h (.number value) List.mem_cons_self
  | _, _, .missing, _ => Scalar.isNaN_missing

end

/-! ## What is read back -/

namespace Scalar

/-- Positive infinity, which large numerals stand for. -/
def infinity : Float := Float.ofBits 0x7ff0000000000000

/-- Zero with a minus sign. -/
def negativeZero : Float := Float.ofBits 0x8000000000000000

theorem readable_of_ne {x : Float} (hnan : isNaN x = false) (hinfinity : x ≠ infinity)
    (hzero : x ≠ negativeZero) : Readable x := by
  refine readable hnan (fun h => hinfinity ?_) fun e h => hzero ?_
  · have hdecode : decode infinity = .infinite false := by decide +kernel
    exact eq_of_decode (h.trans hdecode.symm)
  · rw [eq_pack_decode x, h]
    show Float.ofModel (Float.Model.pack (.zero .negative)) = negativeZero
    decide +kernel

end Scalar

namespace Operand

/-- What a constant is read back as: negative zero loses its sign, and the word that positive infinity
is printed as is the name of a field. -/
def settledValue (value : Float) : Operand :=
  if value = Scalar.negativeZero then .continuous 0
  else if value = Scalar.infinity then .field "inf"
  else .continuous value

mutual

/-- What an operand is read back as. -/
def settled : Operand → Operand
  | .field name => .field name
  | .constant (.symbol text) => .symbol text
  | .constant (.continuous value) => settledValue value
  | .nested name operands => .nested name (settledAll operands)

def settledAll : List Operand → List Operand
  | [] => []
  | x :: xs => settled x :: settledAll xs

end

mutual

/-- The doubles of an operand, at any depth. -/
def doubles : Operand → List Float
  | .field _ => []
  | .constant (.symbol _) => []
  | .constant (.continuous value) => [value]
  | .nested _ operands => doublesAll operands

def doublesAll : List Operand → List Float
  | [] => []
  | x :: xs => doubles x ++ doublesAll xs

end

theorem settledValue_readable {value : Float} (h : Scalar.isNaN value = false) :
    (settledValue value).Readable := by
  unfold settledValue
  split
  · exact Scalar.readable_of_ne (x := 0) (by decide +kernel) (by decide +kernel) (by decide +kernel)
  · rename_i hzero
    split
    · trivial
    · rename_i hinfinity
      exact Scalar.readable_of_ne h hinfinity hzero

theorem settledValue_chars (value : Float) : (settledValue value).chars = Scalar.constantText value := by
  unfold settledValue
  split
  · rename_i h
    rw [h]
    decide +kernel
  · split
    · rename_i h
      rw [h]
      decide +kernel
    · rfl

theorem settledValue_eq_iff (value : Float) :
    settledValue value = .continuous value ↔ value ≠ Scalar.infinity ∧ value ≠ Scalar.negativeZero := by
  unfold settledValue
  split
  · rename_i h
    have hzero : (0 : Float) ≠ Scalar.negativeZero := by decide +kernel
    rw [h]
    exact ⟨fun heq => absurd (Constant.continuous.inj (Operand.constant.inj heq)) hzero,
      fun hno => absurd rfl hno.2⟩
  · rename_i hzero
    split
    · rename_i hinfinity
      exact ⟨nofun, fun hno => absurd hinfinity hno.1⟩
    · rename_i hinfinity
      exact ⟨fun _ => ⟨hinfinity, hzero⟩, fun _ => rfl⟩

mutual

/-- What an operand is read back as can be read. -/
theorem settled_readable : ∀ x : Operand, x.Proper → x.settled.Readable
  | .field _, _ => trivial
  | .constant (.symbol _), _ => trivial
  | .constant (.continuous _), h => settledValue_readable h
  | .nested _ operands, h => ⟨h.1, settledAll_readable operands h.2⟩

theorem settledAll_readable : ∀ xs : List Operand, ProperAll xs → ReadableAll (settledAll xs)
  | [], _ => trivial
  | x :: xs, h => ⟨settled_readable x h.1, settledAll_readable xs h.2⟩

end

mutual

/-- An operand is printed as what it is read back as. -/
theorem settled_chars : ∀ x : Operand, x.settled.chars = x.chars
  | .field _ => rfl
  | .constant (.symbol _) => rfl
  | .constant (.continuous value) => settledValue_chars value
  | .nested name operands => by
      rw [settled, chars, chars, settledAll_chars operands]

theorem settledAll_chars : ∀ xs : List Operand, charsList (settledAll xs) = charsList xs
  | [] => rfl
  | [x] => settled_chars x
  | x :: y :: xs => by
      have htail := settledAll_chars (y :: xs)
      rw [settledAll] at htail
      rw [settledAll, settledAll, charsList, charsList, settled_chars x, htail]

end

mutual

/-- An operand is read back as itself if none of its doubles is lost. -/
theorem settled_eq_iff : ∀ x : Operand, x.settled = x ↔
    ∀ value ∈ x.doubles, value ≠ Scalar.infinity ∧ value ≠ Scalar.negativeZero
  | .field _ => ⟨fun _ => nofun, fun _ => rfl⟩
  | .constant (.symbol _) => ⟨fun _ => nofun, fun _ => rfl⟩
  | .constant (.continuous value) => by
      rw [settled, doubles, List.forall_mem_singleton]
      exact settledValue_eq_iff value
  | .nested name operands => by
      rw [settled, doubles, ← settledAll_eq_iff operands]
      exact ⟨fun h => (Operand.nested.inj h).2, congrArg _⟩

theorem settledAll_eq_iff : ∀ xs : List Operand, settledAll xs = xs ↔
    ∀ value ∈ doublesAll xs, value ≠ Scalar.infinity ∧ value ≠ Scalar.negativeZero
  | [] => ⟨fun _ => nofun, fun _ => rfl⟩
  | x :: xs => by
      rw [settledAll, doublesAll, List.forall_mem_append, ← settled_eq_iff x, ← settledAll_eq_iff xs,
        List.cons.injEq]

end

end Operand

namespace Formula

/-- What a formula is read back as. -/
def settled (f : Formula) : Formula := ⟨f.name, Operand.settledAll f.operands⟩

/-- The doubles of a formula, at any depth. -/
def doubles (f : Formula) : List Float := Operand.doublesAll f.operands

theorem settled_text (f : Formula) : f.settled.text = f.text := by
  have h := Operand.settled_chars (.ofFormula f)
  exact congrArg String.ofList h

/-- The text of a formula that was read from a text is read again.  Negative zeros come back without their
sign, and positive infinities as references to a field; where the formula has neither, at any depth, it
comes back as itself, and only there. -/
theorem ofText_text_of_ofText {text : String} {f : Formula} (h : ofText text = .ok f) :
    ofText f.text = .ok f.settled ∧
      (f.settled = f ↔
        ∀ value ∈ f.doubles, value ≠ Scalar.infinity ∧ value ≠ Scalar.negativeZero) := by
  have hproper : (Operand.ofFormula f).Proper := by
    cases htokens : Token.ofText text with
    | error e =>
      rw [ofText, htokens] at h
      cases h
    | ok tokens =>
      rw [ofText_eq_run htokens] at h
      have hderives := Parser.derivesFormula_iff.mpr (Parser.run_eq_ok_iff.mp h)
      refine hderives.proper fun t ht => ?_
      obtain ⟨located, hlocated, rfl⟩ := List.mem_map.mp ht
      exact Token.proper_of_ofRest htokens located hlocated
  have hreadable : f.settled.Readable := Operand.settled_readable (.ofFormula f) hproper
  refine ⟨?_, ?_⟩
  · rw [← settled_text]
    exact (f.settled.reads hreadable).ofText
  · rw [doubles, ← Operand.settledAll_eq_iff]
    exact ⟨fun h => (Formula.mk.inj h).2, fun h => congrArg (Formula.mk f.name) h⟩

/-- A negative zero and a number beyond the doubles come back changed, a fraction as it was. -/
theorem zero_infinity_half_settled :
    ofText "And(-0, 1e400, .5)" =
        .ok ⟨"And", [.continuous Scalar.negativeZero, .continuous Scalar.infinity, .continuous 0.5]⟩ ∧
      ofText "And(0, inf, 0.5)" = .ok ⟨"And", [.continuous 0, .field "inf", .continuous 0.5]⟩ := by
  have hread : ofText "And(-0, 1e400, .5)" =
      .ok ⟨"And", [.continuous Scalar.negativeZero, .continuous Scalar.infinity, .continuous 0.5]⟩ := by
    decide +kernel
  obtain ⟨hback, -⟩ := ofText_text_of_ofText hread
  have htext : text ⟨"And", [.continuous Scalar.negativeZero, .continuous Scalar.infinity,
      .continuous 0.5]⟩ = "And(0, inf, 0.5)" := by decide +kernel
  have hsettled : settled ⟨"And", [.continuous Scalar.negativeZero, .continuous Scalar.infinity,
      .continuous 0.5]⟩ = ⟨"And", [.continuous 0, .field "inf", .continuous 0.5]⟩ := by decide +kernel
  rw [htext, hsettled] at hback
  exact ⟨hread, hback⟩

/-- Not every formula that is read from a text is read back from its own. -/
theorem negativeZero_lost : ¬ ∀ (t : String) (f : Formula), ofText t = .ok f → ofText f.text = .ok f := by
  intro h
  have hread : ofText "F(-0)" = .ok ⟨"F", [.continuous Scalar.negativeZero]⟩ := by decide +kernel
  have hback : ofText (text ⟨"F", [.continuous Scalar.negativeZero]⟩) =
      .ok ⟨"F", [.continuous 0]⟩ := by decide +kernel
  have hlost : (⟨"F", [.continuous 0]⟩ : Formula) ≠ ⟨"F", [.continuous Scalar.negativeZero]⟩ := by
    decide +kernel
  exact hlost (Except.ok.inj (hback.symm.trans (h _ _ hread)))

end Formula

end FeatureSynth
