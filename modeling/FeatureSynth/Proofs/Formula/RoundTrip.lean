/-
# A printed formula reads as itself

The lexer and the parser are taken as one machine over the text: a stage of the
parser reads the rest of the text as a formula if the next token leads to a stage
that reads what is left.  Printed text is read from its end: an operand in front of
a text is read if, behind that operand, the text is.  What follows an operand starts
with a comma or a closing parenthesis, which is where its last token ends, and what
keeps a bare field name from being read as the operator of a formula.

Of the text of a double only one thing is asked: that alone it is the one token of
its value.
-/
import FeatureSynth.Proofs.Formula.StackMachine
import FeatureSynth.Proofs.Formula.Tokens

namespace FeatureSynth

/-! ## Formulas whose text can be read -/

/-- The text of a double is the one token of its value. -/
def Scalar.Readable (value : Float) : Prop :=
  ∃ offset token, Token.ofText (String.ofList (constantText value)) = .ok [⟨offset, token⟩] ∧
    (token = .number value ∨ token = .missing ∧ value = missing)

def Constant.Readable : Constant → Prop
  | .continuous value => Scalar.Readable value
  | .symbol _ => True

namespace Operand

mutual

/-- Operators are identifiers throughout, and doubles have readable texts. -/
def Readable : Operand → Prop
  | .field _ => True
  | .constant value => value.Readable
  | .nested name operands => Text.isIdent name.toList = true ∧ ReadableAll operands

def ReadableAll : List Operand → Prop
  | [] => True
  | x :: xs => Readable x ∧ ReadableAll xs

end

end Operand

def Formula.Readable (f : Formula) : Prop := (Operand.ofFormula f).Readable

/-! ## Reading -/

namespace Parser

variable {f : Formula} {stage stage' : Stage} {s rest : List Char}

/-- From a stage on, a text is read as a formula. -/
inductive Reads (f : Formula) : Stage → List Char → Prop
  | done {s : List Char} : Text.trimStart s = [] → Reads f (.complete f) s
  | step {stage stage' : Stage} {s rest : List Char} {lexeme : Token.Lexeme} {t : Token} :
      Token.scan (Text.trimStart s) = some (lexeme, rest) →
      (∀ text, lexeme.token? text = .ok t) → stage.next? t = some stage' → Reads f stage' rest →
      Reads f stage s

namespace Reads

/-- Where a text is read as a formula, its tokens are there and spell it. -/
theorem run (h : Reads f stage s) : ∀ offset, ∃ tokens,
    Token.ofRest offset s = .ok tokens ∧ Parser.run stage tokens = .ok f := by
  induction h with
  | done htrim => exact fun offset => ⟨[], Token.ofRest_of_trimStart htrim offset, rfl⟩
  | step hscan htoken hnext _ ih =>
    intro offset
    obtain ⟨start, behind, hcons⟩ := Token.ofRest_of_scan hscan htoken offset
    obtain ⟨tokens, hrest, hrun⟩ := ih behind
    refine ⟨_, hcons tokens hrest, ?_⟩
    simp only [Parser.run, hnext, hrun]

/-! ## Blanks and marks -/

/-- Blanks in front of a text do not matter. -/
theorem blanks (bs : List Char) (hbs : ∀ b ∈ bs, Text.isBlank b = true) (h : Reads f stage s) :
    Reads f stage (bs ++ s) := by
  have htrim : Text.trimStart (bs ++ s) = Text.trimStart s :=
    List.dropWhile_append_of_pos hbs
  cases h with
  | done hdone => exact .done (htrim.trans hdone)
  | step hscan htoken hnext hrest => exact .step (htrim ▸ hscan) htoken hnext hrest

theorem token {t : Token} (hscan : Token.scan (Text.trimStart s) = some (.token t, rest))
    (hnext : stage.next? t = some stage') (h : Reads f stage' rest) : Reads f stage s :=
  .step hscan (fun _ => rfl) hnext h

theorem comma (hnext : stage.next? .comma = some stage') (h : Reads f stage' rest) :
    Reads f stage (',' :: rest) := token rfl hnext h

theorem closing (hnext : stage.next? .closing = some stage') (h : Reads f stage' rest) :
    Reads f stage (')' :: rest) := token rfl hnext h

theorem opening (hnext : stage.next? .opening = some stage') (h : Reads f stage' rest) :
    Reads f stage ('(' :: rest) := token rfl hnext h

/-- Before a separator, a field is what an identifier in the place of an operand is. -/
theorem word {name : String} {frame : Frame} {outer : List Frame} {c : Char} {tail : List Char}
    (hc : Text.Separates c) (h : Reads f (.filled (frame.push (.field name)) outer) (c :: tail)) :
    Reads f (.word name frame outer) (c :: tail) := by
  cases h with
  | step hscan htoken hnext hrest =>
    refine .step hscan htoken ?_ hrest
    rcases hc with rfl | rfl
    all_goals
      cases hscan
      cases htoken []
      exact hnext

end Reads

/-! ## Operands -/

/-- A stage takes the first token of an operand of a frame. -/
def Stage.Takes (stage : Stage) (frame : Frame) (outer : List Frame) : Prop :=
  ∀ t stage', operand? frame outer t = some stage' → stage.next? t = some stage'

theorem takes_wanting (frame : Frame) (outer : List Frame) :
    (Stage.wanting frame outer).Takes frame outer := fun _ _ h => h

theorem takes_opened (frame : Frame) (outer : List Frame) :
    (Stage.opened frame outer).Takes frame outer := by
  intro t stage' h
  cases t <;> first | exact h | cases h

namespace Reads

variable {frame : Frame} {outer : List Frame} {c : Char} {tail : List Char}

/-- An identifier is read in front of what it does not go on with. -/
theorem ident {name : String} (hname : Text.isIdent name.toList = true)
    (hc : Text.isIdentRest c = false) (hnext : stage.next? (.ident name) = some stage')
    (h : Reads f stage' (c :: tail)) : Reads f stage (name.toList ++ c :: tail) := by
  refine token ?_ hnext h
  rw [← Token.scan_ident hname hc tail]
  congr 1
  cases hchars : name.toList with
  | nil =>
    rw [hchars] at hname
    cases hname
  | cons d chars =>
    rw [hchars] at hname
    obtain ⟨hstart, -⟩ := Bool.and_eq_true_iff.mp hname
    exact Text.trimStart_cons (Text.isBlank_eq_false_of_isIdentStart hstart) _

theorem field (hstage : stage.Takes frame outer) (hc : Text.Separates c) (name : String)
    (h : Reads f (.filled (frame.push (.field name)) outer) (c :: tail)) :
    Reads f stage (Formula.fieldChars name.toList ++ c :: tail) := by
  unfold Formula.fieldChars
  split
  · rename_i hname
    exact ident hname hc.not_identRest (hstage _ _ rfl) (word hc h)
  · have hquote : c ≠ Text.backQuote := by rcases hc with rfl | rfl <;> decide
    refine token ?_ (hstage (.quoted name) _ rfl) h
    rw [List.append_assoc, List.cons_append, Text.trimStart_cons (by decide)]
    exact Token.scan_quoted name hquote tail

theorem symbol (hstage : stage.Takes frame outer) (text : String)
    (h : Reads f (.filled (frame.push (.symbol text)) outer) (c :: tail)) :
    Reads f stage ('"' :: Text.escaped text.toList ++ ['"'] ++ c :: tail) := by
  refine token ?_ (hstage (.text text) _ rfl) h
  rw [List.append_assoc, List.cons_append, Text.trimStart_cons (by decide)]
  exact Token.scan_text text (c :: tail)

theorem continuous (hstage : stage.Takes frame outer) (hc : Text.Separates c) {value : Float}
    (hvalue : Scalar.Readable value)
    (h : Reads f (.filled (frame.push (.continuous value)) outer) (c :: tail)) :
    Reads f stage (Scalar.constantText value ++ c :: tail) := by
  obtain ⟨offset, t, htext, ht⟩ := hvalue
  obtain ⟨l, rest, hscan, htoken, hrest⟩ := Token.scan_of_ofText htext
  rw [String.toList_ofList] at hscan
  have hnext : operand? frame outer t = some (.filled (frame.push (.continuous value)) outer) := by
    rcases ht with rfl | ⟨rfl, rfl⟩ <;> rfl
  have hkind : t.IsValue := by
    rcases ht with rfl | ⟨rfl, -⟩ <;> trivial
  have hfront : Token.scan (Text.trimStart (Scalar.constantText value ++ c :: tail)) =
      some (l, rest ++ c :: tail) := by
    rw [Text.trimStart, (Text.takeWhile_append_of_stop hc.not_blank tail _).2]
    exact Token.scan_append hc hscan (htoken []) hkind
  exact .step hfront htoken (hstage t _ hnext)
    (h.blanks rest (List.dropWhile_eq_nil_iff.mp hrest))

end Reads

/-! ## Formulas -/

open Operand

mutual

/-- An operand in front of a text is read if, behind it, the text is. -/
theorem reads_operand : ∀ (x : Operand), x.Readable → ∀ {stage frame outer c tail},
    stage.Takes frame outer → Text.Separates c → Reads f (.filled (frame.push x) outer) (c :: tail) →
      Reads f stage (x.chars ++ c :: tail)
  | .field name, _, _, _, _, _, _, hstage, hc, h => by
      rw [chars]
      exact h.field hstage hc name
  | .constant (.symbol text), _, _, _, _, _, _, hstage, _, h => by
      rw [chars, Constant.chars]
      exact h.symbol hstage text
  | .constant (.continuous value), hvalue, _, _, _, _, _, hstage, hc, h => by
      rw [chars, Constant.chars]
      exact h.continuous hstage hc hvalue
  | .nested name operands, hreadable, _, frame, outer, c, tail, hstage, hc, h => by
      obtain ⟨hname, hall⟩ := hreadable
      have hclosed : close ⟨name, operands.reverse ++ []⟩ (frame :: outer) =
          .filled (frame.push (.nested name operands)) outer := by
        simp [close, Frame.formula, ofFormula]
      have hparenthesis : Text.isIdentRest '(' = false := by decide
      simp only [chars, List.append_assoc, List.cons_append, List.nil_append]
      -- the operator is read as a word, and the parenthesis says that it is one
      refine .ident hname hparenthesis (hstage _ _ rfl) (.opening rfl ?_)
      exact reads_operands operands hall (takes_opened ⟨name, []⟩ (frame :: outer)) (fun _ => rfl)
        (hclosed ▸ h)

/-- So are the operands of a formula up to its closing parenthesis. -/
theorem reads_operands : ∀ (xs : List Operand), ReadableAll xs → ∀ {stage frame outer tail},
    stage.Takes frame outer → (xs = [] → stage.next? .closing = some (close frame outer)) →
      Reads f (close ⟨frame.name, xs.reverse ++ frame.operands⟩ outer) tail →
      Reads f stage (charsList xs ++ ')' :: tail)
  | [], _, stage, frame, outer, tail, hstage, hempty, h => by
      rw [charsList]
      exact .closing (hempty rfl) h
  | [x], hall, stage, frame, outer, tail, hstage, _, h => by
      rw [charsList]
      exact reads_operand x hall.1 hstage (.inr rfl) (.closing rfl h)
  | x :: y :: xs, hall, stage, frame, outer, tail, hstage, _, h => by
      have hblank : ∀ b ∈ [' '], Text.isBlank b = true := by simp [Text.isBlank]
      rw [charsList, List.append_assoc, List.cons_append, List.cons_append]
      refine reads_operand x hall.1 hstage (.inl rfl) (.comma rfl (.blanks [' '] hblank ?_))
      refine reads_operands (y :: xs) hall.2 (takes_wanting (frame.push x) outer)
        (fun h => nomatch h) ?_
      rw [List.reverse_cons, List.append_assoc] at h
      exact h

end

end Parser

/-- What is read as a formula from the start is its text. -/
theorem Parser.Reads.ofText {text : String} (h : Reads f .start text.toList) :
    Formula.ofText text = .ok f := by
  obtain ⟨tokens, htokens, hrun⟩ := h.run 0
  rw [Formula.ofText_eq_run htokens, hrun]

namespace Formula

/-- The text of a formula is read as the formula. -/
theorem reads (f : Formula) (h : f.Readable) : Parser.Reads f .start f.text.toList := by
  obtain ⟨hname, hall⟩ := h
  have hclosed : Parser.close ⟨f.name, f.operands.reverse ++ []⟩ [] = .complete f := by
    simp [Parser.close, Parser.Frame.formula]
  have hparenthesis : Text.isIdentRest '(' = false := by decide
  simp only [text, Formula.chars, String.toList_ofList, Operand.ofFormula, Operand.chars,
    List.append_assoc, List.cons_append]
  refine .ident hname hparenthesis rfl (.opening rfl ?_)
  refine Parser.reads_operands f.operands hall (Parser.takes_opened ⟨f.name, []⟩ [])
    (fun _ => rfl) ?_
  rw [hclosed]
  exact .done rfl

/-- A formula whose operators are identifiers and whose doubles have readable texts is what its text
spells, whatever its field names and symbols are. -/
theorem ofText_text (f : Formula) (h : f.Readable) : ofText f.text = .ok f := (f.reads h).ofText

end Formula

/-! ## A formula of odd names -/

namespace Scalar

theorem readable_of_scan {value : Float} {l : Token.Lexeme} {t : Token}
    (hscan : Token.scan (Text.trimStart (constantText value)) = some (l, []))
    (ht : ∀ text, l.token? text = .ok t)
    (hvalue : t = .number value ∨ t = .missing ∧ value = missing) : Readable value := by
  obtain ⟨start, behind, hcons⟩ := Token.ofRest_of_scan hscan ht 0
  refine ⟨start, t, ?_, hvalue⟩
  rw [Token.ofText, String.toList_ofList]
  exact hcons [] (Token.ofRest_of_trimStart rfl behind)

theorem readable_missing : Readable missing :=
  readable_of_scan (l := .token .missing) (by decide +kernel) (fun _ => rfl) (.inr ⟨rfl, rfl⟩)

theorem readable_maxValue : Readable maxValue := by
  refine readable_of_scan (l := .numeral ⟨false, ['1'], [], some (false, ['1', '0', '0'])⟩)
    (by decide +kernel) (fun text => ?_) (.inl rfl)
  have hvalue : Numeral.value? ⟨false, ['1'], [], some (false, ['1', '0', '0'])⟩ =
      some maxValue := by decide +kernel
  rw [Token.Lexeme.token?, hvalue]

end Scalar

/-- Fields whose names need quotes, one of them empty, and a symbol with all that is escaped. -/
def Formula.odd : Formula :=
  ⟨"And",
    [.nested "EQc" [.field "Customer.channel", .symbol "say \"hi\" \\ (\n)"],
      .nested "InInterval" [.nested "IntervalBounds" [.missing, .continuous Scalar.maxValue],
        .field "a`b, c)"],
      .nested "Now" [], .field "", .field "x"]⟩

theorem Formula.odd_reads_back :
    Formula.odd.Readable ∧ Formula.ofText Formula.odd.text = .ok Formula.odd := by
  have h : Formula.odd.Readable :=
    ⟨rfl, ⟨rfl, trivial, trivial, trivial⟩,
      ⟨rfl, ⟨rfl, Scalar.readable_missing, Scalar.readable_maxValue, trivial⟩, trivial, trivial⟩,
      ⟨rfl, trivial⟩, trivial, trivial, trivial⟩
  exact ⟨h, Formula.ofText_text Formula.odd h⟩

end FeatureSynth
