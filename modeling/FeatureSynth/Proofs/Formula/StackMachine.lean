/-
# The parser as a stack machine

The readers of a formula, its operands and an operand call each other.  What is open
between two tokens, and what may come next, is in their calls, where nothing can be
stated of it.  Here it is in a `Stage`: each open formula is a `Frame` with the
operands read so far, the innermost on top.  The machine takes one token after the
other from stage to stage, and a stage that a token refuses is where the readers fail.

That both read the same (`ofTokens_eq_run`) is proved reader by reader: what a reader
returns leads the machine on from the stage that stands for it, over the tokens left.
-/
import FeatureSynth.Formula.Parser

namespace FeatureSynth

namespace Parser

/-! ## Stages -/

/-- A formula still open: its operator, and its operands so far, the last first. -/
structure Frame where
  name : String
  operands : List Operand
deriving DecidableEq

/-- What has been read. -/
inductive Stage where
  /-- Nothing. -/
  | start
  /-- The operator of the whole formula. -/
  | named (name : String)
  /-- An opening parenthesis. -/
  | opened (frame : Frame) (outer : List Frame)
  /-- A comma. -/
  | wanting (frame : Frame) (outer : List Frame)
  /-- An identifier in the place of an operand: a reference, or the operator of a formula. -/
  | word (name : String) (frame : Frame) (outer : List Frame)
  /-- An operand. -/
  | filled (frame : Frame) (outer : List Frame)
  /-- The whole formula. -/
  | complete (formula : Formula)
deriving DecidableEq

/-- A frame with one more operand. -/
def Frame.push (frame : Frame) (x : Operand) : Frame := ⟨frame.name, x :: frame.operands⟩

/-- The formula of a frame. -/
def Frame.formula (frame : Frame) : Formula := ⟨frame.name, frame.operands.reverse⟩

/-- The stage after a frame's closing parenthesis. -/
def close (frame : Frame) : List Frame → Stage
  | [] => .complete frame.formula
  | parent :: outer => .filled (parent.push (.ofFormula frame.formula)) outer

/-- The stage after an operand's first token; nothing if no operand starts with it. -/
def operand? (frame : Frame) (outer : List Frame) : Token → Option Stage
  | .ident name => some (.word name frame outer)
  | .quoted name => some (.filled (frame.push (.field name)) outer)
  | .text value => some (.filled (frame.push (.symbol value)) outer)
  | .number value => some (.filled (frame.push (.continuous value)) outer)
  | .missing => some (.filled (frame.push .missing) outer)
  | _ => none

/-- The stage after the token that follows an operand; nothing if it is no separator. -/
def separator? (frame : Frame) (outer : List Frame) : Token → Option Stage
  | .comma => some (.wanting frame outer)
  | .closing => some (close frame outer)
  | _ => none

/-- What a stage waits for. -/
def Stage.expected : Stage → Expected
  | .start => .formulaName
  | .named _ => .opening
  | .opened .. | .wanting .. => .operand
  | .word .. | .filled .. => .separator
  | .complete _ => .endOfFormula

/-- The stage after one more token; nothing if the token cannot come here. -/
def Stage.next? : Stage → Token → Option Stage
  | .start, .ident name => some (.named name)
  | .named name, .opening => some (.opened ⟨name, []⟩ [])
  | .opened frame outer, .closing => some (close frame outer)
  | .opened frame outer, t => operand? frame outer t
  | .wanting frame outer, t => operand? frame outer t
  | .word name frame outer, .opening => some (.opened ⟨name, []⟩ (frame :: outer))
  | .word name frame outer, t => separator? (frame.push (.field name)) outer t
  | .filled frame outer, t => separator? frame outer t
  | _, _ => none

/-- The formula read once the tokens have ended. -/
def Stage.finish : Stage → Except FormulaError Formula
  | .complete formula => .ok formula
  | stage => .error (.unexpectedEnd stage.expected)

/-- Takes the remaining tokens from a stage on. -/
def run : Stage → List Located → Except FormulaError Formula
  | stage, [] => stage.finish
  | stage, t :: rest =>
    match stage.next? t.token with
    | some stage' => run stage' rest
    | none => .error (.unexpectedToken t.token t.offset stage.expected)

/-! ## Stages behind readers -/

variable {α β : Type} {ts rest : List Located} {t u : Located} {name : String} {frame : Frame}
variable {outer : List Frame} {stage' : Stage}

/-- Goes on with the tokens that a reader leaves, from the stage that stands for what it read. -/
def goOn (stage : α → Stage) : Except FormulaError (Read α ts) → Except FormulaError Formula
  | .ok r => run (stage r.value) r.rest
  | .error e => .error e

theorem run_cons {stage : Stage} (stage' : Stage) (h : stage.next? t.token = some stage') :
    run stage (t :: rest) = run stage' rest := by
  rw [run, h]

theorem run_refuse {stage : Stage} (h : stage.next? t.token = none) :
    run stage (t :: rest) = refuse t stage.expected := by
  rw [run, h]
  rfl

theorem skip?_cons_eq_some {token : Token} {r : Read Unit (t :: rest)}
    (h : skip? token (t :: rest) = some r) : t.token = token ∧ r.rest = rest := by
  rw [skip?] at h
  split at h
  · rename_i htoken
    cases h
    exact ⟨htoken, rfl⟩
  · cases h

theorem skip?_cons_eq_none {token : Token} (h : skip? token (t :: rest) = none) :
    t.token ≠ token := by
  rw [skip?] at h
  split at h
  · cases h
  · assumption

/-- A token that is skipped leads to the next stage. -/
theorem run_skip {stage : Stage} {token : Token} {r : Read Unit ts} (h : skip? token ts = some r)
    (hnext : stage.next? token = some stage') : run stage ts = run stage' r.rest := by
  cases ts with
  | nil => cases h
  | cons t rest =>
    obtain ⟨htoken, hrest⟩ := skip?_cons_eq_some h
    rw [hrest, run_cons stage' (htoken ▸ hnext)]

/-- An identifier that no parenthesis follows is a reference. -/
theorem run_word (h : skip? .opening ts = none) :
    run (.word name frame outer) ts = run (.filled (frame.push (.field name)) outer) ts := by
  cases ts with
  | nil => rfl
  | cons t rest =>
    have hne := skip?_cons_eq_none h
    have hnext : (Stage.word name frame outer).next? t.token =
        (Stage.filled (frame.push (.field name)) outer).next? t.token := by
      cases htoken : t.token with
      | opening => exact absurd htoken hne
      | _ => rfl
    rw [run, run, hnext]
    rfl

/-- Where no parenthesis closes a formula at once, there have to be operands. -/
theorem run_opened (h : skip? .closing ts = none) :
    run (.opened frame outer) ts = run (.wanting frame outer) ts := by
  cases ts with
  | nil => rfl
  | cons t rest =>
    have hne := skip?_cons_eq_none h
    have hnext : (Stage.opened frame outer).next? t.token =
        (Stage.wanting frame outer).next? t.token := by
      cases htoken : t.token with
      | closing => exact absurd htoken hne
      | _ => rfl
    rw [run, run, hnext]
    rfl

/-- Behind an operator and its parenthesis, the formula is read with its arguments. -/
theorem goOn_formula (stage : Formula → Stage) (ht : t.token = .ident name)
    (hu : u.token = .opening) : goOn stage (formula (t :: u :: rest)) =
      goOn (fun xs => stage ⟨name, xs⟩) (arguments rest) := by
  simp only [formula, next, bind, Except.bind, ht, hu]
  cases arguments rest <;> rfl

/-! ## Readers and stages -/

mutual

/-- Behind an opening parenthesis the machine goes on from the stage that the formula closes to. -/
theorem run_arguments (name : String) (outer : List Frame) (ts : List Located) :
    run (.opened ⟨name, []⟩ outer) ts =
      goOn (fun xs => close ⟨name, xs.reverse⟩ outer) (arguments ts) := by
  rw [arguments]
  cases hskip : skip? .closing ts with
  | some closing => exact run_skip hskip rfl
  | none =>
    rw [run_opened hskip, run_operands name [] outer ts]
    simp only [List.append_nil]
termination_by 4 * ts.length + 3

theorem run_operands (name : String) (read : List Operand) (outer : List Frame)
    (ts : List Located) : run (.wanting ⟨name, read⟩ outer) ts =
      goOn (fun xs => close ⟨name, xs.reverse ++ read⟩ outer) (operands ts) := by
  rw [run_operand ⟨name, read⟩ outer ts, operands]
  cases operand ts with
  | error e => rfl
  | ok first =>
    obtain ⟨x, behind, shorter⟩ := first
    cases behind with
    | nil => rfl
    | cons t rest =>
      have hless : 4 * rest.length + 2 < 4 * ts.length + 2 := by
        rw [List.length_cons] at shorter
        omega
      have hothers := run_operands name (x :: read) outer rest
      simp only [goOn, next, bind, Except.bind, Frame.push]
      cases ht : t.token with
      | comma =>
        rw [run_cons (.wanting ⟨name, x :: read⟩ outer) (by rw [ht]; rfl), hothers]
        cases operands rest with
        | error e => rfl
        | ok others =>
          show run (close ⟨name, others.value.reverse ++ x :: read⟩ outer) others.rest =
            run (close ⟨name, (x :: others.value).reverse ++ read⟩ outer) others.rest
          rw [List.reverse_cons, List.append_assoc, List.singleton_append]
      | closing =>
        rw [run_cons (close ⟨name, x :: read⟩ outer) (by rw [ht]; rfl)]
        rfl
      | _ =>
        rw [run_refuse (by rw [ht]; rfl)]
        rfl
termination_by 4 * ts.length + 2

/-- In the place of an operand the machine goes on from the stage that has one operand more. -/
theorem run_operand (frame : Frame) (outer : List Frame) (ts : List Located) :
    run (.wanting frame outer) ts =
      goOn (fun x => .filled (frame.push x) outer) (operand ts) := by
  rw [operand]
  cases ts with
  | nil => rfl
  | cons t rest =>
    simp only [next, bind, Except.bind]
    cases ht : t.token with
    | ident name =>
      rw [run_cons (.word name frame outer) (by rw [ht]; rfl)]
      dsimp only
      cases hskip : skip? .opening rest with
      | none => exact run_word hskip
      | some opening =>
        cases rest with
        | nil => cases hskip
        | cons u inside =>
          obtain ⟨hu, -⟩ := skip?_cons_eq_some hskip
          have hclose : (fun xs => close ⟨name, xs.reverse⟩ (frame :: outer)) =
              fun xs => .filled (frame.push (.ofFormula ⟨name, xs⟩)) outer := by
            funext xs
            rw [close, Frame.formula, List.reverse_reverse]
          rw [run_cons (.opened ⟨name, []⟩ (frame :: outer)) (by rw [hu]; rfl),
            run_arguments name (frame :: outer) inside, hclose,
            ← goOn_formula (fun f => .filled (frame.push (.ofFormula f)) outer) ht hu]
          cases formula (t :: u :: inside) <;> rfl
    | quoted name => exact run_cons _ (by rw [ht]; rfl)
    | text value => exact run_cons _ (by rw [ht]; rfl)
    | number value => exact run_cons _ (by rw [ht]; rfl)
    | missing => exact run_cons _ (by rw [ht]; rfl)
    | _ =>
      rw [run_refuse (by rw [ht]; rfl)]
      rfl
termination_by 4 * ts.length + 1

end

/-- From the start the machine goes on with a whole formula. -/
theorem run_formula (ts : List Located) : run .start ts = goOn .complete (formula ts) := by
  cases ts with
  | nil =>
    rw [formula]
    rfl
  | cons t rest =>
    cases ht : t.token with
    | ident name =>
      rw [run_cons (.named name) (by rw [ht]; rfl)]
      cases rest with
      | nil =>
        simp only [formula, next, bind, Except.bind, ht]
        rfl
      | cons u inside =>
        cases hu : u.token with
        | opening =>
          have hclose : (fun xs => close ⟨name, xs.reverse⟩ []) =
              fun xs => .complete ⟨name, xs⟩ := by
            funext xs
            rw [close, Frame.formula, List.reverse_reverse]
          rw [run_cons (.opened ⟨name, []⟩ []) (by rw [hu]; rfl),
            run_arguments name [] inside, hclose, ← goOn_formula .complete ht hu]
        | _ =>
          rw [run_refuse (by rw [hu]; rfl)]
          simp only [formula, next, bind, Except.bind, ht, hu]
          rfl
    | _ =>
      rw [run_refuse (by rw [ht]; rfl)]
      simp only [formula, next, bind, Except.bind, ht]
      rfl

end Parser

/-- The readers and the machine read the same. -/
theorem Formula.ofTokens_eq_run (tokens : List Located) :
    ofTokens tokens = Parser.run .start tokens := by
  rw [ofTokens, Parser.run_formula]
  cases Parser.formula tokens with
  | error e => rfl
  | ok f =>
    show _ = Parser.run (.complete f.value) f.rest
    simp only [bind, Except.bind]
    cases f.rest <;> rfl

/-- A text is read as the machine takes its tokens. -/
theorem Formula.ofText_eq_run {text : String} {tokens : List Located}
    (h : Token.ofText text = .ok tokens) : ofText text = Parser.run .start tokens := by
  rw [ofText, h]
  exact ofTokens_eq_run tokens

end FeatureSynth
