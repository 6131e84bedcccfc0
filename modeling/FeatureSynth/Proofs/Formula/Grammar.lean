/-
# The parser reads its grammar

The grammar of formulas, over tokens, is

    formula ::= ident '(' [operand (',' operand)*] ')'
    operand ::= formula | ident | quoted | text | number | missing

and `DerivesFormula ts f` says that the tokens `ts` derive the formula `f` in it.

The parser is taken as the stack machine here, which keeps no input: its stage is all it
knows of the tokens read.  One invariant says what a stage stands for.  The tokens of a
formula still open are its operator, its parenthesis and operands with commas between
them, and the stack lists the formulas opened around it, each in a place where an operand
may come (`Reached`).  One step keeps that, so a stage is complete only after a formula;
read forwards, a derivation drives the parser through its tokens, so the parser refuses no
formula.  And every stage can be completed by closing what is open.  A token that a stage
refuses is thus the first that no formula could have in its place.
-/
import Mathlib.Data.List.Basic
import FeatureSynth.Proofs.Formula.RoundTrip

namespace FeatureSynth

/-! ## The grammar -/

mutual

/-- Tokens that derive a formula. -/
inductive DerivesFormula : List Token → Formula → Prop
  | bare (name : String) : DerivesFormula [.ident name, .opening, .closing] ⟨name, []⟩
  | applied {ts : List Token} {xs : List Operand} (name : String) :
      DerivesOperands ts xs → DerivesFormula (.ident name :: .opening :: (ts ++ [.closing])) ⟨name, xs⟩

/-- Tokens that derive operands, at least one, with commas between them. -/
inductive DerivesOperands : List Token → List Operand → Prop
  | one {ts : List Token} {x : Operand} : DerivesOperand ts x → DerivesOperands ts [x]
  | more {ts us : List Token} {x : Operand} {xs : List Operand} : DerivesOperand ts x →
      DerivesOperands us xs → DerivesOperands (ts ++ .comma :: us) (x :: xs)

/-- Tokens that derive an operand. -/
inductive DerivesOperand : List Token → Operand → Prop
  | formula {ts : List Token} {f : Formula} : DerivesFormula ts f → DerivesOperand ts (.ofFormula f)
  | ident (name : String) : DerivesOperand [.ident name] (.field name)
  | quoted (name : String) : DerivesOperand [.quoted name] (.field name)
  | text (value : String) : DerivesOperand [.text value] (.symbol value)
  | number (value : Float) : DerivesOperand [.number value] (.continuous value)
  | missing : DerivesOperand [.missing] .missing

end

/-- Tokens that a sequence of the grammar starts with. -/
def Viable (ts : List Token) : Prop := ∃ more f, DerivesFormula (ts ++ more) f

/-- One more operand behind others. -/
theorem DerivesOperands.snoc {ts us : List Token} {xs : List Operand} {x : Operand}
    (hx : DerivesOperand us x) : DerivesOperands ts xs → DerivesOperands (ts ++ .comma :: us) (xs ++ [x])
  | .one h => .more h (.one hx)
  | .more h hs => by
      rw [List.append_assoc, List.cons_append]
      exact .more h (hs.snoc hx)

namespace Parser

variable {stage stage' : Stage} {frame : Frame} {outer : List Frame} {f : Formula} {t : Token}
  {read rest ts : List Token}

/-! ## Stages along tokens -/

/-- The stage that some tokens lead to, if each of them can come. -/
def Stage.after (stage : Stage) : List Token → Option Stage
  | [] => some stage
  | t :: ts => (stage.next? t).bind fun stage' => stage'.after ts

theorem after_cons (h : stage.next? t = some stage') (ts : List Token) :
    stage.after (t :: ts) = stage'.after ts := by
  rw [Stage.after, h, Option.bind_some]

theorem after_append (us : List Token) : ∀ (ts : List Token) (stage : Stage),
    stage.after (ts ++ us) = (stage.after ts).bind (·.after us)
  | [], _ => rfl
  | t :: ts, stage => by
      rw [List.cons_append, Stage.after, Stage.after, Option.bind_assoc]
      exact congrArg _ (funext fun stage' => after_append us ts stage')

/-- A run succeeds with the formula of the stage it ends in. -/
theorem run_eq_ok_iff : ∀ {tokens : List Located} {stage : Stage},
    run stage tokens = .ok f ↔ stage.after (tokens.map (·.token)) = some (.complete f)
  | [], stage => by
      cases stage <;> simp [run, Stage.finish, Stage.after]
  | t :: tokens, stage => by
      rw [run, List.map_cons, Stage.after]
      cases stage.next? t.token with
      | none => simp
      | some stage' => exact run_eq_ok_iff

/-- Where a run fails at a token, the tokens before it lead to a stage that refuses it; where it fails
at the end, they lead to a stage that is not complete. -/
theorem run_eq_error : ∀ {tokens : List Located} {stage : Stage} {e : FormulaError},
    run stage tokens = .error e →
      (∃ before behind located stage', tokens = before ++ located :: behind ∧
        stage.after (before.map (·.token)) = some stage' ∧ stage'.next? located.token = none ∧
        e = .unexpectedToken located.token located.offset stage'.expected) ∨
      ∃ stage', stage.after (tokens.map (·.token)) = some stage' ∧ (∀ f, stage' ≠ .complete f) ∧
        e = .unexpectedEnd stage'.expected
  | [], stage, e, h => by
      refine .inr ⟨stage, rfl, ?_⟩
      cases stage with
      | complete => cases h
      | _ => exact ⟨fun _ => nofun, (Except.error.inj h).symm⟩
  | t :: tokens, stage, e, h => by
      rw [run] at h
      cases hnext : stage.next? t.token with
      | none =>
        rw [hnext] at h
        exact .inl ⟨[], tokens, t, stage, rfl, rfl, hnext, (Except.error.inj h).symm⟩
      | some stage' =>
        rw [hnext] at h
        obtain ⟨before, behind, located, last, rfl, hafter, hrefuse, rfl⟩ | ⟨last, hafter, hopen⟩ :=
          run_eq_error h
        · refine .inl ⟨t :: before, behind, located, last, rfl, ?_, hrefuse, rfl⟩
          rw [List.map_cons, after_cons hnext, hafter]
        · refine .inr ⟨last, ?_, hopen⟩
          rw [List.map_cons, after_cons hnext, hafter]

/-! ## What a stage stands for -/

/-- What has been read of an open formula: its operator, its parenthesis, and operands with commas
between them. -/
inductive Opened : Frame → List Token → Prop
  | bare (name : String) : Opened ⟨name, []⟩ [.ident name, .opening]
  | first {ts : List Token} {x : Operand} (name : String) : DerivesOperand ts x →
      Opened ⟨name, [x]⟩ (.ident name :: .opening :: ts)
  | next {frame : Frame} {read ts : List Token} {x : Operand} : Opened frame read →
      frame.operands ≠ [] → DerivesOperand ts x → Opened (frame.push x) (read ++ .comma :: ts)

/-- What has been read of an open formula in a place where an operand may come. -/
inductive Awaits : Frame → List Token → Prop
  | opened {frame : Frame} {read : List Token} : frame.operands = [] → Opened frame read →
      Awaits frame read
  | comma {frame : Frame} {read : List Token} : frame.operands ≠ [] → Opened frame read →
      Awaits frame (read ++ [.comma])

/-- What has been read in front of an open formula: the formulas around it, each up to a place where an
operand may come. -/
inductive Around : List Frame → List Token → Prop
  | nil : Around [] []
  | cons {frame : Frame} {outer : List Frame} {before ts : List Token} : Awaits frame ts →
      Around outer before → Around (frame :: outer) (before ++ ts)

/-- What has been read at a stage. -/
def Reached (read : List Token) : Stage → Prop
  | .start => read = []
  | .named name => read = [.ident name]
  | .opened frame outer => frame.operands = [] ∧
      ∃ before ts, Around outer before ∧ Opened frame ts ∧ read = before ++ ts
  | .wanting frame outer => frame.operands ≠ [] ∧
      ∃ before ts, Around outer before ∧ Opened frame ts ∧ read = before ++ ts ++ [.comma]
  | .word name frame outer =>
      ∃ before ts, Around outer before ∧ Awaits frame ts ∧ read = before ++ ts ++ [.ident name]
  | .filled frame outer => frame.operands ≠ [] ∧
      ∃ before ts, Around outer before ∧ Opened frame ts ∧ read = before ++ ts
  | .complete f => DerivesFormula read f

theorem Opened.operands (h : Opened frame read) : frame.operands ≠ [] →
    ∃ ts, read = .ident frame.name :: .opening :: ts ∧ DerivesOperands ts frame.operands.reverse := by
  induction h with
  | bare name => exact fun h => absurd rfl h
  | first name hx => exact fun _ => ⟨_, rfl, .one hx⟩
  | @next frame read ts x _ hfilled hx ih =>
    intro _
    obtain ⟨us, rfl, hus⟩ := ih hfilled
    refine ⟨us ++ .comma :: ts, rfl, ?_⟩
    rw [Frame.push, List.reverse_cons]
    exact hus.snoc hx

/-- A closing parenthesis completes an open formula. -/
theorem Opened.formula (h : Opened frame read) : DerivesFormula (read ++ [.closing]) frame.formula := by
  by_cases hfilled : frame.operands = []
  · cases h with
    | bare name => exact .bare name
    | first name hx => cases hfilled
    | next _ _ _ => cases hfilled
  · obtain ⟨ts, rfl, hts⟩ := h.operands hfilled
    exact .applied frame.name hts

/-- An operand goes into the place for it. -/
theorem Awaits.push {x : Operand} (h : Awaits frame read) (hx : DerivesOperand ts x) :
    Opened (frame.push x) (read ++ ts) := by
  cases h with
  | opened hbare h =>
    cases h with
    | bare name => exact .first name hx
    | first name _ => cases hbare
    | next _ _ _ => cases hbare
  | comma hfilled h =>
    rw [List.append_assoc, List.singleton_append]
    exact .next h hfilled hx

theorem push_filled (frame : Frame) (x : Operand) : (frame.push x).operands ≠ [] :=
  List.cons_ne_nil _ _

/-- What stands at a stage after an operand in the place for it. -/
theorem Awaits.filled {x : Operand} {before us : List Token} (hbefore : Around outer before)
    (h : Awaits frame us) (hx : DerivesOperand ts x) :
    Reached (before ++ us ++ ts) (.filled (frame.push x) outer) :=
  ⟨push_filled frame x, before, us ++ ts, hbefore, h.push hx, List.append_assoc ..⟩

theorem reached_close {before : List Token} (hbefore : Around outer before) (h : Opened frame ts) :
    Reached (before ++ ts ++ [.closing]) (close frame outer) := by
  cases hbefore with
  | nil => exact h.formula
  | cons hparent hbefore =>
    rw [List.append_assoc]
    exact hparent.filled hbefore (.formula h.formula)

theorem reached_operand {before us : List Token} (hbefore : Around outer before)
    (h : Awaits frame us) (hnext : operand? frame outer t = some stage') :
    Reached (before ++ us ++ [t]) stage' := by
  cases t with
  | ident name =>
    cases hnext
    exact ⟨before, us, hbefore, h, rfl⟩
  | quoted name =>
    cases hnext
    exact h.filled hbefore (.quoted name)
  | text value =>
    cases hnext
    exact h.filled hbefore (.text value)
  | number value =>
    cases hnext
    exact h.filled hbefore (.number value)
  | missing =>
    cases hnext
    exact h.filled hbefore .missing
  | opening => cases hnext
  | closing => cases hnext
  | comma => cases hnext

theorem reached_separator {before us : List Token} (hbefore : Around outer before)
    (hfilled : frame.operands ≠ []) (h : Opened frame us)
    (hnext : separator? frame outer t = some stage') : Reached (before ++ us ++ [t]) stage' := by
  cases t with
  | comma =>
    cases hnext
    exact ⟨hfilled, before, us, hbefore, h, rfl⟩
  | closing =>
    cases hnext
    exact reached_close hbefore h
  | opening => cases hnext
  | missing => cases hnext
  | number => cases hnext
  | ident => cases hnext
  | quoted => cases hnext
  | text => cases hnext

theorem next?_opened (hnext : (Stage.opened frame outer).next? t = some stage') :
    t = .closing ∧ stage' = close frame outer ∨ operand? frame outer t = some stage' := by
  cases t with
  | closing => exact .inl ⟨rfl, (Option.some.inj hnext).symm⟩
  | _ => exact .inr hnext

theorem next?_word {name : String} (hnext : (Stage.word name frame outer).next? t = some stage') :
    t = .opening ∧ stage' = .opened ⟨name, []⟩ (frame :: outer) ∨
      separator? (frame.push (.field name)) outer t = some stage' := by
  cases t with
  | opening => exact .inl ⟨rfl, (Option.some.inj hnext).symm⟩
  | _ => exact .inr hnext

/-- One more token keeps what a stage stands for. -/
theorem Reached.next (h : Reached read stage) (hnext : stage.next? t = some stage') :
    Reached (read ++ [t]) stage' := by
  cases stage with
  | start =>
    subst h
    cases t with
    | ident name => cases hnext; rfl
    | _ => cases hnext
  | named name =>
    subst h
    cases t with
    | opening => cases hnext; exact ⟨rfl, [], _, .nil, .bare name, rfl⟩
    | _ => cases hnext
  | opened frame outer =>
    obtain ⟨hbare, before, us, hbefore, hopened, rfl⟩ := h
    obtain ⟨rfl, rfl⟩ | hoperand := next?_opened hnext
    · exact reached_close hbefore hopened
    · exact reached_operand hbefore (.opened hbare hopened) hoperand
  | wanting frame outer =>
    obtain ⟨hfilled, before, us, hbefore, hopened, rfl⟩ := h
    rw [List.append_assoc before]
    exact reached_operand hbefore (.comma hfilled hopened) hnext
  | word name frame outer =>
    obtain ⟨before, us, hbefore, hawaits, rfl⟩ := h
    obtain ⟨rfl, rfl⟩ | hseparator := next?_word hnext
    · -- the word was the operator of a formula, which starts with it
      exact ⟨rfl, before ++ us, _, .cons hawaits hbefore, .bare name, by simp⟩
    · rw [List.append_assoc before]
      exact reached_separator hbefore (push_filled frame _) (hawaits.push (.ident name)) hseparator
  | filled frame outer =>
    obtain ⟨hfilled, before, us, hbefore, hopened, rfl⟩ := h
    exact reached_separator hbefore hfilled hopened hnext
  | complete f => cases hnext

/-- So do more tokens. -/
theorem reached_after : ∀ {ts read : List Token} {stage : Stage}, Reached read stage →
    stage.after ts = some stage' → Reached (read ++ ts) stage'
  | [], read, stage, h, hafter => by
      cases hafter
      rwa [List.append_nil]
  | t :: ts, read, stage, h, hafter => by
      rw [Stage.after] at hafter
      obtain ⟨middle, hnext, hafter⟩ := Option.bind_eq_some_iff.mp hafter
      rw [List.append_cons]
      exact reached_after (Reached.next h hnext) hafter

/-! ## A derivation drives the parser -/

/-- Where a formula cannot open, an identifier is a reference. -/
theorem after_word (name : String) (ht : t ≠ .opening) (rest : List Token) :
    (Stage.word name frame outer).after (t :: rest) =
      (Stage.filled (frame.push (.field name)) outer).after (t :: rest) := by
  rw [Stage.after, Stage.after]
  cases t with
  | opening => exact absurd rfl ht
  | _ => rfl

mutual

/-- Behind the parenthesis that a formula opens, its other tokens lead to its end. -/
theorem after_formula : ∀ {ts : List Token} {f : Formula}, DerivesFormula ts f →
    ∃ inner, ts = .ident f.name :: .opening :: inner ∧ ∀ outer rest,
      (Stage.opened ⟨f.name, []⟩ outer).after (inner ++ rest) =
        (close ⟨f.name, f.operands.reverse⟩ outer).after rest
  | _, _, .bare name => ⟨[.closing], rfl, fun _ rest => after_cons rfl rest⟩
  | _, _, @DerivesFormula.applied ts xs name hxs => by
      refine ⟨ts ++ [.closing], rfl, fun outer rest => ?_⟩
      have h := after_operands hxs (takes_opened ⟨name, []⟩ outer) rest
      rw [List.append_nil] at h
      rw [List.append_assoc, List.singleton_append]
      exact h

/-- In the place for them, operands and a closing parenthesis close the frame with the operands. -/
theorem after_operands : ∀ {ts : List Token} {xs : List Operand}, DerivesOperands ts xs →
    ∀ {stage : Stage} {frame outer}, stage.Takes frame outer → ∀ rest,
      stage.after (ts ++ .closing :: rest) =
        (close ⟨frame.name, xs.reverse ++ frame.operands⟩ outer).after rest
  | _, _, .one hx, _, frame, outer, hstage, rest => by
      rw [after_operand hx hstage (by decide) rest]
      exact after_cons rfl rest
  | _, _, @DerivesOperands.more ts us x xs hx hxs, _, frame, outer, hstage, rest => by
      rw [List.append_assoc, List.cons_append, after_operand hx hstage (by decide),
        after_cons rfl, after_operands hxs (takes_wanting (frame.push x) outer) rest,
        List.reverse_cons, List.append_assoc]
      rfl

/-- In the place for it, an operand fills its frame with the operand. -/
theorem after_operand : ∀ {ts : List Token} {x : Operand}, DerivesOperand ts x →
    ∀ {stage : Stage} {frame outer t}, stage.Takes frame outer → t ≠ .opening → ∀ rest,
      stage.after (ts ++ t :: rest) = (Stage.filled (frame.push x) outer).after (t :: rest)
  | _, _, .formula hf, stage, frame, outer, t, hstage, _, rest => by
      obtain ⟨inner, rfl, hinner⟩ := after_formula hf
      rw [List.cons_append, List.cons_append, after_cons (hstage _ _ rfl), after_cons rfl,
        hinner (frame :: outer) (t :: rest), close, Frame.formula, List.reverse_reverse]
  | _, _, .ident name, _, _, _, _, hstage, ht, rest =>
      (after_cons (hstage _ _ rfl) _).trans (after_word name ht rest)
  | _, _, .quoted name, _, _, _, _, hstage, _, _ => after_cons (hstage (.quoted name) _ rfl) _
  | _, _, .text value, _, _, _, _, hstage, _, _ => after_cons (hstage (.text value) _ rfl) _
  | _, _, .number value, _, _, _, _, hstage, _, _ => after_cons (hstage (.number value) _ rfl) _
  | _, _, .missing, _, _, _, _, hstage, _, _ => after_cons (hstage .missing _ rfl) _

end

/-- The tokens that complete the parser are those that derive the formula. -/
theorem derivesFormula_iff : DerivesFormula ts f ↔ Stage.start.after ts = some (.complete f) := by
  constructor
  · intro h
    obtain ⟨inner, rfl, hinner⟩ := after_formula h
    rw [after_cons rfl, after_cons rfl, ← List.append_nil inner, hinner [] [], Stage.after, close,
      Frame.formula, List.reverse_reverse]
  · intro h
    have hstart : Reached [] .start := rfl
    exact reached_after hstart h

/-! ## Every stage can be completed -/

/-- A stage from which some tokens lead to a formula. -/
def Stage.Completable (stage : Stage) : Prop := ∃ more f, stage.after more = some (.complete f)

theorem Stage.Completable.cons (hnext : stage.next? t = some stage') :
    stage'.Completable → stage.Completable
  | ⟨more, f, h⟩ => ⟨t :: more, f, (after_cons hnext more).trans h⟩

theorem completable_close : ∀ (outer : List Frame) (frame : Frame), (close frame outer).Completable
  | [], frame => ⟨[], frame.formula, rfl⟩
  | _ :: outer, _ => .cons (t := .closing) rfl (completable_close outer _)

/-- Closing what is open completes any stage, behind an operand where one is due. -/
theorem completable : ∀ stage : Stage, stage.Completable
  | .start => .cons (t := .ident "") rfl (.cons (t := .opening) rfl (.cons (t := .closing) rfl
      (completable_close [] _)))
  | .named _ => .cons (t := .opening) rfl (.cons (t := .closing) rfl (completable_close [] _))
  | .opened _ outer => .cons (t := .closing) rfl (completable_close outer _)
  | .wanting _ outer =>
      .cons (t := .missing) rfl (.cons (t := .closing) rfl (completable_close outer _))
  | .word _ _ outer => .cons (t := .closing) rfl (completable_close outer _)
  | .filled _ outer => .cons (t := .closing) rfl (completable_close outer _)
  | .complete f => ⟨[], f, rfl⟩

/-- The parser goes on exactly as long as some formula starts with what it has read. -/
theorem viable_iff : Viable ts ↔ ∃ stage, Stage.start.after ts = some stage := by
  constructor
  · rintro ⟨more, f, h⟩
    rw [derivesFormula_iff, after_append] at h
    obtain ⟨stage, hstage, -⟩ := Option.bind_eq_some_iff.mp h
    exact ⟨stage, hstage⟩
  · rintro ⟨stage, hstage⟩
    obtain ⟨more, f, hmore⟩ := completable stage
    refine ⟨more, f, derivesFormula_iff.mpr ?_⟩
    rw [after_append, hstage]
    exact hmore

theorem not_viable_of_refused (hstage : Stage.start.after ts = some stage)
    (hrefuse : stage.next? t = none) : ¬ Viable (ts ++ [t]) := by
  rw [viable_iff, after_append, hstage]
  rintro ⟨stage', h⟩
  rw [Option.bind_some, Stage.after, hrefuse] at h
  cases h

end Parser

/-! ## The tokens of a text -/

namespace Formula

/-- The parser accepts the tokens of a text as a formula just where they derive it, and they derive no
other.  Where it refuses a token, those before it start some formula and with it they start none; where
it misses a token, the tokens start some longer formula and are none. -/
theorem ofText_reads_grammar {text : String} {tokens : List Located}
    (h : Token.ofText text = .ok tokens) :
    (∀ f, ofText text = .ok f ↔ DerivesFormula (tokens.map (·.token)) f) ∧
    (∀ f g, DerivesFormula (tokens.map (·.token)) f → DerivesFormula (tokens.map (·.token)) g →
      f = g) ∧
    ∀ e, ofText text = .error e →
      (∃ before behind found offset expected,
        e = .unexpectedToken found offset expected ∧ tokens = before ++ ⟨offset, found⟩ :: behind ∧
        (∀ t ∈ before, t.offset < offset) ∧ (∀ t ∈ behind, offset < t.offset) ∧
        Viable (before.map (·.token)) ∧ ¬ Viable (before.map (·.token) ++ [found])) ∨
      ∃ expected, e = .unexpectedEnd expected ∧
        (∃ more f, more ≠ [] ∧ DerivesFormula (tokens.map (·.token) ++ more) f) ∧
        ∀ f, ¬ DerivesFormula (tokens.map (·.token)) f := by
  have hrun : ofText text = Parser.run .start tokens := ofText_eq_run h
  refine ⟨fun f => ?_, fun f g hf hg => ?_, fun e he => ?_⟩
  · rw [hrun, Parser.run_eq_ok_iff, Parser.derivesFormula_iff]
  · rw [Parser.derivesFormula_iff] at hf hg
    exact Parser.Stage.complete.inj (Option.some.inj (hf.symm.trans hg))
  · rw [hrun] at he
    obtain ⟨before, behind, found, stage, rfl, hstage, hrefuse, rfl⟩ | ⟨stage, hstage, hopen, rfl⟩ :=
      Parser.run_eq_error he
    · obtain ⟨-, hsorted⟩ := Token.ofRest_offsets h
      obtain ⟨-, hbehind, hbefore⟩ := List.pairwise_append.mp hsorted
      exact .inl ⟨before, behind, found.token, found.offset, stage.expected, rfl, rfl,
        fun t ht => hbefore t ht found List.mem_cons_self, (List.pairwise_cons.mp hbehind).1,
        Parser.viable_iff.mpr ⟨stage, hstage⟩, Parser.not_viable_of_refused hstage hrefuse⟩
    · have hnone : ∀ f, ¬ DerivesFormula (tokens.map (·.token)) f := by
        intro f hf
        rw [Parser.derivesFormula_iff, hstage] at hf
        exact hopen f (Option.some.inj hf)
      obtain ⟨more, f, hmore⟩ := Parser.viable_iff.mpr ⟨stage, hstage⟩
      refine .inr ⟨stage.expected, rfl, ⟨more, f, ?_, hmore⟩, hnone⟩
      rintro rfl
      rw [List.append_nil] at hmore
      exact hnone f hmore

/-- Behind a formula no token can come. -/
theorem trailing_word_refused :
    Token.ofText "Sum(a) b" =
        .ok [⟨0, .ident "Sum"⟩, ⟨3, .opening⟩, ⟨4, .ident "a"⟩, ⟨5, .closing⟩, ⟨7, .ident "b"⟩] ∧
      ofText "Sum(a) b" = .error (.unexpectedToken (.ident "b") 7 .endOfFormula) ∧
      Viable [.ident "Sum", .opening, .ident "a", .closing] ∧
      ¬ Viable [.ident "Sum", .opening, .ident "a", .closing, .ident "b"] := by
  have htokens : Token.ofText "Sum(a) b" =
      .ok [⟨0, .ident "Sum"⟩, ⟨3, .opening⟩, ⟨4, .ident "a"⟩, ⟨5, .closing⟩, ⟨7, .ident "b"⟩] := by
    decide +kernel
  have hrefused : ofText "Sum(a) b" = .error (.unexpectedToken (.ident "b") 7 .endOfFormula) := by
    decide +kernel
  obtain ⟨-, -, herror⟩ := ofText_reads_grammar htokens
  obtain ⟨before, behind, found, offset, _, he, hsplit, -, -, hviable, hno⟩ |
      ⟨_, he, -⟩ := herror _ hrefused
  · cases he
    have hfirst : (⟨7, .ident "b"⟩ : Located) ∉
        [⟨0, .ident "Sum"⟩, ⟨3, .opening⟩, ⟨4, .ident "a"⟩, ⟨5, .closing⟩] := by decide
    have hlast : (⟨7, .ident "b"⟩ : Located) ∉ [] := List.not_mem_nil
    obtain ⟨rfl, -, -⟩ := (List.append_cons_inj_of_notMem hfirst hlast).mp hsplit
    exact ⟨htokens, hrefused, hviable, hno⟩
  · cases he

end Formula

end FeatureSynth
