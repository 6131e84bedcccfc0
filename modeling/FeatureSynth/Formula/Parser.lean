/-
# Reading a formula

The grammar is

    formula ::= ident '(' [operand (',' operand)*] ')'
    operand ::= formula | ident | quoted | text | number | missing

and there is one reader for each of its symbols.  A reader takes the tokens that
are left and returns what it read, with fewer tokens left.  An identifier in the
place of an operand is a reference, unless a parenthesis follows: then the reader
goes back to the identifier and reads a formula.
-/
import FeatureSynth.Formula.Lexer

namespace FeatureSynth

namespace Parser

/-- What is read off some tokens, and the tokens left. -/
structure Read (α : Type) (tokens : List Located) where
  value : α
  rest : List Located
  shorter : rest.length < tokens.length

namespace Read

variable {α β : Type} {tokens : List Located}

/-- Something else made of what is read. -/
def map (f : α → β) (r : Read α tokens) : Read β tokens := ⟨f r.value, r.rest, r.shorter⟩

/-- What is read after something. -/
def after (r : Read α tokens) (s : Read β r.rest) : Read β tokens :=
  ⟨s.value, s.rest, Nat.lt_trans s.shorter r.shorter⟩

end Read

/-- The next token; something is expected there. -/
def next (expected : Expected) : (tokens : List Located) → Except FormulaError (Read Located tokens)
  | [] => .error (.unexpectedEnd expected)
  | t :: rest => .ok ⟨t, rest, Nat.lt_succ_self _⟩

/-- A token that is not what is expected in its place. -/
def refuse {α : Type} (t : Located) (expected : Expected) : Except FormulaError α :=
  .error (.unexpectedToken t.token t.offset expected)

/-- The tokens after a certain one, if that comes next. -/
def skip? (token : Token) : (tokens : List Located) → Option (Read Unit tokens)
  | [] => none
  | t :: rest => if t.token = token then some ⟨(), rest, Nat.lt_succ_self _⟩ else none

mutual

/-- Reads a formula. -/
def formula (tokens : List Located) : Except FormulaError (Read Formula tokens) := do
  let head ← next .formulaName tokens
  match head.value.token with
  | .ident name =>
    let opening ← next .opening head.rest
    match opening.value.token with
    | .opening => return (head.after (opening.after (← arguments opening.rest))).map (⟨name, ·⟩)
    | _ => refuse opening.value .opening
  | _ => refuse head.value .formulaName
termination_by 4 * tokens.length
decreasing_by
  have := head.shorter
  have := opening.shorter
  omega

/-- Reads what stands between the parentheses of a formula, and the closing one. -/
def arguments (tokens : List Located) : Except FormulaError (Read (List Operand) tokens) :=
  match skip? .closing tokens with
  | some closing => .ok (closing.map fun _ => [])
  | none => operands tokens
termination_by 4 * tokens.length + 3
decreasing_by omega

/-- Reads operands, at least one, and the closing parenthesis. -/
def operands (tokens : List Located) : Except FormulaError (Read (List Operand) tokens) := do
  let first ← operand tokens
  let separator ← next .separator first.rest
  match separator.value.token with
  | .comma =>
    return (first.after (separator.after (← operands separator.rest))).map (first.value :: ·)
  | .closing => return (first.after separator).map fun _ => [first.value]
  | _ => refuse separator.value .separator
termination_by 4 * tokens.length + 2
decreasing_by
  · omega
  · have := first.shorter
    have := separator.shorter
    omega

/-- Reads an operand. -/
def operand (tokens : List Located) : Except FormulaError (Read Operand tokens) := do
  let head ← next .operand tokens
  match head.value.token with
  | .ident name =>
    match skip? .opening head.rest with
    | some _ => return (← formula tokens).map .ofFormula
    | none => return head.map fun _ => .field name
  | .quoted name => return head.map fun _ => .field name
  | .text value => return head.map fun _ => .symbol value
  | .number value => return head.map fun _ => .continuous value
  | .missing => return head.map fun _ => .missing
  | _ => refuse head.value .operand
termination_by 4 * tokens.length + 1
decreasing_by omega

end

end Parser

namespace Formula

/-- The formula that a sequence of tokens spells, to their end. -/
def ofTokens (tokens : List Located) : Except FormulaError Formula := do
  let f ← Parser.formula tokens
  match f.rest with
  | [] => return f.value
  | t :: _ => Parser.refuse t .endOfFormula

/-- The formula that a text spells. -/
def ofText (text : String) : Except FormulaError Formula :=
  match Token.ofText text with
  | .error e => .error e
  | .ok tokens => ofTokens tokens

end Formula

end FeatureSynth
