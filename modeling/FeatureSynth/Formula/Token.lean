/-
# Tokens of a formula text

A text is a sequence of tokens with blanks between them.  `Token.scan` reads the
one token a text without leading blanks starts with, the longest in its class;
`Token.ofText` repeats it to the end and notes where each token begins, in bytes.

A back quote inside a quoted name is doubled.  A name that would run to the end
of the text without a closing quote ends, instead, at the first quote of the last
doubled pair.
-/
import FeatureSynth.Formula.Printer
import FeatureSynth.Text.Digit

namespace FeatureSynth

/-- A token of a formula text. -/
inductive Token where
  | opening
  | closing
  | comma
  | missing
  | number (value : Float)
  | ident (name : String)
  | quoted (name : String)
  | text (value : String)
deriving DecidableEq

/-- A token with the byte offset it begins at. -/
structure Located where
  offset : Nat
  token : Token
deriving DecidableEq

/-- What a formula needs at some place of its text. -/
inductive Expected where
  | formulaName
  | opening
  | operand
  | separator
  | endOfFormula
deriving DecidableEq

/-- Why a text is no formula. -/
inductive FormulaError where
  | unexpectedChar (offset : Nat)
  | unexpectedToken (found : Token) (offset : Nat) (expected : Expected)
  | unexpectedEnd (expected : Expected)
  | invalidNumber (text : String)
deriving DecidableEq

/-- A token as it appears in messages; quoted contents are shown without escapes. -/
def Token.shown : Token → String
  | .opening => "("
  | .closing => ")"
  | .comma => ","
  | .missing => "#Missing"
  | .number value => String.ofList (Scalar.constantText value)
  | .ident name => name
  | .quoted name => "`" ++ name ++ "`"
  | .text value => "\"" ++ value ++ "\""

def Expected.shown : Expected → String
  | .formulaName => "formula name"
  | .opening => "`(`"
  | .operand => "operand"
  | .separator => "`,` or `)`"
  | .endOfFormula => "end of formula"

def FormulaError.message : FormulaError → String
  | .unexpectedChar offset => "Unexpected character at offset " ++ toString offset
  | .unexpectedToken found offset expected =>
    "Unexpected token `" ++ found.shown ++ "` at offset " ++ toString offset ++ ", expected " ++
      expected.shown
  | .unexpectedEnd expected => "Unexpected end of formula, expected " ++ expected.shown
  | .invalidNumber text => "Invalid number `" ++ text ++ "`"

/-! ## Numerals -/

/-- The pieces of a number as written; the digits may be of any script. -/
structure Numeral where
  negative : Bool
  whole : List Char
  fraction : List Char
  exponent : Option (Bool × List Char)
deriving DecidableEq

namespace Numeral

/-- The double nearest to `digits · 10 ^ exponent`. -/
def nearest (digits : Nat) (exponent : Int) : Float :=
  let magnitude := (Decimal.digitCount digits : Int) + exponent
  if digits = 0 ∨ magnitude < -330 then 0
  else if 310 < magnitude then Float.ofBits 0x7ff0000000000000
  else if 0 ≤ exponent then Float.ofScientific digits false exponent.toNat
  else Float.ofScientific digits true (-exponent).toNat

/-- The value of a numeral in ASCII digits. -/
def value? (n : Numeral) : Option Float := do
  let digits ← Text.digitsValue? (n.whole ++ n.fraction)
  let exponent : Int ← match n.exponent with
    | none => some 0
    | some (negative, text) =>
      (Text.digitsValue? text).map fun e => if negative then -(e : Int) else e
  let magnitude := nearest digits (exponent - n.fraction.length)
  return if n.negative then -magnitude else magnitude

/-- An optional sign, and whether it is a minus. -/
def sign : List Char → Bool × List Char
  | '-' :: rest => (true, rest)
  | '+' :: rest => (false, rest)
  | s => (false, s)

/-- An exponent, if the text starts with a complete one. -/
def exponentPart (s : List Char) : Option (Bool × List Char) × List Char :=
  match s with
  | c :: rest =>
    let (negative, tail) := sign rest
    let digits := tail.takeWhile Text.isDigit
    if (c = 'e' ∨ c = 'E') ∧ digits ≠ [] then
      (some (negative, digits), tail.dropWhile Text.isDigit)
    else (none, s)
  | [] => (none, [])

/-- The digits before and after the point: some before it, or a point with some after it. -/
def digitsPart (s : List Char) : Option ((List Char × List Char) × List Char) :=
  let whole := s.takeWhile Text.isDigit
  match whole, s.dropWhile Text.isDigit with
  | [], '.' :: tail =>
    let fraction := tail.takeWhile Text.isDigit
    if fraction = [] then none else some (([], fraction), tail.dropWhile Text.isDigit)
  | [], _ => none
  | _, '.' :: tail => some ((whole, tail.takeWhile Text.isDigit), tail.dropWhile Text.isDigit)
  | _, rest => some ((whole, []), rest)

/-- The numeral a text starts with. -/
def scan (s : List Char) : Option (Numeral × List Char) := do
  let (negative, unsigned) := sign s
  let ((whole, fraction), rest) ← digitsPart unsigned
  let (exponent, rest) := exponentPart rest
  return (⟨negative, whole, fraction, exponent⟩, rest)

end Numeral

/-! ## Scanning -/

namespace Token

/-- Content and rest of a name after its opening back quote. -/
def quotedBody : List Char → Option (List Char × List Char)
  | [] => none
  | '\x60' :: '\x60' :: rest =>
    match quotedBody rest with
    | some (body, tail) => some (Text.backQuote :: body, tail)
    | none => some ([], Text.backQuote :: rest)
  | '\x60' :: rest => some ([], rest)
  | c :: rest => (quotedBody rest).map fun (body, tail) => (c :: body, tail)

/-- Content and rest of a symbol after its opening quote; a backslash stands before a character
taken as it is, which no line break can be. -/
def textBody : List Char → Option (List Char × List Char)
  | [] => none
  | '"' :: rest => some ([], rest)
  | ['\\'] => none
  | '\\' :: c :: rest =>
    if c = '\n' then none else (textBody rest).map fun (body, tail) => (c :: body, tail)
  | c :: rest => (textBody rest).map fun (body, tail) => (c :: body, tail)

/-- A token, or a numeral still to be evaluated. -/
inductive Lexeme where
  | token (token : Token)
  | numeral (numeral : Numeral)
deriving DecidableEq

/-- The word of the missing value. -/
def missingWord : List Char := ['#', 'M', 'i', 's', 's', 'i', 'n', 'g']

/-- The lexeme a text starts with. -/
def scan (s : List Char) : Option (Lexeme × List Char) :=
  match s with
  | [] => none
  | '(' :: rest => some (.token .opening, rest)
  | ')' :: rest => some (.token .closing, rest)
  | ',' :: rest => some (.token .comma, rest)
  | '\x60' :: rest =>
    (quotedBody rest).map fun (name, tail) => (.token (.quoted (String.ofList name)), tail)
  | '"' :: rest =>
    (textBody rest).map fun (value, tail) => (.token (.text (String.ofList value)), tail)
  | c :: rest =>
    if missingWord.isPrefixOf s then some (.token .missing, s.drop missingWord.length)
    else if Text.isIdentStart c then
      some (.token (.ident (String.ofList (c :: rest.takeWhile Text.isIdentRest))),
        rest.dropWhile Text.isIdentRest)
    else (Numeral.scan s).map fun (numeral, tail) => (.numeral numeral, tail)

/-- The token of a lexeme whose text is `text`. -/
def Lexeme.token? (text : List Char) : Lexeme → Except FormulaError Token
  | .token t => .ok t
  | .numeral n =>
    match n.value? with
    | some value => .ok (.number value)
    | none => .error (.invalidNumber (String.ofList text))

end Token

end FeatureSynth
