/-
# Text of a formula

`TableSum(Orders, amount)`: operator, parenthesis, operands separated by a comma
and a blank.  A field name that is no identifier stands between back quotes, the
ones inside it doubled; a symbol stands between quotes, with a backslash before
the quotes and backslashes inside it.
-/
import FeatureSynth.Formula.Basic
import FeatureSynth.Decimal.Layout
import FeatureSynth.Text.Blank

namespace FeatureSynth

namespace Text

/-- A letter of the ASCII alphabet or an underscore. -/
def isIdentStart (c : Char) : Bool :=
  ('a' ≤ c && c ≤ 'z') || ('A' ≤ c && c ≤ 'Z') || c == '_'

/-- A character an identifier may go on with. -/
def isIdentRest (c : Char) : Bool :=
  isIdentStart c || ('0' ≤ c && c ≤ '9')

/-- An identifier: it needs no quotes. -/
def isIdent : List Char → Bool
  | [] => false
  | c :: rest => isIdentStart c && rest.all isIdentRest

/-- The character between which field names are quoted. -/
def backQuote : Char := '\x60'

/-- A field name between back quotes, the ones inside it doubled. -/
def doubled : List Char → List Char
  | [] => []
  | c :: rest => if c = backQuote then c :: c :: doubled rest else c :: doubled rest

/-- A symbol with its quotes and backslashes escaped. -/
def escaped : List Char → List Char
  | [] => []
  | c :: rest => if c = '"' ∨ c = '\\' then '\\' :: c :: escaped rest else c :: escaped rest

end Text

/-- A field name, quoted unless it is an identifier. -/
def Formula.fieldChars (name : List Char) : List Char :=
  if Text.isIdent name then name else Text.backQuote :: Text.doubled name ++ [Text.backQuote]

def Constant.chars : Constant → List Char
  | .continuous value => Scalar.constantText value
  | .symbol text => '"' :: Text.escaped text.toList ++ ['"']

namespace Operand

mutual

def chars : Operand → List Char
  | .field name => Formula.fieldChars name.toList
  | .constant value => value.chars
  | .nested name operands => name.toList ++ '(' :: charsList operands ++ [')']

/-- Operands with a comma and a blank between them. -/
def charsList : List Operand → List Char
  | [] => []
  | [x] => chars x
  | x :: y :: xs => chars x ++ ',' :: ' ' :: charsList (y :: xs)

end

end Operand

namespace Formula

def chars (f : Formula) : List Char := (Operand.ofFormula f).chars

/-- The text form of a formula. -/
def text (f : Formula) : String := String.ofList f.chars

end Formula

end FeatureSynth
