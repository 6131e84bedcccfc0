/-
# Layouts of a decimal

One decimal has two written forms here: positional (`0.00015`, `1500`), never
with an exponent, and scientific (`1.5e-4`), with one digit before the point and
a bare exponent.  Reports use the first for every value.  Formulas have a rule
of their own, `Scalar.constantText`, that keeps texts short: whole numbers below
`10 ^ 15` have no point, numbers from there on and those below `10 ^ -5` are
scientific, and the missing value has a word.
-/
import FeatureSynth.Decimal.Shortest

namespace FeatureSynth

namespace Decimal

/-- The digits of a whole number. -/
def digitChars (n : Nat) : List Char := Nat.toDigits 10 n

/-- A whole number with its sign. -/
def intChars (n : Int) : List Char :=
  if n < 0 then '-' :: digitChars n.natAbs else digitChars n.natAbs

/-- Positional form: zeros fill the places up to the point. -/
def plain (d : Decimal) : List Char :=
  let digits := digitChars d.digits
  if 0 ≤ d.exponent then digits ++ List.replicate d.exponent.toNat '0'
  else
    let places := (-d.exponent).toNat
    let padded := List.replicate (places + 1 - digits.length) '0' ++ digits
    padded.take (padded.length - places) ++ '.' :: padded.drop (padded.length - places)

/-- Scientific form: one digit, the other digits after a point, and the exponent. -/
def scientific (d : Decimal) : List Char :=
  match digitChars d.digits with
  | [] => []
  | first :: rest =>
    let fraction := if rest.isEmpty then [] else '.' :: rest
    first :: fraction ++ 'e' :: intChars (d.exponent + rest.length)

end Decimal

namespace Scalar

/-- A minus sign in front of the text of a negative value. -/
def signed (negative : Bool) (text : List Char) : List Char :=
  if negative then '-' :: text else text

/-- Text of a double whose finite non-zero magnitudes are written by `form`. -/
def written (form : Decimal → List Char) (x : Float) : List Char :=
  match decode x with
  | .nan => ['N', 'a', 'N']
  | .infinite negative => signed negative ['i', 'n', 'f']
  | .finite negative mantissa exponent =>
    signed negative (if mantissa = 0 then ['0'] else form (Decimal.shortest mantissa exponent))

/-- Positional text of any double. -/
def plainText (x : Float) : List Char := written Decimal.plain x

/-- Text of a continuous constant of a formula. -/
def constantText (x : Float) : List Char :=
  if x == missing then ['#', 'M', 'i', 's', 's', 'i', 'n', 'g']
  else if (decode x).isWhole && x.abs < 1e15 then Decimal.intChars (floorInt64 x)
  else if 1e15 ≤ x.abs || x.abs < 1e-5 then written Decimal.scientific x
  else plainText x

end Scalar

end FeatureSynth
