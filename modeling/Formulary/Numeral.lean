import Formulary.Decimal

namespace Formulary

/-- A number as it is written: `[+-]? (d+ (. d*)? | . d+) ([eE] [+-]? d+)?`.
Words such as `inf` are no numerals. -/
structure Numeral where
  negative : Bool
  decimal : Decimal
deriving DecidableEq, Repr

/-- Whether a leading `-` is present, and the text after the sign if there is one. -/
def splitSign : List Char → Bool × List Char
  | '-' :: rest => (true, rest)
  | '+' :: rest => (false, rest)
  | text => (false, text)

/-- The digits after a point, and the text after them. -/
def splitFraction : List Char → List Char × List Char
  | '.' :: rest => (rest.takeWhile Char.isDigit, rest.dropWhile Char.isDigit)
  | text => ([], text)

/-- The exponent that makes up a whole text; without one it is zero. -/
def readExponent? : List Char → Option Int
  | [] => some 0
  | c :: rest =>
    let (negative, digits) := splitSign rest
    if (c = 'e' ∨ c = 'E') ∧ digits ≠ [] ∧ digits.all Char.isDigit then
      let magnitude : Int := Nat.ofDigitChars 10 digits 0
      some (if negative then -magnitude else magnitude)
    else none

def Numeral.read? (text : List Char) : Option Numeral :=
  let (negative, unsigned) := splitSign text
  let whole := unsigned.takeWhile Char.isDigit
  let (fraction, rest) := splitFraction (unsigned.dropWhile Char.isDigit)
  if whole ++ fraction = [] then none
  else (readExponent? rest).map fun exponent =>
    ⟨negative, ⟨Nat.ofDigitChars 10 (whole ++ fraction) 0, exponent - fraction.length⟩⟩

/-- Whether the nearest binary64 value is finite. -/
def Numeral.inRange (n : Numeral) : Bool := n.decimal.rank < infiniteRank

/-- The nearest binary64 value, infinite when the numeral is out of range. -/
def Numeral.value (n : Numeral) : Float :=
  let magnitude := floatOfRank n.decimal.rank
  if n.negative then -magnitude else magnitude

/-- The value of a word that a user gives for a number.
Besides numerals these are signed or unsigned `inf`, `infinity` and `nan` in any case of letters. -/
def readNumber? (text : List Char) : Option Float :=
  match Numeral.read? text with
  | some n => some n.value
  | none =>
    let (negative, word) := splitSign text
    let signed (x : Float) := if negative then -x else x
    match String.ofList (word.map Char.toLower) with
    | "inf" | "infinity" => some (signed infinity)
    | "nan" => some (signed notANumber)
    | _ => none

end Formulary
