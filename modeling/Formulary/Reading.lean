import Formulary.Shape

namespace Formulary

/-- What a text is read as where a number may stand. -/
inductive Reading where
  | number (value : Float)
  /-- A literal whose value is beyond the finite numbers. -/
  | outOfRange
  | notALiteral

def Reading.negate : Reading → Reading
  | .number value => .number (-value)
  | .outOfRange => .outOfRange
  | .notALiteral => .notALiteral

/-- The characters that literals are made of. -/
def isLiteralChar (c : Char) : Bool :=
  c.isDigit || c = '.' || c = 'e' || c = 'E' || c = '+' || c = '-'

/-- Reads a literal by its characters first: of the words that `readNumber?` knows, those without a
digit and those with other letters are none. -/
def readLiteral (text : List Char) : Reading :=
  if text = [] || !text.all isLiteralChar || !text.any Char.isDigit then .notALiteral
  else match readNumber? text with
    | some value => if value.isFinite then .number value else .outOfRange
    | none => .notALiteral

/-- The shape of an operand that is no literal. -/
def Fragment.unreadShape (f : Fragment) : Shape :=
  if f.text.head? = some '-' then .minus (f.after 0)
  else if f.text.head? = some '+' then .plus (f.after 0)
  else match f.call? with
    | some (name, inside) =>
      if isName name then .call (String.ofList name) f inside.arguments
      else .fault .invalidExtensionName f
    | none => if isName f.text then .name f else .fault .invalidToken f

end Formulary
