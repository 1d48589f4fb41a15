import Formulary.Fragment

namespace Formulary

def isMantissa (c : Char) : Bool := c.isDigit || c = '.'

def isWord (c : Char) : Bool := c.isAlphanum || c = '_' || c = '.'

/-- Whether a sign after the reversed text `before` belongs to the exponent of a number.
The letter before it then follows a mantissa with a digit that is not the end of a longer word. -/
def isExponentSign : List Char → Bool
  | [] => false
  | letter :: before =>
    (letter = 'e' || letter = 'E') && (before.takeWhile isMantissa).any Char.isDigit &&
      (before.dropWhile isMantissa).head?.all fun c => !isWord c

/-- Whether `+` or `-` after the reversed text `before` is a sign and not a binary operator. -/
def isSignAfter (before : List Char) : Bool :=
  match before.find? fun c => !isBlank c with
  | none => true
  | some c => "+-*/^(,".toList.contains c || isExponentSign before

def isPlusMinus (c : Char) : Bool := c = '+' || c = '-'

/-- The offset of each `+` and `-` with whether it is a sign. -/
def signsFrom (before : List Char) (offset : Nat) : List Char → List (Nat × Bool)
  | [] => []
  | c :: rest =>
    let later := signsFrom (c :: before) (offset + c.utf8Size) rest
    if isPlusMinus c then (offset, isSignAfter before) :: later else later

def Fragment.signs (f : Fragment) : List (Nat × Bool) :=
  signsFrom [] f.offset f.text

end Formulary
