import Formulary.Blank

namespace Formulary

/-- A piece of a source text, with the number of UTF-8 bytes before it. -/
structure Fragment where
  offset : Nat
  text : List Char
deriving DecidableEq, Repr

/-- The number of UTF-8 bytes of a text. -/
def textSize : List Char → Nat
  | [] => 0
  | c :: rest => c.utf8Size + textSize rest

def Fragment.ofString (source : String) : Fragment := ⟨0, source.toList⟩

/-- The offset of the character at a position. -/
def Fragment.offsetAt (f : Fragment) (i : Nat) : Nat :=
  f.offset + textSize (f.text.take i)

def Fragment.stop (f : Fragment) : Nat :=
  f.offset + textSize f.text

/-- What stands left of the character at a position. -/
def Fragment.before (f : Fragment) (i : Nat) : Fragment :=
  ⟨f.offset, f.text.take i⟩

/-- What stands right of the character at a position. -/
def Fragment.after (f : Fragment) (i : Nat) : Fragment :=
  ⟨f.offsetAt (i + 1), f.text.drop (i + 1)⟩

def Fragment.trim (f : Fragment) : Fragment :=
  ⟨f.offset + textSize (f.text.takeWhile isBlank), Formulary.trim isBlank f.text⟩

theorem Fragment.trim_length_le (f : Fragment) : f.trim.text.length ≤ f.text.length :=
  Nat.le_trans (trimEnd_length_le _ _) (List.dropWhile_sublist isBlank).length_le

/-- What stands for each byte of a character that a bound cuts. It is one byte long. -/
def substitute : Char := '\x1a'

/-- The first `size` bytes of a text. -/
def takeSize : Nat → List Char → List Char
  | _, [] => []
  | size, c :: rest =>
    if c.utf8Size ≤ size then c :: takeSize (size - c.utf8Size) rest
    else List.replicate size substitute

/-- A text without its first `size` bytes. -/
def dropSize : Nat → List Char → List Char
  | _, [] => []
  | size, c :: rest =>
    if size = 0 then c :: rest
    else if c.utf8Size ≤ size then dropSize (size - c.utf8Size) rest
    else List.replicate (c.utf8Size - size) substitute ++ rest

/-- The fragment between two offsets of a source text. -/
def Fragment.between (source : String) (start stop : Nat) : Fragment :=
  ⟨start, takeSize (stop - start) (dropSize start source.toList)⟩

end Formulary
