namespace Formulary

/-- The blanks that may stand between any two tokens. -/
def isBlank (c : Char) : Bool :=
  c = ' ' || c = '\t' || c = '\n' || c = '\x0c' || c = '\r'

/-- The characters with the Unicode property White_Space. They separate the words of a command,
and they may stand between the name and the parenthesis of a call. -/
def isSpace (c : Char) : Bool :=
  let n := c.toNat
  (0x09 ≤ n && n ≤ 0x0D) || n = 0x20 || n = 0x85 || n = 0xA0 || n = 0x1680 ||
    (0x2000 ≤ n && n ≤ 0x200A) || n = 0x2028 || n = 0x2029 || n = 0x202F || n = 0x205F ||
    n = 0x3000

theorem isSpace_of_isBlank {c : Char} (h : isBlank c = true) : isSpace c = true := by
  simp only [isBlank, Bool.or_eq_true, decide_eq_true_eq] at h
  rcases h with (((rfl | rfl) | rfl) | rfl) | rfl <;> decide

/-- Removes the longest tail whose characters satisfy `p`. -/
def trimEnd (p : Char → Bool) (text : List Char) : List Char :=
  (text.reverse.dropWhile p).reverse

def trim (p : Char → Bool) (text : List Char) : List Char :=
  trimEnd p (text.dropWhile p)

theorem trimEnd_length_le (p : Char → Bool) (text : List Char) :
    (trimEnd p text).length ≤ text.length := by
  have h := (List.dropWhile_sublist p (l := text.reverse)).length_le
  simpa [trimEnd] using h

end Formulary
