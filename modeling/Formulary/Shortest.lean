import Formulary.Decimal

namespace Formulary

def decimalDigits (n : Nat) : List Char :=
  Nat.toDigits 10 n

/-- The two neighbours of a decimal among those with `dropped` digits less, the nearer one first.
Of two equally near ones the upper comes first. -/
def Decimal.neighbours (d : Decimal) (dropped : Nat) : List Decimal :=
  let step := Nat.pow 10 dropped
  let below : Decimal := ⟨d.digits / step, d.exponent + dropped⟩
  let above : Decimal := ⟨d.digits / step + 1, d.exponent + dropped⟩
  if 2 * (d.digits % step) < step then [below, above] else [above, below]

/-- The decimal with the fewest digits that reads back as a finite rank, the nearest one of those.
The exact decimal reads back itself, so the search ends there at the latest. -/
def Decimal.shortest (rank : Nat) : Decimal :=
  let exact := Decimal.ofRank rank
  let count := (decimalDigits exact.digits).length
  let found := (List.range count).findSome? fun kept =>
    (exact.neighbours (count - (kept + 1))).find? fun d => d.rank = rank
  found.getD exact

/-- How a number is laid out. An exponent is written unless the number of digits before the point
lies in the range `positional`; zeros after the point count as negative. No range admits all. -/
structure Layout where
  positional : Option (Int × Int)
  keepsPoint : Bool

/-- Numbers in replies are positional throughout, and whole ones have no point. -/
def Layout.plain : Layout := ⟨none, false⟩

/-- Numbers in inspected values are positional from 1e-4 to below 1e16, and have a point there. -/
def Layout.inspected : Layout := ⟨some (-3, 16), true⟩

def zeros (count : Int) : List Char :=
  List.replicate count.toNat '0'

/-- Digits of which the first `point` stand before the point. -/
def positionalText (keepsPoint : Bool) (digits : List Char) (point : Int) : List Char :=
  if point ≤ 0 then '0' :: '.' :: zeros (-point) ++ digits
  else if digits.length ≤ point then
    digits ++ zeros (point - digits.length) ++ if keepsPoint then ['.', '0'] else []
  else digits.take point.toNat ++ '.' :: digits.drop point.toNat

def exponentText (digits : List Char) (point : Int) : List Char :=
  let mantissa := match digits with
    | first :: second :: rest => first :: '.' :: second :: rest
    | short => short
  mantissa ++ 'e' :: (toString (point - 1)).toList

/-- The text of a decimal other than zero. Zeros at the end of the digits are not written. -/
def Layout.decimalText (layout : Layout) (d : Decimal) : List Char :=
  let all := decimalDigits d.digits
  let point := all.length + d.exponent
  let digits := (all.reverse.dropWhile (· = '0')).reverse
  match layout.positional with
  | none => positionalText layout.keepsPoint digits point
  | some (least, greatest) =>
    if least ≤ point ∧ point ≤ greatest then positionalText layout.keepsPoint digits point
    else exponentText digits point

/-- The text of a number: the fewest digits that read back, and words for infinity and NaN. -/
def Layout.write (layout : Layout) (x : Float) : List Char :=
  let rank := rankOfFloat x
  if infiniteRank < rank then "NaN".toList
  else
    let sign := if isNegative x then ['-'] else []
    let magnitude :=
      if rank = infiniteRank then "inf".toList
      else if rank = 0 then if layout.keepsPoint then "0.0".toList else ['0']
      else layout.decimalText (Decimal.shortest rank)
    sign ++ magnitude

def plainNumber (x : Float) : String := String.ofList (Layout.plain.write x)

def inspectNumber (x : Float) : String := String.ofList (Layout.inspected.write x)

end Formulary
