import Formulary.Rank

namespace Formulary

/-- The number digits · 10 to the exponent. -/
structure Decimal where
  digits : Nat
  exponent : Int
deriving DecidableEq, Repr

/-- The rank of the binary64 value nearest to a decimal. A decimal from 10³¹⁰ on is infinite and
one below 2⁻¹⁰⁷⁶ is zero, so no exponent asks for a power of ten out of proportion to the digits. -/
def Decimal.rank (d : Decimal) : Nat :=
  if d.digits = 0 then 0
  else if 309 < d.exponent then infiniteRank
  else if (d.digits.log2 : Int) + 1077 ≤ -3 * d.exponent then 0
  else nearestRank (d.digits * Nat.pow 10 d.exponent.toNat) (Nat.pow 10 (-d.exponent).toNat)

/-- The exact decimal of a finite rank: 2⁻¹⁰⁷⁴ is 5¹⁰⁷⁴ · 10⁻¹⁰⁷⁴. -/
def Decimal.ofRank (rank : Nat) : Decimal :=
  ⟨unitsOfRank rank * Nat.pow 5 1074, -1074⟩

end Formulary
