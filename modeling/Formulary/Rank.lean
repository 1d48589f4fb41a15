namespace Formulary

/-- The nonnegative binary64 values are numbered upwards from zero in blocks of 2⁵² ranks.
Within a block they are equally far apart. -/
def blockSize : Nat := Nat.pow 2 52

/-- Infinity comes after all finite values. -/
def infiniteRank : Nat := 2047 * blockSize

/-- A value as a multiple of the least positive one, 2⁻¹⁰⁷⁴.
The first two blocks have this step, and each later block has twice the step of the one before. -/
def unitsOfRank (rank : Nat) : Nat :=
  if rank < blockSize then rank
  else (blockSize + rank % blockSize) * Nat.pow 2 (rank / blockSize - 1)

/-- The integer nearest to a quotient; a half goes to the even neighbour. -/
def roundHalfEven (num den : Nat) : Nat :=
  let quotient := num / den
  let twice := 2 * (num % den)
  if twice < den then quotient
  else if twice = den then quotient + quotient % 2
  else quotient + 1

/-- The rank of the value nearest to a quotient of positive denominator, the even rank in a tie.
The quotient is rounded in the step of its block; a carry gives the next block's first rank. -/
def nearestRank (num den : Nat) : Nat :=
  let units := num * Nat.pow 2 1074
  let doublings := (units / den).log2 - 52
  min (doublings * blockSize + roundHalfEven units (den * Nat.pow 2 doublings)) infiniteRank

def floatOfRank (rank : Nat) : Float :=
  Float.ofBits (UInt64.ofNat rank)

/-- The place value of the sign in the bits of a number. -/
def signBit : Nat := Nat.pow 2 63

/-- The rank of the absolute value; NaN has a rank beyond infinity. -/
def rankOfFloat (x : Float) : Nat :=
  x.toBits.toNat % signBit

def isNegative (x : Float) : Bool :=
  signBit ≤ x.toBits.toNat

def infinity : Float := floatOfRank infiniteRank

def notANumber : Float := floatOfRank (infiniteRank + blockSize / 2)

end Formulary
