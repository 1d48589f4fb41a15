import Formulary.Rank
import Mathlib

namespace Formulary

open Float.Model

open UnpackedFloat (Sign packComponents)

theorem toNat_append {w v : Nat} (x : BitVec w) (y : BitVec v) :
    (x ++ y).toNat = x.toNat * 2 ^ v + y.toNat := by
  rw [BitVec.toNat_append, ← Nat.shiftLeft_add_eq_or_of_lt y.isLt, Nat.shiftLeft_eq]

section Components

variable {sign : Sign} {exponent : BitVec 11} {fraction : BitVec 52}

/-- The parts of a number stand one after the other in its bits. -/
theorem toNat_components : (packComponents .binary64 sign exponent fraction).toNat =
    (sign.toBitVec.toNat * 2 ^ 11 + exponent.toNat) * 2 ^ 52 + fraction.toNat := by
  show (sign.toBitVec ++ exponent ++ fraction).toNat = _
  rw [toNat_append, toNat_append]

/-- Only an exponent of all ones has fractions that are no numbers. -/
theorem pack_unpack_components (h : exponent = -1#11 → fraction = 0#52) :
    UnpackedFloat.pack .binary64
        (UnpackedFloat.unpack .binary64 (packComponents .binary64 sign exponent fraction)) =
      packComponents .binary64 sign exponent fraction := by
  refine UnpackedFloat.pack_unpack_of_valid ⟨fun hones hne => absurd (h ?_) ?_⟩
  · rwa [UnpackedFloat.unpackExponent_packComponents] at hones
  · rwa [UnpackedFloat.unpackMantissa_packComponents] at hne

theorem neg_unpack_components :
    (UnpackedFloat.unpack .binary64 (packComponents .binary64 sign exponent fraction)).neg =
      UnpackedFloat.unpack .binary64 (packComponents .binary64 (-sign) exponent fraction) := by
  simp only [UnpackedFloat.unpack, UnpackedFloat.unpackMantissa_packComponents,
    UnpackedFloat.unpackExponent_packComponents, UnpackedFloat.unpackSign_packComponents,
    Sign.ofBitVec_toBitVec]
  split
  · split <;> rfl
  · split
    · split <;> rfl
    · rfl

end Components

section Rank

variable {x : Float}

theorem components_of_number (h : x.isNaN = false) : ∃ sign exponent fraction,
    x.toBits.toBitVec = packComponents .binary64 sign exponent fraction ∧
      (exponent = -1#11 → fraction = 0#52) := by
  have hparts : packComponents .binary64 _ _ _ = x.toBits.toBitVec :=
    UnpackedFloat.packComponents_unpackSign_unpackExponent_unpackMantissa _
  refine ⟨_, _, _, hparts.symm, fun hones => ?_⟩
  by_contra hne
  have hnan : x.isNaN = true := (UnpackedFloat.isNaN_unpack_iff_of_valid x.toModel.valid).mpr
    (x.toModel.valid.eq_packedNaN hones hne)
  rw [hnan] at h
  cases h

variable {sign : Sign} {exponent : BitVec 11} {fraction : BitVec 52}

theorem rankOfFloat_eq (h : x.toBits.toBitVec = packComponents .binary64 sign exponent fraction) :
    rankOfFloat x = exponent.toNat * blockSize + fraction.toNat := by
  have hexponent : exponent.toNat < 2 ^ 11 := exponent.isLt
  have hfraction : fraction.toNat < 2 ^ 52 := fraction.isLt
  show x.toBits.toBitVec.toNat % 2 ^ 63 = exponent.toNat * 2 ^ 52 + fraction.toNat
  rw [h, toNat_components]
  omega

theorem isNegative_iff (h : x.toBits.toBitVec = packComponents .binary64 sign exponent fraction) :
    isNegative x = true ↔ sign = .negative := by
  have hexponent : exponent.toNat < 2 ^ 11 := exponent.isLt
  have hfraction : fraction.toNat < 2 ^ 52 := fraction.isLt
  have hbits : isNegative x = true ↔ 2 ^ 63 ≤ x.toBits.toBitVec.toNat := decide_eq_true_iff
  rw [hbits, h, toNat_components]
  cases sign with
  | negative =>
    have hone : Sign.negative.toBitVec.toNat = 1 := rfl
    rw [hone]
    exact ⟨fun _ => rfl, fun _ => by omega⟩
  | positive =>
    have hzero : Sign.positive.toBitVec.toNat = 0 := rfl
    rw [hzero]
    exact ⟨fun hle => by omega, fun hne => by cases hne⟩

theorem ofNat_rank (h : x.toBits.toBitVec = packComponents .binary64 sign exponent fraction) :
    (UInt64.ofNat (rankOfFloat x)).toBitVec =
      packComponents .binary64 .positive exponent fraction := by
  have hexponent : exponent.toNat < 2 ^ 11 := exponent.isLt
  have hfraction : fraction.toNat < 2 ^ 52 := fraction.isLt
  have hblock : blockSize = 2 ^ 52 := rfl
  have hzero : Sign.positive.toBitVec.toNat = 0 := rfl
  refine BitVec.eq_of_toNat_eq ?_
  rw [toNat_components, hzero, rankOfFloat_eq h, hblock, UInt64.toNat_toBitVec,
    UInt64.toNat_ofNat']
  omega

/-- A number is given by its sign and its rank. -/
theorem signed_floatOfRank (h : x.isNaN = false) :
    (if isNegative x then -floatOfRank (rankOfFloat x) else floatOfRank (rankOfFloat x)) = x := by
  obtain ⟨sign, exponent, fraction, hbits, hnumber⟩ := components_of_number h
  have hmagnitude : (floatOfRank (rankOfFloat x)).toBits.toBitVec =
      packComponents .binary64 .positive exponent fraction := by
    show UnpackedFloat.pack .binary64 (UnpackedFloat.unpack .binary64
      (UInt64.ofNat (rankOfFloat x)).toBitVec) = _
    rw [ofNat_rank hbits, pack_unpack_components hnumber]
  rw [← Float.toBits_inj, ← UInt64.toBitVec_inj, hbits]
  cases sign with
  | negative =>
    rw [if_pos ((isNegative_iff hbits).mpr rfl)]
    show UnpackedFloat.pack .binary64 (UnpackedFloat.unpack .binary64
      (floatOfRank (rankOfFloat x)).toBits.toBitVec).neg = _
    rw [hmagnitude, neg_unpack_components]
    exact pack_unpack_components hnumber
  | positive =>
    have hnot : ¬ isNegative x = true := fun hneg => by cases (isNegative_iff hbits).mp hneg
    rw [if_neg hnot, hmagnitude]

theorem rankOfFloat_le (h : x.isNaN = false) : rankOfFloat x ≤ infiniteRank := by
  obtain ⟨sign, exponent, fraction, hbits, hnumber⟩ := components_of_number h
  have hexponent : exponent.toNat < 2 ^ 11 := exponent.isLt
  have hfraction : fraction.toNat < 2 ^ 52 := fraction.isLt
  rw [rankOfFloat_eq hbits]
  show exponent.toNat * 2 ^ 52 + fraction.toNat ≤ 2047 * 2 ^ 52
  by_cases hones : exponent.toNat = 2047
  · have hnone : fraction.toNat = 0 := by
      rw [hnumber (BitVec.eq_of_toNat_eq hones)]
      rfl
    omega
  · omega

end Rank

end Formulary
