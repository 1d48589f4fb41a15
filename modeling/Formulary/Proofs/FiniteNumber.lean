import Formulary.Numeral

namespace Formulary

open Float.Model

/-- A number that is neither NaN nor infinite, and is not packed as infinity either. -/
def Packable : UnpackedFloat → Prop
  | .notANumber | .infinity _ => False
  | .zero _ => True
  | .finite _ _ exponent _ => (exponent + 1023 + 52).toNat < 2047

section Pack

variable {x : UnpackedFloat} {bits : BitVec Format.binary64.numBits}

theorem Packable.isFinite (h : Packable x) : x.isFinite = true := by
  cases x with
  | notANumber => exact h.elim
  | infinity sign => exact h.elim
  | zero sign => rfl
  | finite sign mantissa exponent pos => rfl

/-- The exponent of all ones is that of infinity and NaN. -/
theorem unpack_cases (bits : BitVec Format.binary64.numBits) :
    (UnpackedFloat.unpack .binary64 bits).isFinite = false ∧
        (UnpackedFloat.unpackExponent bits).toNat = 2047 ∨
      Packable (UnpackedFloat.unpack .binary64 bits) ∧
        (UnpackedFloat.unpackExponent bits).toNat < 2047 := by
  have hlt : (UnpackedFloat.unpackExponent bits).toNat < 2048 :=
    (UnpackedFloat.unpackExponent bits).isLt
  have hones : (UnpackedFloat.unpackExponent bits).toNat = 2047 ↔
      UnpackedFloat.unpackExponent bits = -1#11 := BitVec.toNat_inj (y := -1#11)
  unfold UnpackedFloat.unpack
  dsimp only
  by_cases hexp : UnpackedFloat.unpackExponent bits = -1#11
  · rw [if_pos hexp]
    refine Or.inl ⟨?_, hones.mpr hexp⟩
    by_cases hfraction : UnpackedFloat.unpackMantissa bits = 0#52
    · rw [if_pos hfraction]
      rfl
    · rw [if_neg hfraction]
      rfl
  · have hne : (UnpackedFloat.unpackExponent bits).toNat ≠ 2047 := fun h => hexp (hones.mp h)
    rw [if_neg hexp]
    refine Or.inr ⟨?_, by omega⟩
    by_cases hzero : UnpackedFloat.unpackExponent bits = 0#11
    · rw [if_pos hzero]
      by_cases hfraction : UnpackedFloat.unpackMantissa bits = 0#52
      · rw [dif_pos hfraction]
        trivial
      · -- A subnormal number has the exponent of the least normal ones.
        rw [dif_neg hfraction, hzero]
        show ((0 : Nat) - ((1023 : Nat) + (52 : Nat) : Int) + 1 + 1023 + 52).toNat < 2047
        decide
    · rw [if_neg hzero]
      show (((UnpackedFloat.unpackExponent bits).toNat : Int) - ((1023 : Nat) + (52 : Nat)) +
        1023 + 52).toNat < 2047
      omega

theorem packable_unpack (h : (UnpackedFloat.unpackExponent bits).toNat < 2047) :
    Packable (UnpackedFloat.unpack .binary64 bits) := by
  rcases unpack_cases bits with ⟨_, hexp⟩ | ⟨hpackable, _⟩
  · omega
  · exact hpackable

theorem packable_of_isFinite (h : (UnpackedFloat.unpack .binary64 bits).isFinite = true) :
    Packable (UnpackedFloat.unpack .binary64 bits) := by
  rcases unpack_cases bits with ⟨hnot, _⟩ | ⟨hpackable, _⟩
  · rw [hnot] at h
    exact absurd h Bool.false_ne_true
  · exact hpackable

theorem Packable.neg (h : Packable x) : Packable x.neg := by
  cases x <;> exact h

theorem pack_finite_eq (sign : UnpackedFloat.Sign) {mantissa : Nat} {exponent : Int}
    (pos : 0 < mantissa) :
    UnpackedFloat.pack .binary64 (.finite sign mantissa exponent pos) =
      if 2048 ≤ (exponent + 1023 + 52).toNat + 1 then UnpackedFloat.packedInfinity .binary64 sign
      else if mantissa.log2 + 1 = 53 then
        UnpackedFloat.packComponents .binary64 sign (BitVec.ofNat 11 (exponent + 1023 + 52).toNat)
          (BitVec.ofNat 52 mantissa)
      else UnpackedFloat.packComponents .binary64 sign (BitVec.ofNat 11 0)
        (BitVec.ofNat 52 mantissa) :=
  rfl

/-- The exponent is not all ones in the packed number: a subnormal one gets zero. -/
theorem pack_finite (sign : UnpackedFloat.Sign) {mantissa : Nat} {exponent : Int}
    (pos : 0 < mantissa) (h : (exponent + 1023 + 52).toNat < 2047) :
    ∃ biased fraction, biased < 2047 ∧
      UnpackedFloat.pack .binary64 (.finite sign mantissa exponent pos) =
        UnpackedFloat.packComponents .binary64 sign (BitVec.ofNat 11 biased) fraction := by
  rw [pack_finite_eq, if_neg (by omega)]
  split
  · exact ⟨_, _, h, rfl⟩
  · exact ⟨0, _, by decide, rfl⟩

theorem Packable.isFinite_unpack (h : Packable x) :
    (UnpackedFloat.unpack .binary64 (UnpackedFloat.pack .binary64 x)).isFinite = true := by
  refine (packable_unpack ?_).isFinite
  cases x with
  | notANumber => exact h.elim
  | infinity sign => exact h.elim
  | zero sign =>
    show (UnpackedFloat.unpackExponent (UnpackedFloat.packComponents .binary64 sign 0 0)).toNat < _
    rw [UnpackedFloat.unpackExponent_packComponents]
    decide
  | finite sign mantissa exponent pos =>
    obtain ⟨biased, fraction, hbiased, hpack⟩ := pack_finite sign pos h
    rw [hpack, UnpackedFloat.unpackExponent_packComponents, BitVec.toNat_ofNat]
    exact Nat.lt_of_le_of_lt (Nat.mod_le _ _) hbiased

end Pack

theorem isFinite_neg {x : Float} (h : x.isFinite = true) : (-x).isFinite = true :=
  (packable_of_isFinite h).neg.isFinite_unpack

theorem isFinite_floatOfRank {rank : Nat} (h : rank < infiniteRank) :
    (floatOfRank rank).isFinite = true := by
  have hrank : rank < 2047 * 2 ^ 52 := h
  have hexp : (@UnpackedFloat.unpackExponent .binary64 (UInt64.ofNat rank).toBitVec).toNat =
      rank / 2 ^ 52 := by
    rw [UnpackedFloat.unpackExponent, BitVec.toNat_cast, BitVec.extractLsb_toNat,
      UInt64.toNat_toBitVec, UInt64.toNat_ofNat_of_lt' (Nat.lt_of_lt_of_le hrank (by decide)),
      Nat.shiftRight_eq_div_pow]
    exact Nat.mod_eq_of_lt (by show rank / 2 ^ 52 < 2048; omega)
  exact (packable_unpack (by omega)).isFinite_unpack

theorem Numeral.isFinite_value {n : Numeral} (h : n.inRange = true) :
    n.value.isFinite = true := by
  have hmagnitude := isFinite_floatOfRank (of_decide_eq_true h)
  unfold Numeral.value
  simp only
  split
  · exact isFinite_neg hmagnitude
  · exact hmagnitude

end Formulary
