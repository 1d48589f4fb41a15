import Mathlib.Algebra.Order.Field.Power
import Mathlib.Data.Rat.Cast.Order
import Formulary.Proofs.RankRounding

namespace Formulary

section Round

variable {units den k : Nat}

theorem roundHalfEven_le (num den : Nat) : roundHalfEven num den ≤ num / den + 1 := by
  rw [roundHalfEven]
  split
  · exact Nat.le_succ _
  · split
    · omega
    · exact Nat.le_refl _

/-- What is rounded below an even number is nearer to the number before it; the half between the
two goes to the even one. -/
theorem roundHalfEven_lt_iff (hden : 0 < den) (hk : k % 2 = 0) (hpos : 0 < k) :
    roundHalfEven units den < k ↔ 2 * units < (2 * k - 1) * den := by
  obtain ⟨last, rfl⟩ : ∃ last, k = last + 1 := ⟨k - 1, by omega⟩
  have hunits : 2 * units = 2 * (units / den) * den + 2 * (units % den) := by
    have := Nat.div_add_mod' units den
    rw [Nat.mul_assoc]
    omega
  have hrest : units % den < den := Nat.mod_lt _ hden
  have hmiddle : (2 * (last + 1) - 1) * den = 2 * last * den + den := by
    rw [show 2 * (last + 1) - 1 = 2 * last + 1 by omega, Nat.add_mul, Nat.one_mul]
  rcases Nat.lt_trichotomy (units / den) last with hlt | heq | hgt
  · have hround := roundHalfEven_le units den
    have hstep : 2 * (units / den + 1) * den ≤ 2 * last * den :=
      Nat.mul_le_mul_right den (by omega)
    rw [Nat.mul_add, Nat.add_mul] at hstep
    exact ⟨fun _ => by omega, fun _ => by omega⟩
  · have hround : roundHalfEven units den < last + 1 ↔ 2 * (units % den) < den := by
      rw [roundHalfEven, heq]
      split
      next h => exact ⟨fun _ => h, fun _ => by omega⟩
      next h =>
        split
        · exact ⟨fun _ => by omega, fun _ => by omega⟩
        · exact ⟨fun _ => by omega, fun _ => by omega⟩
    rw [hround, hunits, hmiddle, heq]
    omega
  · have hround := div_le_roundHalfEven units den
    have hstep : 2 * (last + 1) * den ≤ 2 * (units / den) * den :=
      Nat.mul_le_mul_right den (by omega)
    rw [Nat.mul_add, Nat.add_mul] at hstep
    exact ⟨fun _ => by omega, fun _ => by omega⟩

/-- Numbers below 2¹⁰²³ stay away from the last block. -/
theorem unitsRank_of_log2_lt (hlog : (units / den).log2 < 2097) :
    unitsRank units den < infiniteRank := by
  have hquotient : units / den < 2 ^ ((units / den).log2 - 52 + 53) :=
    Nat.lt_of_lt_of_le Nat.lt_log2_self (Nat.pow_le_pow_right (by decide) (by omega))
  have hplaces : units / (den * 2 ^ ((units / den).log2 - 52)) < 2 ^ 53 := by
    rw [← Nat.div_div_eq_div_mul, Nat.div_lt_iff_lt_mul (Nat.two_pow_pos _), ← Nat.pow_add]
    rwa [Nat.add_comm] at hquotient
  have hround := roundHalfEven_le units (den * 2 ^ ((units / den).log2 - 52))
  have hblocks := Nat.mul_le_mul_right blockSize (show (units / den).log2 - 52 ≤ 2044 by omega)
  have hinfinite : infiniteRank = 2044 * blockSize + 2 ^ 53 + 2 ^ 52 := rfl
  refine Nat.lt_of_le_of_lt (Nat.min_le_left _ _) ?_
  omega

/-- A number is finite when it is nearer to the last finite one than to 2¹⁰²⁴. -/
theorem unitsRank_lt_iff (hden : 0 < den) (hk : k = 2044) :
    unitsRank units den < infiniteRank ↔ units < (2 ^ 54 - 1) * 2 ^ k * den := by
  have hmin : ∀ rank, min rank infiniteRank < infiniteRank ↔ rank < infiniteRank := by omega
  rcases Nat.lt_trichotomy (units / den).log2 (k + 53) with hlt | heq | hgt
  · have hquotient : units / den < 2 ^ (53 + k) :=
      Nat.lt_of_lt_of_le Nat.lt_log2_self (Nat.pow_le_pow_right (by decide) (by omega))
    rw [Nat.div_lt_iff_lt_mul hden, Nat.pow_add] at hquotient
    have hbound : 2 ^ 53 * 2 ^ k * den ≤ (2 ^ 54 - 1) * 2 ^ k * den :=
      Nat.mul_le_mul_right den (Nat.mul_le_mul_right (2 ^ k) (by decide))
    exact ⟨fun _ => Nat.lt_of_lt_of_le hquotient hbound,
      fun _ => unitsRank_of_log2_lt (by omega)⟩
  · have hdoublings : k + 53 - 52 = k + 1 := by omega
    have hpower : (2 * 2 ^ 53 - 1) * (den * 2 ^ (k + 1)) = 2 * ((2 ^ 54 - 1) * 2 ^ k * den) := by
      have hdouble : 2 ^ (k + 1) = 2 ^ k * 2 := Nat.pow_succ _ _
      have hodd : 2 * 2 ^ 53 - 1 = 2 ^ 54 - 1 := by decide
      rw [hdouble, hodd]
      generalize 2 ^ 54 - 1 = odd
      ac_rfl
    have hplaces : roundHalfEven units (den * 2 ^ (k + 1)) < 2 ^ 53 ↔ _ :=
      roundHalfEven_lt_iff (Nat.mul_pos hden (Nat.two_pow_pos (k + 1))) (by decide) (by decide)
    rw [hpower, Nat.mul_lt_mul_left (by decide)] at hplaces
    have hblocks : infiniteRank = (k + 1) * blockSize + 2 ^ 53 := by
      rw [hk]
      rfl
    rw [unitsRank, heq, hdoublings, ← hplaces, hmin, hblocks, Nat.add_lt_add_iff_left]
  · have hne : units / den ≠ 0 := by
      intro hzero
      rw [hzero, Nat.log2_zero] at hgt
      exact absurd hgt (Nat.not_lt_zero _)
    have hquotient : 2 ^ (54 + k) ≤ units / den :=
      Nat.le_trans (Nat.pow_le_pow_right (by decide) (by omega)) (Nat.log2_self_le hne)
    rw [Nat.le_div_iff_mul_le hden] at hquotient
    have hlarge : unitsRank units den = infiniteRank :=
      unitsRank_of_large hden (k := 54 + k) (by omega) (by rwa [Nat.mul_comm])
    have hbound : (2 ^ 54 - 1) * 2 ^ k * den ≤ units := by
      refine Nat.le_trans (Nat.mul_le_mul_right den ?_) hquotient
      rw [Nat.pow_add]
      exact Nat.mul_le_mul_right (2 ^ k) (by decide)
    exact ⟨fun h => absurd h (by rw [hlarge]; exact Nat.lt_irrefl _),
      fun h => absurd h (Nat.not_lt.mpr hbound)⟩

end Round

namespace Decimal

theorem ten_zpow_eq (e : Int) : (10 : ℚ) ^ e = 10 ^ e.toNat / 10 ^ (-e).toNat := by
  have hsplit : e = (e.toNat : Int) - ((-e).toNat : Int) := by omega
  conv_lhs => rw [hsplit]
  rw [zpow_sub₀ (by decide), zpow_natCast, zpow_natCast]

/-- A decimal is finite below the number halfway between the last finite one and 2¹⁰²⁴. -/
theorem rank_lt_iff (d : Decimal) :
    d.rank < infiniteRank ↔ (d.digits : ℚ) * 10 ^ d.exponent < 2 ^ 1024 - 2 ^ 970 := by
  obtain ⟨digits, e⟩ := d
  have hbound : (2 : ℚ) ^ 1024 - 2 ^ 970 = ((2 ^ 54 - 1 : Nat) : ℚ) * 2 ^ 970 := by
    have hodd : ((2 ^ 54 - 1 : Nat) : ℚ) = 2 ^ 54 - 1 := by norm_num
    rw [hodd, sub_mul, one_mul, ← pow_add]
  have hodd : 0 < 2 ^ 54 - 1 := by decide
  rw [hbound]
  by_cases hzero : digits = 0
  · rw [hzero, rank_zero, Nat.cast_zero, zero_mul]
    exact iff_of_true (by decide) (mul_pos (Nat.cast_pos.mpr hodd) (pow_pos (by decide) _))
  -- The powers of two are not to be computed.
  generalize hlow : 970 = low
  rw [rank_eq hzero]
  generalize hk : 1074 = k
  have hscale : Nat.pow 2 k = 2 ^ k := rfl
  rw [unitsRank_lt_iff (k := low + k) (ten_pow_pos _) (by omega), hscale, Nat.pow_add,
    ten_zpow_eq, ← mul_div_assoc, div_lt_iff₀ (pow_pos (by decide) _)]
  generalize 2 ^ 54 - 1 = odd
  have hcancel : digits * 10 ^ e.toNat * 2 ^ k < odd * (2 ^ low * 2 ^ k) * 10 ^ (-e).toNat ↔
      digits * 10 ^ e.toNat < odd * 2 ^ low * 10 ^ (-e).toNat := by
    rw [← Nat.mul_assoc odd, Nat.mul_right_comm _ (2 ^ k), Nat.mul_lt_mul_right (Nat.two_pow_pos k)]
  rw [hcancel, ← Nat.cast_lt (α := ℚ)]
  push_cast
  rfl

end Decimal

end Formulary
