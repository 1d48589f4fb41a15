import Formulary.Decimal
import Formulary.Proofs.SignAndRank

namespace Formulary

section Round

theorem roundHalfEven_mul (num den : Nat) {k : Nat} (hk : 0 < k) :
    roundHalfEven (num * k) (den * k) = roundHalfEven num den := by
  have hlt : 2 * (num % den * k) < den * k ↔ 2 * (num % den) < den := by
    rw [← Nat.mul_assoc, Nat.mul_lt_mul_right hk]
  have heq : 2 * (num % den * k) = den * k ↔ 2 * (num % den) = den := by
    rw [← Nat.mul_assoc, Nat.mul_left_inj (Nat.ne_of_gt hk)]
  rw [roundHalfEven, roundHalfEven, Nat.mul_div_mul_right num den hk, Nat.mul_mod_mul_right]
  simp only [hlt, heq]

theorem roundHalfEven_one (num : Nat) : roundHalfEven num 1 = num := by
  rw [roundHalfEven, Nat.div_one, Nat.mod_one]
  rfl

theorem div_le_roundHalfEven (num den : Nat) : num / den ≤ roundHalfEven num den := by
  rw [roundHalfEven]
  split
  · exact Nat.le_refl _
  · split
    · exact Nat.le_add_right _ _
    · exact Nat.le_add_right _ _

/-- The nearest rank of a quotient whose numerator counts the least positive number. -/
def unitsRank (units den : Nat) : Nat :=
  min (((units / den).log2 - 52) * blockSize +
    roundHalfEven units (den * 2 ^ ((units / den).log2 - 52))) infiniteRank

theorem nearestRank_eq (num den : Nat) :
    nearestRank num den = unitsRank (num * Nat.pow 2 1074) den :=
  rfl

variable {units den k : Nat}

theorem unitsRank_mul (units den : Nat) (hk : 0 < k) :
    unitsRank (units * k) (den * k) = unitsRank units den := by
  rw [unitsRank, unitsRank, Nat.mul_div_mul_right _ _ hk, Nat.mul_right_comm den k,
    roundHalfEven_mul _ _ hk]

/-- The rank depends on the quotient only. -/
theorem unitsRank_congr {units' den' : Nat} (hden : 0 < den) (hden' : 0 < den')
    (h : units * den' = units' * den) : unitsRank units den = unitsRank units' den' := by
  rw [← unitsRank_mul units den hden', h, Nat.mul_comm den, unitsRank_mul units' den' hden]

/-- Numbers from 2¹⁰²⁴ on are infinite. -/
theorem unitsRank_of_large (hden : 0 < den) (hk : 2098 ≤ k) (h : den * 2 ^ k ≤ units) :
    unitsRank units den = infiniteRank := by
  have hquotient : 2 ^ k ≤ units / den := by
    rwa [Nat.le_div_iff_mul_le hden, Nat.mul_comm]
  have hne : units / den ≠ 0 := Nat.ne_of_gt (Nat.lt_of_lt_of_le (Nat.two_pow_pos k) hquotient)
  have hlog : k ≤ (units / den).log2 := (Nat.le_log2 hne).mpr hquotient
  have hround : 2 ^ 52 ≤ roundHalfEven units (den * 2 ^ ((units / den).log2 - 52)) := by
    refine Nat.le_trans ?_ (div_le_roundHalfEven _ _)
    have hself : 2 ^ (52 + ((units / den).log2 - 52)) ≤ units / den := by
      rw [Nat.add_sub_cancel' (by omega)]
      exact Nat.log2_self_le hne
    rw [← Nat.div_div_eq_div_mul, Nat.le_div_iff_mul_le (Nat.two_pow_pos _)]
    rwa [Nat.pow_add] at hself
  have hblocks := Nat.mul_le_mul_right blockSize (show 2046 ≤ (units / den).log2 - 52 by omega)
  have hinfinite : infiniteRank = 2046 * blockSize + 2 ^ 52 := rfl
  refine Nat.min_eq_right ?_
  omega

/-- Numbers below half the least positive one are zero. -/
theorem unitsRank_of_small (h : 2 * units < den) : unitsRank units den = 0 := by
  have hquotient : units / den = 0 := Nat.div_eq_of_lt (by omega)
  have hround : roundHalfEven units den = 0 := by
    rw [roundHalfEven, hquotient, Nat.mod_eq_of_lt (by omega)]
    exact if_pos h
  rw [unitsRank, hquotient]
  show min (0 * blockSize + roundHalfEven units (den * 1)) infiniteRank = 0
  rw [Nat.mul_one, hround, Nat.zero_mul, Nat.zero_add, Nat.zero_min]

theorem unitsRank_one (units : Nat) : unitsRank units 1 =
    min ((units.log2 - 52) * blockSize + roundHalfEven units (2 ^ (units.log2 - 52)))
      infiniteRank := by
  rw [unitsRank, Nat.div_one, Nat.one_mul]

theorem log2_eq {n k : Nat} (hle : 2 ^ k ≤ n) (hlt : n < 2 ^ (k + 1)) : n.log2 = k :=
  (Nat.log2_eq_iff (Nat.ne_of_gt (Nat.lt_of_lt_of_le (Nat.two_pow_pos k) hle))).mpr ⟨hle, hlt⟩

theorem unitsOfRank_ne_zero {rank : Nat} (h : rank ≠ 0) : unitsOfRank rank ≠ 0 := by
  rw [unitsOfRank]
  split
  · exact h
  · have hblock : 0 < blockSize := by decide
    exact Nat.mul_ne_zero (by omega) (Nat.ne_of_gt (Nat.two_pow_pos _))

/-- The number of a finite rank is its own nearest. -/
theorem unitsRank_unitsOfRank {rank : Nat} (h : rank < infiniteRank) :
    unitsRank (unitsOfRank rank) 1 = rank := by
  have hblock : blockSize = 2 ^ 52 := rfl
  rw [unitsRank_one, unitsOfRank]
  by_cases hsmall : rank < blockSize
  · have hlog : rank.log2 - 52 = 0 := by
      by_cases hzero : rank = 0
      · rw [hzero]
        rfl
      · have := (Nat.log2_lt hzero).mpr (hblock ▸ hsmall)
        omega
    rw [if_pos hsmall, hlog, Nat.zero_mul, Nat.zero_add, Nat.pow_zero, roundHalfEven_one]
    exact Nat.min_eq_left (Nat.le_of_lt h)
  · have hdivision := Nat.div_add_mod rank blockSize
    have hplace : rank % blockSize < blockSize := Nat.mod_lt _ (by decide)
    have hstep : 1 ≤ rank / blockSize :=
      (Nat.one_le_div_iff (by decide)).mpr (Nat.le_of_not_lt hsmall)
    generalize rank / blockSize = block at hdivision hstep ⊢
    generalize rank % blockSize = place at hdivision hplace ⊢
    obtain ⟨doublings, rfl⟩ : ∃ doublings, block = doublings + 1 := ⟨block - 1, by omega⟩
    have hlog : ((blockSize + place) * 2 ^ doublings).log2 = 52 + doublings := by
      refine log2_eq ?_ ?_
      · rw [Nat.pow_add]
        exact Nat.mul_le_mul_right _ (by omega)
      · rw [Nat.add_right_comm, Nat.pow_add]
        exact Nat.mul_lt_mul_of_pos_right (by omega) (Nat.two_pow_pos _)
    have hround : roundHalfEven ((blockSize + place) * 2 ^ doublings) (2 ^ doublings) =
        blockSize + place := by
      have hscaled := roundHalfEven_mul (blockSize + place) 1 (Nat.two_pow_pos doublings)
      rwa [Nat.one_mul, roundHalfEven_one] at hscaled
    have hrank : doublings * blockSize + (blockSize + place) = rank := by
      rw [hblock] at hdivision ⊢
      omega
    rw [if_neg hsmall, Nat.add_sub_cancel]
    show min ((((blockSize + place) * 2 ^ doublings).log2 - 52) * blockSize +
      roundHalfEven ((blockSize + place) * 2 ^ doublings)
        (2 ^ (((blockSize + place) * 2 ^ doublings).log2 - 52))) infiniteRank = rank
    rw [hlog, Nat.add_sub_cancel_left, hround, hrank]
    exact Nat.min_eq_left (Nat.le_of_lt h)

end Round

namespace Decimal

theorem ten_pow_pos (n : Nat) : 0 < 10 ^ n := Nat.pow_pos (by decide)

theorem rank_zero (e : Int) : rank ⟨0, e⟩ = 0 := if_pos rfl

theorem two_pow_le_ten_pow (n : Nat) : 2 ^ (93 * n + 1) ≤ 10 ^ (28 * n + 2) := by
  rw [Nat.pow_add, Nat.pow_add, Nat.pow_mul, Nat.pow_mul]
  exact Nat.mul_le_mul (Nat.pow_le_pow_left (by decide) n) (by decide)

/-- What is beyond the range of exponents would be rounded to the same rank. -/
theorem rank_eq {digits : Nat} (h : digits ≠ 0) (e : Int) : rank ⟨digits, e⟩ =
    unitsRank (digits * 10 ^ e.toNat * Nat.pow 2 1074) (10 ^ (-e).toNat) := by
  rw [rank, if_neg h, nearestRank_eq]
  generalize hk : 1074 = k
  by_cases hlarge : 309 < e
  · have hnone : (-e).toNat = 0 := by omega
    -- With 11 for `n` the powers are 2¹⁰²⁴ and 10³¹⁰.
    obtain ⟨n, hn⟩ : ∃ n, n = 11 := ⟨_, rfl⟩
    have hten : 2 ^ (93 * n + 1) ≤ digits * 10 ^ e.toNat :=
      calc 2 ^ (93 * n + 1) ≤ 10 ^ (28 * n + 2) := two_pow_le_ten_pow n
        _ ≤ 10 ^ e.toNat := Nat.pow_le_pow_right (by decide) (by omega)
        _ ≤ digits * 10 ^ e.toNat := Nat.le_mul_of_pos_left _ (Nat.pos_of_ne_zero h)
    have hlarge' : 1 * 2 ^ (93 * n + 1 + k) ≤ digits * 10 ^ e.toNat * 2 ^ k := by
      rw [Nat.one_mul, Nat.pow_add _ (93 * n + 1)]
      exact Nat.mul_le_mul_right _ hten
    rw [if_pos hlarge, hnone]
    exact (unitsRank_of_large Nat.one_pos (by omega) hlarge').symm
  rw [if_neg hlarge]
  by_cases hsmall : (digits.log2 : Int) + 1077 ≤ -3 * e
  · have hnone : e.toNat = 0 := by omega
    have hlt : digits * 2 ^ k < 2 ^ (digits.log2 + 1) * 2 ^ k :=
      Nat.mul_lt_mul_of_pos_right Nat.lt_log2_self (Nat.two_pow_pos k)
    rw [if_pos hsmall, hnone, Nat.pow_zero, Nat.mul_one]
    refine (unitsRank_of_small ?_).symm
    calc 2 * (digits * 2 ^ k) < 2 * (2 ^ (digits.log2 + 1) * 2 ^ k) :=
          Nat.mul_lt_mul_of_pos_left hlt (by decide)
      _ = 2 ^ (digits.log2 + 1 + k + 1) := by rw [← Nat.pow_add, Nat.mul_comm, ← Nat.pow_succ]
      _ ≤ 2 ^ (3 * (-e).toNat) := Nat.pow_le_pow_right (by decide) (by omega)
      _ = 8 ^ (-e).toNat := Nat.pow_mul 2 3 _
      _ ≤ 10 ^ (-e).toNat := Nat.pow_le_pow_left (by decide) _
  · rw [if_neg hsmall]
    rfl

/-- Zeros at the end of the digits raise the exponent. -/
theorem rank_shift (digits k : Nat) (e : Int) :
    rank ⟨digits * 10 ^ k, e⟩ = rank ⟨digits, e + k⟩ := by
  by_cases hzero : digits = 0
  · rw [hzero, Nat.zero_mul, rank_zero, rank_zero]
  have hdigits : digits * 10 ^ k ≠ 0 := Nat.mul_ne_zero hzero (Nat.ne_of_gt (ten_pow_pos k))
  have hexponent : k + e.toNat + (-(e + k)).toNat = (e + k).toNat + (-e).toNat := by omega
  have htens : 10 ^ k * 10 ^ e.toNat * 10 ^ (-(e + k)).toNat =
      10 ^ (e + k).toNat * 10 ^ (-e).toNat := by
    rw [← Nat.pow_add, ← Nat.pow_add, ← Nat.pow_add, hexponent]
  rw [rank_eq hdigits, rank_eq hzero]
  generalize Nat.pow 2 1074 = scale
  refine unitsRank_congr (ten_pow_pos _) (ten_pow_pos _) ?_
  calc digits * 10 ^ k * 10 ^ e.toNat * scale * 10 ^ (-(e + k)).toNat
      = digits * scale * (10 ^ k * 10 ^ e.toNat * 10 ^ (-(e + k)).toNat) := by ac_rfl
    _ = digits * 10 ^ (e + k).toNat * scale * 10 ^ (-e).toNat := by rw [htens]; ac_rfl

/-- The exact decimal of a finite number reads back. -/
theorem rank_ofRank {rank : Nat} (h : rank < infiniteRank) : (ofRank rank).rank = rank := by
  rw [ofRank]
  generalize hk : 1074 = k
  have hten : Nat.pow 5 k * Nat.pow 2 k = 10 ^ k := (Nat.mul_pow 5 2 k).symm
  by_cases hzero : rank = 0
  · have hunits : unitsOfRank 0 = 0 := rfl
    rw [hzero, hunits, Nat.zero_mul, rank_zero]
  have hdigits : unitsOfRank rank * Nat.pow 5 k ≠ 0 :=
    Nat.mul_ne_zero (unitsOfRank_ne_zero hzero) (Nat.ne_of_gt (Nat.pow_pos (by decide)))
  have hexponent : (- -1074 : Int).toNat = k := hk
  rw [rank_eq hdigits, hexponent, hk]
  refine (unitsRank_congr (ten_pow_pos k) Nat.one_pos ?_).trans (unitsRank_unitsOfRank h)
  show unitsOfRank rank * Nat.pow 5 k * 1 * Nat.pow 2 k * 1 = unitsOfRank rank * 10 ^ k
  rw [Nat.mul_one, Nat.mul_one, Nat.mul_assoc, hten]

end Decimal

end Formulary
