import Formulary.Rank
import Mathlib.Algebra.Order.Ring.Int
import Mathlib.Data.Prod.Lex

namespace Formulary

open Float.Model

theorem compare_toLex {α β : Type} [Ord α] [Ord β] (a a' : α) (b b' : β) :
    compare (toLex (a, b)) (toLex (a', b')) = (compare a a').then (compare b b') := by
  rw [Prod.Lex.compare_def]
  rfl

theorem compare_neg_neg (a b : Int) : compare (-a) (-b) = (compare a b).swap := by
  have hanti : StrictAnti fun n : Int => -n := fun _ _ h => Int.neg_lt_neg h
  rw [← cmp_eq_compare, ← cmp_eq_compare, cmp_swap]
  exact hanti.cmp_map_eq a b

theorem compare_natCast (a b : Nat) : compare (a : Int) (b : Int) = compare a b := by
  rw [← cmp_eq_compare, ← cmp_eq_compare, Nat.strictMono_cast.cmp_map_eq]

/-- Where a number stands among all numbers: by its kind, from negative infinity upwards, and within
a kind by the exponent and then the mantissa. The two zeros stand at one place. -/
def unpackedKey : UnpackedFloat → Int ×ₗ Int ×ₗ Int
  | .infinity .negative => toLex (-2, toLex (0, 0))
  | .finite .negative mantissa exponent _ => toLex (-1, toLex (-exponent, -mantissa))
  | .notANumber | .zero _ => toLex (0, toLex (0, 0))
  | .finite .positive mantissa exponent _ => toLex (1, toLex (exponent, mantissa))
  | .infinity .positive => toLex (2, toLex (0, 0))

theorem compare_negative (m m' : Nat) (e e' : Int) :
    ((compare e e').then (compare m m')).swap =
      compare (toLex ((-1 : Int), toLex (-e, -(m : Int))))
        (toLex (-1, toLex (-e', -(m' : Int)))) := by
  rw [compare_toLex, compare_toLex, compare_neg_neg e, compare_neg_neg m, compare_natCast,
    Ordering.swap_then]
  rfl

theorem compare_positive (m m' : Nat) (e e' : Int) :
    (compare e e').then (compare m m') =
      compare (toLex ((1 : Int), toLex (e, (m : Int)))) (toLex (1, toLex (e', (m' : Int)))) := by
  rw [compare_toLex, compare_toLex, compare_natCast]
  rfl

theorem compare_unpackedKey {x y : UnpackedFloat} (hx : x.isNaN = false) (hy : y.isNaN = false) :
    x.compare y = some (compare (unpackedKey x) (unpackedKey y)) := by
  rcases x with (_ | _) | _ | _ | ⟨_ | _, m, e, _⟩ <;>
    rcases y with (_ | _) | _ | _ | ⟨_ | _, m', e', _⟩ <;>
    first
    | contradiction
    -- The kinds differ, or all numbers of the kind are equal.
    | rfl
    | exact congrArg some (compare_negative m m' e e')
    | exact congrArg some (compare_positive m m' e e')

theorem unpackedKey_le (x : UnpackedFloat) :
    unpackedKey x ≤ unpackedKey (.infinity .positive) := by
  rcases x with (_ | _) | _ | _ | ⟨_ | _, m, e, _⟩ <;>
    first
    | exact le_rfl
    | exact Prod.Lex.toLex_le_toLex.mpr (Or.inl (by simp))

theorem le_unpackedKey (x : UnpackedFloat) :
    unpackedKey (.infinity .negative) ≤ unpackedKey x := by
  rcases x with (_ | _) | _ | _ | ⟨_ | _, m, e, _⟩ <;>
    first
    | exact le_rfl
    | exact Prod.Lex.toLex_le_toLex.mpr (Or.inl (by simp))

def orderKey (x : Float) : Int ×ₗ Int ×ₗ Int := unpackedKey x.toModel.unpack

section Order

variable {x y : Float}

theorem compare_unpack (hx : x.isNaN = false) (hy : y.isNaN = false) :
    x.toModel.unpack.compare y.toModel.unpack = some (compare (orderKey x) (orderKey y)) :=
  compare_unpackedKey hx hy

theorem lt_iff_orderKey (hx : x.isNaN = false) (hy : y.isNaN = false) :
    x < y ↔ orderKey x < orderKey y := by
  have hlt : x < y ↔ (x.toModel.unpack.compare y.toModel.unpack == some .lt) = true :=
    decide_eq_true_iff
  rw [hlt, compare_unpack hx hy, beq_iff_eq, Option.some_inj, compare_lt_iff_lt]

theorem le_iff_orderKey (hx : x.isNaN = false) (hy : y.isNaN = false) :
    x ≤ y ↔ orderKey x ≤ orderKey y := by
  have hle : x ≤ y ↔ (x.toModel.unpack.compare y.toModel.unpack).any Ordering.isLE = true :=
    decide_eq_true_iff
  rw [hle, compare_unpack hx hy, Option.any_some, ← compare_le_iff_le]
  exact Ordering.ne_gt_iff_isLE.symm

theorem beq_iff_orderKey (hx : x.isNaN = false) (hy : y.isNaN = false) :
    (x == y) = true ↔ orderKey x = orderKey y := by
  have heq : (x == y) = (x.toModel.unpack.compare y.toModel.unpack == some .eq) := rfl
  rw [heq, compare_unpack hx hy, beq_iff_eq, Option.some_inj, compare_eq_iff_eq]

end Order

theorem isNaN_infinity : infinity.isNaN = false := rfl

theorem isNaN_neg_infinity : (-infinity).isNaN = false := by
  with_unfolding_all rfl

theorem orderKey_le_infinity (x : Float) : orderKey x ≤ orderKey infinity :=
  unpackedKey_le x.toModel.unpack

theorem neg_infinity_le_orderKey (x : Float) : orderKey (-infinity) ≤ orderKey x := by
  have hneg : orderKey (-infinity) = unpackedKey (.infinity .negative) := by
    with_unfolding_all rfl
  rw [hneg]
  exact le_unpackedKey x.toModel.unpack

end Formulary
