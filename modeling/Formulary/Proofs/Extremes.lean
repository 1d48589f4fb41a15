import Formulary.Proofs.Extensions
import Formulary.Proofs.FloatOrder

namespace Formulary

/-- What comes before all others in a list of values. NaN gives way to every number. -/
structure Selects (before : Float → Float → Prop) (xs : List Float) (chosen : Float) :
    Prop where
  -- By `==`, so that either of the two zeros stands for both.
  member : ∃ x ∈ xs, chosen = x ∨ (chosen == x) = true
  first : ∀ x ∈ xs, x.isNaN = false → before chosen x
  nan : (∀ x ∈ xs, x.isNaN = true) → chosen.isNaN = true

/-- A choice between two numbers by an order, with a seed that comes after all numbers. -/
structure Chooses {α : Type} [LinearOrder α] (before : Float → Float → Prop)
    (key : Float → α) (seed : Float) (choose : Float → Float → Float) : Prop where
  before_iff : ∀ x y, x.isNaN = false → y.isNaN = false → (before x y ↔ key x ≤ key y)
  beq_of_key : ∀ x y, x.isNaN = false → y.isNaN = false → key x = key y → (x == y) = true
  seed_number : seed.isNaN = false
  seed_last : ∀ x, key x ≤ key seed
  nan : ∀ x y, x.isNaN = false → y.isNaN = true → choose x y = x
  number : ∀ x y, x.isNaN = false → y.isNaN = false →
    choose x y = if key y < key x then y else x

namespace Chooses

variable {α : Type} [LinearOrder α] {before : Float → Float → Prop} {key : Float → α}
  {seed : Float} {choose : Float → Float → Float}

theorem choose_spec (h : Chooses before key seed choose) {x : Float} (hx : x.isNaN = false)
    (y : Float) :
    (choose x y).isNaN = false ∧ (choose x y = x ∨ choose x y = y) ∧
      key (choose x y) ≤ key x ∧ (y.isNaN = false → key (choose x y) ≤ key y) := by
  cases hy : y.isNaN with
  | true =>
    rw [h.nan x y hx hy]
    exact ⟨hx, Or.inl rfl, le_rfl, fun hn => by cases hn⟩
  | false =>
    rw [h.number x y hx hy]
    by_cases hlt : key y < key x
    · rw [if_pos hlt]
      exact ⟨hy, Or.inr rfl, hlt.le, fun _ => le_rfl⟩
    · rw [if_neg hlt]
      exact ⟨hx, Or.inl rfl, le_rfl, fun _ => not_lt.mp hlt⟩

theorem foldl_spec (h : Chooses before key seed choose) (xs : List Float) {x : Float}
    (hx : x.isNaN = false) :
    (xs.foldl choose x).isNaN = false ∧ (xs.foldl choose x = x ∨ xs.foldl choose x ∈ xs) ∧
      key (xs.foldl choose x) ≤ key x ∧
      ∀ y ∈ xs, y.isNaN = false → key (xs.foldl choose x) ≤ key y := by
  induction xs generalizing x with
  | nil => exact ⟨hx, Or.inl rfl, le_rfl, fun y hy => by cases hy⟩
  | cons y rest ih =>
    obtain ⟨hnumber, hone, hlex, hley⟩ := h.choose_spec hx y
    obtain ⟨hresult, hmem, hle, hall⟩ := ih hnumber
    refine ⟨hresult, ?_, hle.trans hlex, ?_⟩
    · rcases hmem with heq | hmem
      · rw [List.foldl_cons, heq]
        exact hone.imp_right fun hy => List.mem_cons.mpr (Or.inl hy)
      · exact Or.inr (List.mem_cons_of_mem _ hmem)
    · intro z hz hzn
      rcases List.mem_cons.mp hz with rfl | hz
      · exact hle.trans (hley hzn)
      · exact hall z hz hzn

theorem foldl_nan (h : Chooses before key seed choose) {xs : List Float}
    (hxs : ∀ x ∈ xs, x.isNaN = true) : xs.foldl choose seed = seed := by
  obtain ⟨hresult, hmem, _⟩ := h.foldl_spec xs h.seed_number
  refine hmem.resolve_right fun hmem => ?_
  rw [hxs _ hmem] at hresult
  cases hresult

/-- A list of NaN alone gives the seed, which is not selected from it. -/
theorem selects_iff (h : Chooses before key seed choose) (xs : List Float) :
    Selects before xs (xs.foldl choose seed) ↔ ∃ x ∈ xs, x.isNaN = false := by
  obtain ⟨hresult, hmem, _, hall⟩ := h.foldl_spec xs h.seed_number
  constructor
  · intro hselects
    by_contra hnone
    have hnan := hselects.nan fun x hx =>
      Bool.eq_true_of_not_eq_false fun hnumber => hnone ⟨x, hx, hnumber⟩
    rw [hresult] at hnan
    cases hnan
  · rintro ⟨x, hx, hnumber⟩
    refine ⟨?_, fun y hy hyn => (h.before_iff _ y hresult hyn).mpr (hall y hy hyn), ?_⟩
    · rcases hmem with heq | hmem
      -- Where the seed is the result, the numbers of the list are equal to it.
      · have hkey : key (xs.foldl choose seed) = key x :=
          le_antisymm (hall x hx hnumber) (by rw [heq]; exact h.seed_last x)
        exact ⟨x, hx, Or.inr (h.beq_of_key _ x hresult hnumber hkey)⟩
      · exact ⟨_, hmem, Or.inl rfl⟩
    · intro hnan
      rw [hnan x hx] at hnumber
      cases hnumber

end Chooses

theorem lesser_of_nan {x y : Float} (hx : x.isNaN = false) (hy : y.isNaN = true) :
    lesser x y = x := by
  rw [lesser, hx, hy]
  rfl

theorem lesser_of_numbers {x y : Float} (hx : x.isNaN = false) (hy : y.isNaN = false) :
    lesser x y = if orderKey y < orderKey x then y else x := by
  rw [lesser, hx, hy, if_neg Bool.false_ne_true, if_neg Bool.false_ne_true]
  exact if_congr (lt_iff_orderKey hy hx) rfl rfl

theorem greater_of_nan {x y : Float} (hx : x.isNaN = false) (hy : y.isNaN = true) :
    greater x y = x := by
  rw [greater, hx, hy]
  rfl

theorem greater_of_numbers {x y : Float} (hx : x.isNaN = false) (hy : y.isNaN = false) :
    greater x y = if orderKey x < orderKey y then y else x := by
  rw [greater, hx, hy, if_neg Bool.false_ne_true, if_neg Bool.false_ne_true]
  exact if_congr (lt_iff_orderKey hx hy) rfl rfl

theorem lesser_chooses : Chooses (· ≤ ·) orderKey infinity lesser where
  before_iff _ _ := le_iff_orderKey
  beq_of_key _ _ hx hy := (beq_iff_orderKey hx hy).mpr
  seed_number := isNaN_infinity
  seed_last := orderKey_le_infinity
  nan _ _ := lesser_of_nan
  number _ _ := lesser_of_numbers

theorem greater_chooses :
    Chooses (· ≥ ·) (fun x => OrderDual.toDual (orderKey x)) (-infinity) greater where
  before_iff _ _ hx hy := le_iff_orderKey hy hx
  beq_of_key _ _ hx hy := (beq_iff_orderKey hx hy).mpr
  seed_number := isNaN_neg_infinity
  seed_last := neg_infinity_le_orderKey
  nan _ _ := greater_of_nan
  number _ _ := greater_of_numbers

/-- The value of a call: the term that an extension makes of the operands, evaluated. -/
def Registry.evalCall? (registry : Registry) (name : String) (operands : List Term)
    (b : Bindings) (values : List Float) : Option Float := do
  let provider ← registry.find? name
  let (term, _) ← ((provider operands).run b).toOption
  term.eval? values

theorem Registry.evalCall?_function {registry : Registry} {name : String} {arity : Arity}
    {apply : List Float → Float} {operands : List Term}
    (hfind : registry.find? name = some ((Extension.function arity apply).provider name))
    (harity : arity.accepts operands.length = true) (b : Bindings) (values : List Float) :
    registry.evalCall? name operands b values = (Term.evalAll? operands values).map apply := by
  have hrun : ((Extension.function arity apply).provider name operands).run b =
      .ok (.call ⟨name, apply⟩ operands, b) :=
    Extension.provider_run_eq_ok.mpr ⟨harity, rfl, rfl⟩
  rw [Registry.evalCall?, hfind, Option.bind_eq_bind, Option.bind_some, hrun]
  show Term.eval? (.call ⟨name, apply⟩ operands) values = _
  rw [Term.eval?]

/-- The values of the operands must hold a number for one of them to be selected. Otherwise the
result is the seed of the fold, whatever the number of operands. -/
theorem Registry.math_selects_iff {operands : List Term} (hne : operands ≠ []) (b : Bindings)
    {values xs : List Float} (hxs : Term.evalAll? operands values = some xs) :
    ∃ low high, Registry.math.evalCall? "min" operands b values = some low ∧
      Registry.math.evalCall? "max" operands b values = some high ∧
      (Selects (· ≤ ·) xs low ↔ ∃ x ∈ xs, x.isNaN = false) ∧
      (Selects (· ≥ ·) xs high ↔ ∃ x ∈ xs, x.isNaN = false) ∧
      ((∀ x ∈ xs, x.isNaN = true) → low = infinity ∧ high = -infinity) := by
  have harity : (Arity.range 1 none).accepts operands.length = true := by
    simpa [Arity.accepts, Nat.one_le_iff_ne_zero] using hne
  have hmin : Registry.math.evalCall? "min" operands b values = some (least xs) := by
    rw [Registry.evalCall?_function rfl harity, hxs, Option.map_some]
  have hmax : Registry.math.evalCall? "max" operands b values = some (greatest xs) := by
    rw [Registry.evalCall?_function rfl harity, hxs, Option.map_some]
  exact ⟨least xs, greatest xs, hmin, hmax, lesser_chooses.selects_iff xs,
    greater_chooses.selects_iff xs,
    fun hnan => ⟨lesser_chooses.foldl_nan hnan, greater_chooses.foldl_nan hnan⟩⟩

/-- A quotient that is not a number, beside an argument. -/
def partlyUndefined : List Term :=
  [.binary .div (.constant 0) (.constant 0), .argument "x" 0]

theorem partlyUndefined_selects :
    ∃ low high, Registry.math.evalCall? "min" partlyUndefined {} [2] = some low ∧
      Registry.math.evalCall? "max" partlyUndefined {} [2] = some high ∧
      Selects (· ≤ ·) [notANumber, 2] low ∧ Selects (· ≥ ·) [notANumber, 2] high := by
  have hxs : Term.evalAll? partlyUndefined [2] = some [notANumber, 2] := by
    with_unfolding_all rfl
  have hnumber : ∃ x ∈ [notANumber, 2], x.isNaN = false :=
    ⟨2, by simp, by with_unfolding_all rfl⟩
  obtain ⟨low, high, hlow, hhigh, hmin, hmax, _⟩ :=
    Registry.math_selects_iff (by simp [partlyUndefined]) {} hxs
  exact ⟨low, high, hlow, hhigh, hmin.mpr hnumber, hmax.mpr hnumber⟩

/-- The least of one value that is not a number is infinity. -/
theorem undefined_not_selected :
    Registry.math.evalCall? "min" [.binary .div (.constant 0) (.constant 0)] {} [] =
        some infinity ∧
      Term.evalAll? [.binary .div (.constant 0) (.constant 0)] [] = some [notANumber] ∧
      ¬Selects (· ≤ ·) [notANumber] infinity := by
  refine ⟨by with_unfolding_all rfl, by with_unfolding_all rfl, fun hselects => ?_⟩
  have hnan : infinity.isNaN = true :=
    hselects.nan fun x hx => List.mem_singleton.mp hx ▸ by with_unfolding_all rfl
  rw [isNaN_infinity] at hnan
  cases hnan

end Formulary
