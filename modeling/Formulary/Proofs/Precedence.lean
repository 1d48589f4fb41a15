import Formulary.Proofs.MaskContext

namespace Formulary

/-- How tightly the parts of a text are bound together, the tightest first. -/
inductive Level where
  | atom
  | signed
  | power
  | product
  | sum
deriving DecidableEq, Repr

def Level.rank : Level → Nat
  | .atom => 0
  | .signed => 1
  | .power => 2
  | .product => 3
  | .sum => 4

def Operator.level : Operator → Level
  | .add | .sub => .sum
  | .mul | .div => .product
  | .pow => .power

/-- Sums and products take more of their own kind on the left, powers on the right. -/
def Operator.leftLevel : Operator → Level
  | .add | .sub => .sum
  | .mul | .div => .product
  | .pow => .signed

def Operator.rightLevel : Operator → Level
  | .add | .sub => .product
  | .mul | .div => .power
  | .pow => .power

/-- All operators that show bind as tightly as a level or tighter. -/
def ShowsUpTo (level : Level) (shown : List (Option Char)) : Prop :=
  ∀ op : Operator, some op.symbol ∈ shown → op.level.rank ≤ level.rank

/-- The operator at a position binds last, by what shows to its left and to its right. -/
def SplitsAt (shown : List (Option Char)) (i : Nat) (op : Operator) : Prop :=
  shown[i]? = some (some op.symbol) ∧ ShowsUpTo op.leftLevel (shown.take i) ∧
    ShowsUpTo op.rightLevel (shown.drop (i + 1))

theorem lastIdx?_eq_none {α : Type} {p : α → Bool} {xs : List α} :
    lastIdx? p xs = none ↔ ∀ a ∈ xs, p a = false := by
  induction xs with
  | nil => simp [lastIdx?]
  | cons a rest ih => by_cases h : p a = true <;> simp [lastIdx?, ih, h]

theorem lastIdx?_eq_some {α : Type} {p : α → Bool} {xs : List α} {i : Nat}
    (h : lastIdx? p xs = some i) :
    (∃ a, xs[i]? = some a ∧ p a = true) ∧ ∀ a ∈ xs.drop (i + 1), p a = false := by
  induction xs generalizing i with
  | nil => simp [lastIdx?] at h
  | cons a rest ih =>
    simp only [lastIdx?, Option.or_eq_some_iff, Option.map_eq_some_iff, Option.map_eq_none_iff] at h
    rcases h with ⟨j, hj, rfl⟩ | ⟨hn, hp⟩
    · simpa using ih hj
    · split at hp
      next ha =>
        obtain rfl := Option.some.inj hp
        exact ⟨⟨a, rfl, ha⟩, by simpa using lastIdx?_eq_none.mp hn⟩
      next => simp at hp

theorem Operator.symbol_cases (op : Operator) :
    (op.level = .sum ∧ shows ['+', '-'] (some op.symbol) = true) ∨
    (op.level = .product ∧ shows ['+', '-'] (some op.symbol) = false ∧
      shows ['*', '/'] (some op.symbol) = true) ∨
    (op.level = .power ∧ shows ['+', '-'] (some op.symbol) = false ∧
      shows ['*', '/'] (some op.symbol) = false ∧ shows ['^'] (some op.symbol) = true) := by
  cases op <;> decide

theorem shows_sum {a : Option Char} (h : shows ['+', '-'] a = true) :
    ∃ op : Operator, a = some op.symbol ∧ op.leftLevel = .sum ∧ op.rightLevel = .product := by
  obtain ⟨c, rfl, hc⟩ := (Option.any_eq_true _ _).mp h
  rcases (by simpa using hc : c = '+' ∨ c = '-') with rfl | rfl
  · exact ⟨.add, rfl, rfl, rfl⟩
  · exact ⟨.sub, rfl, rfl, rfl⟩

theorem shows_product {a : Option Char} (h : shows ['*', '/'] a = true) :
    ∃ op : Operator, a = some op.symbol ∧ op.leftLevel = .product ∧ op.rightLevel = .power := by
  obtain ⟨c, rfl, hc⟩ := (Option.any_eq_true _ _).mp h
  rcases (by simpa using hc : c = '*' ∨ c = '/') with rfl | rfl
  · exact ⟨.mul, rfl, rfl, rfl⟩
  · exact ⟨.div, rfl, rfl, rfl⟩

theorem shows_power {a : Option Char} (h : shows ['^'] a = true) :
    a = some Operator.pow.symbol := by
  obtain ⟨c, rfl, hc⟩ := (Option.any_eq_true _ _).mp h
  obtain rfl : c = '^' := by simpa using hc
  rfl

theorem showsUpTo_sum (shown : List (Option Char)) : ShowsUpTo .sum shown := by
  intro op _
  cases op <;> decide

theorem showsUpTo_product {shown : List (Option Char)}
    (h : ∀ a ∈ shown, shows ['+', '-'] a = false) : ShowsUpTo .product shown := by
  intro op hop
  rcases op.symbol_cases with ⟨_, hs⟩ | ⟨hl, _⟩ | ⟨hl, _⟩
  · simp [h _ hop] at hs
  · rw [hl]
  · rw [hl]; decide

theorem showsUpTo_power {shown : List (Option Char)}
    (hs : ∀ a ∈ shown, shows ['+', '-'] a = false)
    (hp : ∀ a ∈ shown, shows ['*', '/'] a = false) : ShowsUpTo .power shown := by
  intro op hop
  rcases op.symbol_cases with ⟨_, h⟩ | ⟨_, _, h⟩ | ⟨hl, _⟩
  · simp [hs _ hop] at h
  · simp [hp _ hop] at h
  · rw [hl]

theorem topOperatorIdx?_splitsAt {shown : List (Option Char)} {i : Nat}
    (h : topOperatorIdx? shown = some i) : ∃ op, SplitsAt shown i op := by
  simp only [topOperatorIdx?, Option.or_eq_some_iff] at h
  rcases h with h | ⟨hsum, h | ⟨hprod, h⟩⟩
  · obtain ⟨⟨a, ha, hs⟩, hright⟩ := lastIdx?_eq_some h
    obtain ⟨op, rfl, hl, hr⟩ := shows_sum hs
    exact ⟨op, ha, hl ▸ showsUpTo_sum _, hr ▸ showsUpTo_product hright⟩
  · obtain ⟨⟨a, ha, hs⟩, hright⟩ := lastIdx?_eq_some h
    obtain ⟨op, rfl, hl, hr⟩ := shows_product hs
    have hnone := lastIdx?_eq_none.mp hsum
    exact ⟨op, ha, hl ▸ showsUpTo_product fun b hb => hnone b (List.mem_of_mem_take hb),
      hr ▸ showsUpTo_power (fun b hb => hnone b (List.mem_of_mem_drop hb)) hright⟩
  · obtain ⟨hi, hs, hleft⟩ := List.findIdx?_eq_some_iff_getElem.mp h
    have hnone := lastIdx?_eq_none.mp hsum
    have hnone' := lastIdx?_eq_none.mp hprod
    have ha := shows_power hs
    refine ⟨.pow, by rw [List.getElem?_eq_getElem hi, ha], ?_,
      showsUpTo_power (fun b hb => hnone b (List.mem_of_mem_drop hb))
        fun b hb => hnone' b (List.mem_of_mem_drop hb)⟩
    -- No power shows to the left of the first one, so nothing does.
    intro op hop
    exfalso
    have hmem := List.mem_of_mem_take hop
    rcases op.symbol_cases with ⟨_, h⟩ | ⟨_, _, h⟩ | ⟨_, _, _, h⟩
    · simp [hnone _ hmem] at h
    · simp [hnone' _ hmem] at h
    · obtain ⟨j, hj, he⟩ := List.mem_iff_getElem.mp hop
      rw [List.getElem_take] at he
      have hji : j < i := by
        rw [List.length_take] at hj
        omega
      have := hleft j hji
      rw [he] at this
      simp [h] at this

theorem topOperatorIdx?_eq_none {shown : List (Option Char)} :
    topOperatorIdx? shown = none ↔ ∀ op : Operator, some op.symbol ∉ shown := by
  simp only [topOperatorIdx?, Option.or_eq_none_iff, lastIdx?_eq_none, List.findIdx?_eq_none_iff]
  constructor
  · rintro ⟨hs, hp, hw⟩ op hop
    rcases op.symbol_cases with ⟨_, h⟩ | ⟨_, _, h⟩ | ⟨_, _, _, h⟩
    · simp [hs _ hop] at h
    · simp [hp _ hop] at h
    · simp [hw _ hop] at h
  · intro h
    have none_of : ∀ {ops : List Char}, (∀ a, shows ops a = true → ∃ op : Operator,
        a = some op.symbol) → ∀ a ∈ shown, shows ops a = false := by
      intro ops hops a ha
      by_contra hs
      obtain ⟨op, rfl⟩ := hops a (by simpa using hs)
      exact h op ha
    exact ⟨none_of fun a ha => (shows_sum ha).imp fun _ => And.left,
      none_of fun a ha => (shows_product ha).imp fun _ => And.left,
      none_of fun a ha => ⟨.pow, shows_power ha⟩⟩

/-- At most one position of a text is that of the operator that binds last. -/
theorem SplitsAt.not_lt {shown : List (Option Char)} {i j : Nat} {op o : Operator}
    (hi : SplitsAt shown i op) (hj : SplitsAt shown j o) : ¬i < j := by
  intro hij
  have hleft : o.level.rank ≤ op.rightLevel.rank :=
    hi.2.2 o (List.mem_iff_getElem?.mpr ⟨j - (i + 1), by
      rw [List.getElem?_drop, show i + 1 + (j - (i + 1)) = j by omega, hj.1]⟩)
  have hright : op.level.rank ≤ o.leftLevel.rank :=
    hj.2.1 op (List.mem_iff_getElem?.mpr ⟨i, by rw [List.getElem?_take_of_lt hij, hi.1]⟩)
  cases op <;> cases o <;> revert hleft hright <;> decide

theorem SplitsAt.topOperatorIdx? {shown : List (Option Char)} {i : Nat} {op : Operator}
    (h : SplitsAt shown i op) : Formulary.topOperatorIdx? shown = some i := by
  cases ht : Formulary.topOperatorIdx? shown with
  | none => exact absurd (List.mem_of_getElem? h.1) (topOperatorIdx?_eq_none.mp ht op)
  | some j =>
    obtain ⟨o, hj⟩ := topOperatorIdx?_splitsAt ht
    have hij := h.not_lt hj
    have hji := hj.not_lt h
    rw [show i = j by omega]

section Text

variable {text u v : List Char} {op : Operator}

/-- The last operator to bind splits a text into a left and a right part that show no operator
which would bind later. -/
theorem topOperator?_split {i : Nat} (h : topOperator? text = some (i, op)) :
    ∃ u v, text = u ++ op.symbol :: v ∧ u.length = i ∧ depthBehind 0 u = 0 ∧
      some op.symbol ∈ mask text ∧ ShowsUpTo op.leftLevel (mask u) ∧
      ShowsUpTo op.rightLevel (mask v) := by
  obtain ⟨j, hj, h⟩ := Option.bind_eq_some_iff.mp h
  obtain ⟨o, ho, h⟩ := Option.bind_eq_some_iff.mp h
  obtain ⟨rfl, rfl⟩ := Prod.mk.inj (Option.some.inj h)
  obtain ⟨o', hshown, hleft, hright⟩ := topOperatorIdx?_splitsAt hj
  obtain ⟨u, v, rfl, hu, hdepth, hc, hs⟩ := mask_split hshown
  have he : o' = o := by
    obtain ⟨c, hc, ho⟩ := Option.bind_eq_some_iff.mp ho
    rw [List.getElem?_append_right hu.le, hu, Nat.sub_self, List.getElem?_cons_zero] at hc
    rw [← Option.some.inj hc, Operator.ofSymbol?_symbol] at ho
    exact Option.some.inj ho
  subst he
  have hopener : isOpener o'.symbol = true := by cases o' <;> rfl
  have hmask := mask_append_opener (v := v) hdepth hopener hc hs
  have hlen : (mask u).length = j := by rw [mask, maskFrom_length, hu]
  rw [hmask, List.take_left' hlen] at hleft
  rw [hmask, List.drop_append, hlen, List.drop_of_length_le (by omega)] at hright
  refine ⟨u, v, rfl, hu, hdepth, List.mem_of_getElem? hshown, hleft, ?_⟩
  simpa [show j + 1 - j = 1 by omega] using hright

theorem topOperator?_of_not_mem (h : ∀ op : Operator, some op.symbol ∉ mask text) :
    topOperator? text = none := by
  simp [topOperator?, topOperatorIdx?_eq_none.mpr h]

/-- The converse: an operator that is no sign, between parts that show no operator which would
bind later, is the last to bind. -/
theorem topOperator?_append (hdepth : depthBehind 0 u = 0) (hs : isSignAfter u.reverse = false)
    (hu : ShowsUpTo op.leftLevel (mask u)) (hv : ShowsUpTo op.rightLevel (mask v)) :
    topOperator? (u ++ op.symbol :: v) = some (u.length, op) := by
  have hopener : isOpener op.symbol = true := by cases op <;> rfl
  have hc : op.symbol ≠ '(' := by cases op <;> decide
  have hmask := mask_append_opener (v := v) hdepth hopener hc (by simp [hs])
  have hlen : (mask u).length = u.length := maskFrom_length [] 0 u
  have hsplit : SplitsAt (mask (u ++ op.symbol :: v)) u.length op := by
    rw [hmask]
    refine ⟨by rw [List.getElem?_append_right hlen.le, hlen, Nat.sub_self,
      List.getElem?_cons_zero], by rwa [List.take_left' hlen], ?_⟩
    rw [List.drop_append, hlen, List.drop_of_length_le (by omega)]
    simpa [show u.length + 1 - u.length = 1 by omega] using hv
  simp [topOperator?, hsplit.topOperatorIdx?, Operator.ofSymbol?_symbol]

end Text

end Formulary
