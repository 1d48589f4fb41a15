import Formulary.Resolve

namespace Formulary

namespace Build

variable {α β : Type}

theorem run_bind (x : Build α) (f : α → Build β) (b : Bindings) :
    (x >>= f).run b = (x.run b).bind fun made => (f made.1).run made.2 := by
  change (x.bind f).run b = _
  induction x generalizing b with
  | done value => rfl
  | fail error => rfl
  | register name next ih => exact ih _ _
  | look next ih => exact ih _ _

theorem run_pure (value : α) (b : Bindings) : (pure value : Build α).run b = .ok (value, b) := rfl

theorem run_slot (name : String) (b : Bindings) : (slot name).run b = .ok (b.register name) := rfl

theorem run_bindings (b : Bindings) : bindings.run b = .ok (b, b) := rfl

theorem run_ofExcept (x : Except Error α) (b : Bindings) :
    (ofExcept x).run b = x.map fun value => (value, b) := by
  cases x <;> rfl

theorem run_bind_eq_ok {x : Build α} {f : α → Build β} {b c : Bindings} {value : β} :
    (x >>= f).run b = .ok (value, c) ↔
      ∃ first middle, x.run b = .ok (first, middle) ∧ (f first).run middle = .ok (value, c) := by
  rw [run_bind]
  cases x.run b with
  | error error => simp [Except.bind]
  | ok made =>
    obtain ⟨first, middle⟩ := made
    simp only [Except.bind, Except.ok.injEq, Prod.mk.injEq]
    constructor
    · exact fun h => ⟨first, middle, ⟨rfl, rfl⟩, h⟩
    · rintro ⟨_, _, ⟨rfl, rfl⟩, h⟩
      exact h

theorem run_ofExcept_eq_ok {x : Except Error α} {b c : Bindings} {value : α} :
    (ofExcept x).run b = .ok (value, c) ↔ x = .ok value ∧ c = b := by
  rw [run_ofExcept]
  cases x with
  | error error => simp [Except.map]
  | ok found => simp [Except.map, eq_comm]

theorem run_fail_ne_ok {error : Error} {b : Bindings} {made : α × Bindings} :
    (Build.fail error : Build α).run b ≠ .ok made := by
  simp [run]

theorem bind_done (x : Build α) : x.bind .done = x := by
  induction x with
  | done value => rfl
  | fail error => rfl
  | register name next ih => exact congrArg (register name) (funext ih)
  | look next ih => exact congrArg look (funext ih)

theorem bind_bind {γ : Type} (x : Build α) (f : α → Build β) (g : β → Build γ) :
    (x.bind f).bind g = x.bind fun value => (f value).bind g := by
  induction x with
  | done value => rfl
  | fail error => rfl
  | register name next ih => exact congrArg (register name) (funext ih)
  | look next ih => exact congrArg look (funext ih)

instance : LawfulMonad Build :=
  LawfulMonad.mk' Build bind_done (fun _ _ => rfl) bind_bind

theorem run_map (f : α → β) (x : Build α) (b : Bindings) :
    (f <$> x).run b = (x.run b).map fun made => (f made.1, made.2) := by
  rw [← bind_pure_comp, run_bind]
  cases x.run b <;> rfl

end Build

theorem Bindings.register_prefix (b : Bindings) (name : String) :
    b.entries <+: (b.register name).2.entries := by
  unfold Bindings.register
  split
  · exact List.prefix_rfl
  · exact List.prefix_append _ _

theorem Build.run_prefix {α : Type} {x : Build α} {b c : Bindings} {value : α}
    (h : x.run b = .ok (value, c)) : b.entries <+: c.entries := by
  induction x generalizing b with
  | done found =>
    obtain ⟨_, rfl⟩ := Prod.mk.inj (Except.ok.inj h)
    exact List.prefix_rfl
  | fail error => exact absurd h Build.run_fail_ne_ok
  | register name next ih => exact (b.register_prefix name).trans (ih _ h)
  | look next ih => exact ih b h

theorem Build.run_size_le {α : Type} {x : Build α} {b c : Bindings} {value : α}
    (h : x.run b = .ok (value, c)) : b.size ≤ c.size :=
  (Build.run_prefix h).length_le

theorem Bindings.register_slot_lt (b : Bindings) (name : String) :
    (b.register name).1 < (b.register name).2.size := by
  unfold Bindings.register
  split
  next slot h => exact (List.findIdx?_eq_some_iff_findIdx_eq.mp h).1
  next => simp [Bindings.size]

section Resolve

variable {registry : Registry} {b c : Bindings} {t : Term}

/-! What a successful resolution of each kind of outline consists of. -/

theorem Outline.resolve_number_eq_ok {value : Float} :
    ((Outline.number value).resolve registry).run b = .ok (t, c) ↔ t = .constant value ∧ c = b := by
  simp only [Outline.resolve, Build.run_pure, Except.ok.injEq, Prod.mk.injEq]
  constructor
  · rintro ⟨rfl, rfl⟩
    exact ⟨rfl, rfl⟩
  · rintro ⟨rfl, rfl⟩
    exact ⟨rfl, rfl⟩

theorem Outline.resolve_fault_ne_ok {cause : Fault} {place : Fragment} :
    ((Outline.fault cause place).resolve registry).run b ≠ .ok (t, c) := by
  rw [Outline.resolve]
  exact Build.run_fail_ne_ok

theorem Outline.resolve_name_eq_ok {place : Fragment} :
    ((Outline.name place).resolve registry).run b = .ok (t, c) ↔
      t = .argument (String.ofList place.text) (b.register (String.ofList place.text)).1 ∧
        c = (b.register (String.ofList place.text)).2 := by
  simp only [Outline.resolve, Build.run_bind_eq_ok, Build.run_slot, Build.run_pure,
    Except.ok.injEq, Prod.mk.injEq]
  constructor
  · rintro ⟨slot, middle, h, rfl, rfl⟩
    simp [h]
  · rintro ⟨rfl, rfl⟩
    exact ⟨_, _, rfl, rfl, rfl⟩

theorem Outline.resolve_minus_eq_ok {operand : Outline} :
    ((Outline.minus operand).resolve registry).run b = .ok (t, c) ↔
      ∃ x, (operand.resolve registry).run b = .ok (x, c) ∧ t = x.negate := by
  simp only [Outline.resolve, Build.run_bind_eq_ok, Build.run_pure, Except.ok.injEq,
    Prod.mk.injEq]
  constructor
  · rintro ⟨x, middle, h, rfl, rfl⟩
    exact ⟨x, h, rfl⟩
  · rintro ⟨x, h, rfl⟩
    exact ⟨x, c, h, rfl, rfl⟩

theorem Outline.resolve_binary_eq_ok {op : Operator} {left right : Outline} :
    ((Outline.binary op left right).resolve registry).run b = .ok (t, c) ↔
      ∃ x y middle, (left.resolve registry).run b = .ok (x, middle) ∧
        (right.resolve registry).run middle = .ok (y, c) ∧ t = .binary op x y := by
  simp only [Outline.resolve, Build.run_bind_eq_ok, Build.run_pure, Except.ok.injEq,
    Prod.mk.injEq]
  constructor
  · rintro ⟨x, middle, hx, y, last, hy, rfl, rfl⟩
    exact ⟨x, y, middle, hx, hy, rfl⟩
  · rintro ⟨x, y, middle, hx, hy, rfl⟩
    exact ⟨x, middle, hx, y, c, hy, rfl, rfl⟩

theorem Outline.resolve_call_eq_ok {word : String} {place : Fragment} {arguments : List Outline} :
    ((Outline.call word place arguments).resolve registry).run b = .ok (t, c) ↔
      ∃ provider operands middle, registry.find? word = some provider ∧
        (Outline.resolveAll registry arguments).run b = .ok (operands, middle) ∧
        (provider operands).run middle = .ok (t, c) ∧ t.check word place c.size = .ok () := by
  rw [Outline.resolve]
  split
  next h => simp [h, Build.run]
  next provider h =>
    simp only [Build.run_bind_eq_ok, Build.run_pure, Build.run_bindings, Build.run_ofExcept_eq_ok,
      Except.ok.injEq, Prod.mk.injEq]
    constructor
    · rintro ⟨operands, middle, ho, x, last, hp, _, _, ⟨rfl, rfl⟩, _, _, ⟨hc, rfl⟩, rfl, rfl⟩
      exact ⟨provider, operands, middle, h, ho, hp, hc⟩
    · rintro ⟨_, operands, middle, hf, ho, hp, hc⟩
      obtain rfl := Option.some.inj (h.symm.trans hf)
      exact ⟨operands, middle, ho, t, c, hp, c, c, ⟨rfl, rfl⟩, (), c, ⟨hc, rfl⟩, rfl, rfl⟩

theorem Outline.resolveAll_nil_eq_ok {operands : List Term} :
    (Outline.resolveAll registry []).run b = .ok (operands, c) ↔ operands = [] ∧ c = b := by
  simp [Outline.resolveAll, Build.run_pure, eq_comm]

theorem Outline.resolveAll_cons_eq_ok {outline : Outline} {rest : List Outline}
    {operands : List Term} :
    (Outline.resolveAll registry (outline :: rest)).run b = .ok (operands, c) ↔
      ∃ x xs middle, (outline.resolve registry).run b = .ok (x, middle) ∧
        (Outline.resolveAll registry rest).run middle = .ok (xs, c) ∧ operands = x :: xs := by
  simp only [Outline.resolveAll, Build.run_bind_eq_ok, Build.run_pure, Except.ok.injEq,
    Prod.mk.injEq]
  constructor
  · rintro ⟨x, middle, hx, xs, last, hxs, rfl, rfl⟩
    exact ⟨x, xs, middle, hx, hxs, rfl⟩
  · rintro ⟨x, xs, middle, hx, hxs, rfl⟩
    exact ⟨x, middle, hx, xs, c, hxs, rfl, rfl⟩

end Resolve

end Formulary
