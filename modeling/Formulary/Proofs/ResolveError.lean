import Formulary.Proofs.Extensions
import Formulary.Proofs.TermBodies

namespace Formulary

namespace Build

variable {α β : Type}

theorem run_bind_eq_error {x : Build α} {f : α → Build β} {b : Bindings} {error : Error} :
    (x >>= f).run b = .error error ↔
      x.run b = .error error ∨
        ∃ value middle, x.run b = .ok (value, middle) ∧ (f value).run middle = .error error := by
  rw [run_bind]
  cases x.run b with
  | error found => simp [Except.bind]
  | ok made =>
    obtain ⟨value, middle⟩ := made
    simp only [Except.bind, Except.ok.injEq, Prod.mk.injEq, reduceCtorEq, false_or]
    constructor
    · intro h
      exact ⟨value, middle, ⟨rfl, rfl⟩, h⟩
    · rintro ⟨_, _, ⟨rfl, rfl⟩, h⟩
      exact h

theorem run_ofExcept_eq_error {x : Except Error α} {b : Bindings} {error : Error} :
    (ofExcept x).run b = .error error ↔ x = .error error := by
  cases x <;> simp [ofExcept, run]

theorem run_pure_ne_error {value : α} {b : Bindings} {error : Error} :
    (pure value : Build α).run b ≠ .error error := by
  simp [run_pure]

end Build

section Resolve

variable {registry : Registry} {b : Bindings} {error : Error}

/-! What a failed resolution of each kind of outline failed at. -/

theorem Outline.resolve_number_ne_error {value : Float} :
    ((Outline.number value).resolve registry).run b ≠ .error error :=
  Build.run_pure_ne_error

theorem Outline.resolve_name_ne_error {place : Fragment} :
    ((Outline.name place).resolve registry).run b ≠ .error error := by
  intro h
  rw [Outline.resolve] at h
  rcases Build.run_bind_eq_error.mp h with h | ⟨_, _, _, h⟩
  · rw [Build.run_slot] at h
    cases h
  · exact absurd h Build.run_pure_ne_error

theorem Outline.resolve_fault_eq_error {cause : Fault} {place : Fragment} :
    ((Outline.fault cause place).resolve registry).run b = .error error ↔
      error = .malformed cause place := by
  simp [Outline.resolve, Build.run, eq_comm]

theorem Outline.resolve_minus_eq_error {operand : Outline} :
    ((Outline.minus operand).resolve registry).run b = .error error ↔
      (operand.resolve registry).run b = .error error := by
  rw [Outline.resolve, Build.run_bind_eq_error]
  simp [Build.run_pure]

theorem Outline.resolve_binary_eq_error {op : Operator} {left right : Outline} :
    ((Outline.binary op left right).resolve registry).run b = .error error ↔
      (left.resolve registry).run b = .error error ∨
        ∃ x middle, (left.resolve registry).run b = .ok (x, middle) ∧
          (right.resolve registry).run middle = .error error := by
  simp only [Outline.resolve, Build.run_bind_eq_error, Build.run_pure, reduceCtorEq, and_false,
    exists_false, or_false]

theorem Outline.resolve_call_eq_error {word : String} {place : Fragment}
    {arguments : List Outline}
    (h : ((Outline.call word place arguments).resolve registry).run b = .error error) :
    (registry.find? word = none ∧ error = .malformed .unknownExtension place) ∨
      ∃ provider, registry.find? word = some provider ∧
        ((Outline.resolveAll registry arguments).run b = .error error ∨
          ∃ operands middle, (Outline.resolveAll registry arguments).run b = .ok (operands, middle) ∧
            ((provider operands).run middle = .error error ∨
              ∃ t c, (provider operands).run middle = .ok (t, c) ∧
                t.check word place c.size = .error error)) := by
  rw [Outline.resolve] at h
  split at h
  next hf => exact Or.inl ⟨hf, (Except.error.inj h).symm⟩
  next provider hf =>
    refine Or.inr ⟨provider, hf, ?_⟩
    rcases Build.run_bind_eq_error.mp h with h | ⟨operands, middle, ho, h⟩
    · exact Or.inl h
    refine Or.inr ⟨operands, middle, ho, ?_⟩
    rcases Build.run_bind_eq_error.mp h with h | ⟨t, c, ht, h⟩
    · exact Or.inl h
    refine Or.inr ⟨t, c, ht, ?_⟩
    simp only [Build.run_bind_eq_error, Build.run_bindings, Build.run_ofExcept_eq_error,
      Build.run_pure] at h
    simpa using h

/-- One of the outlines fails, with the bindings that those before it left. -/
theorem Outline.resolveAll_eq_error {outlines : List Outline}
    (h : (Outline.resolveAll registry outlines).run b = .error error) :
    ∃ o ∈ outlines, ∃ middle, (o.resolve registry).run middle = .error error := by
  induction outlines generalizing b with
  | nil => exact absurd h Build.run_pure_ne_error
  | cons o rest ih =>
    rw [Outline.resolveAll] at h
    rcases Build.run_bind_eq_error.mp h with h | ⟨_, middle, _, h⟩
    · exact ⟨o, List.mem_cons_self, b, h⟩
    rcases Build.run_bind_eq_error.mp h with h | ⟨_, _, _, h⟩
    · obtain ⟨later, hmem, hlater⟩ := ih h
      exact ⟨later, List.mem_cons_of_mem o hmem, hlater⟩
    · exact absurd h Build.run_pure_ne_error

end Resolve

theorem Except.seq_eq_error {ε : Type} {x y : Except ε Unit} {error : ε} :
    (do x; y) = .error error ↔ x = .error error ∨ x = .ok () ∧ y = .error error := by
  cases x with
  | error found => simp [bind, Except.bind]
  | ok _ => simp [bind, Except.bind]

theorem Arity.check_eq_error {arity : Arity} {name : String} {count : Nat} {error : Error} :
    arity.check name count = .error error ↔
      arity.accepts count = false ∧ error = .arity name arity count := by
  by_cases h : arity.accepts count = true
  · simp [Arity.check, h]
  · simp [Arity.check, h, eq_comm]

section Check

variable {call : String} {place : Fragment} {size : Nat} {error : Error}

theorem Term.checkAll_eq_error {operands : List Term}
    (h : Term.checkAll call place size operands = .error error) :
    ∃ t ∈ operands, t.check call place size = .error error := by
  induction operands with
  | nil => cases h
  | cons t rest ih =>
    rw [Term.checkAll] at h
    rcases Except.seq_eq_error.mp h with ht | ⟨_, hrest⟩
    · exact ⟨t, List.mem_cons_self, ht⟩
    · obtain ⟨u, hu, hcheck⟩ := ih hrest
      exact ⟨u, List.mem_cons_of_mem t hu, hcheck⟩

/-- The check of a provider's term refuses a stray slot at the place of the call, or a number of
operands in the name of the call. -/
theorem Term.check_eq_error {t : Term} (h : t.check call place size = .error error) :
    error = .malformed .strayArgument place ∨
      ∃ expected found, error = .arity call expected found := by
  induction t using Term.bodyInduction with
  | constant => cases h
  | argument name slot =>
    rw [Term.check] at h
    split at h
    next => cases h
    next => exact Or.inl (Except.error.inj h).symm
  | neg operand ih => exact ih h
  | binary op left right ihl ihr =>
    rw [Term.check] at h
    rcases Except.seq_eq_error.mp h with hl | ⟨_, hr⟩
    · exact ihl hl
    · exact ihr hr
  | call function operands ih =>
    obtain ⟨t, ht, hcheck⟩ := Term.checkAll_eq_error h
    exact ih t ht hcheck
  | embedded body operands _ ih =>
    rw [Term.check] at h
    rcases Except.seq_eq_error.mp h with ha | ⟨_, hall⟩
    · exact Or.inr ⟨_, _, (Arity.check_eq_error.mp ha).2⟩
    · obtain ⟨t, ht, hcheck⟩ := Term.checkAll_eq_error hall
      exact ih t ht hcheck

end Check

/-- A function or an embedded formula refuses nothing but a number of operands. -/
theorem Extension.provider_run_eq_error {name : String} {e : Extension} {operands : List Term}
    {b : Bindings} {error : Error} :
    (e.provider name operands).run b = .error error ↔
      e.arity.accepts operands.length = false ∧ error = .arity name e.arity operands.length := by
  rw [Extension.provider, Build.run_bind_eq_error, Build.run_ofExcept_eq_error,
    Arity.check_eq_error]
  simp [Build.run_pure]

end Formulary
