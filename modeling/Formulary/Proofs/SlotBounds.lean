import Formulary.Proofs.Extensions
import Formulary.Proofs.TermBodies

namespace Formulary

mutual

/-- Every slot lies below `size`, and every embedded formula gets one operand for each of its
arguments. The roots of embedded formulas have slots of their own and are not looked at. -/
def Term.Fits (size : Nat) : Term → Prop
  | .constant _ => True
  | .argument _ slot => slot < size
  | .neg operand => operand.Fits size
  | .binary _ left right => left.Fits size ∧ right.Fits size
  | .call _ operands => Term.AllFit size operands
  | .embedded body operands =>
    operands.length = body.argumentCount ∧ Term.AllFit size operands

def Term.AllFit (size : Nat) : List Term → Prop
  | [] => True
  | operand :: rest => operand.Fits size ∧ Term.AllFit size rest

end

def Body.Fits (b : Body Term) : Prop := b.root.Fits b.argumentCount

theorem Term.allFit_iff {size : Nat} {operands : List Term} :
    Term.AllFit size operands ↔ ∀ t ∈ operands, t.Fits size := by
  induction operands with
  | nil => simp [Term.AllFit]
  | cons t rest ih => simp [Term.AllFit, ih]

theorem Term.Fits.mono {t : Term} {m n : Nat} (h : t.Fits m) (hmn : m ≤ n) : t.Fits n := by
  induction t using Term.bodyInduction with
  | constant => trivial
  | argument name slot => exact Nat.lt_of_lt_of_le h hmn
  | neg operand ih => exact ih h
  | binary op left right ihl ihr => exact ⟨ihl h.1, ihr h.2⟩
  | call function operands ih =>
    exact Term.allFit_iff.mpr fun t ht => ih t ht (Term.allFit_iff.mp h t ht)
  | embedded body operands _ ih =>
    exact ⟨h.1, Term.allFit_iff.mpr fun t ht => ih t ht (Term.allFit_iff.mp h.2 t ht)⟩

theorem Term.Fits.negate {t : Term} {size : Nat} (h : t.Fits size) : t.negate.Fits size := by
  cases t <;> exact h

theorem Arity.check_exactly_eq_ok {name : String} {expected found : Nat} :
    (Arity.exactly expected).check name found = .ok () ↔ found = expected := by
  by_cases h : found = expected <;> simp [Arity.check, Arity.accepts, h]

theorem Except.seq_eq_ok {ε : Type} {x y : Except ε Unit} :
    (do x; y) = .ok () ↔ x = .ok () ∧ y = .ok () := by
  cases x with
  | error error => simp [bind, Except.bind]
  | ok value => simp [bind, Except.bind]

theorem Term.checkAll_eq_ok {call : String} {place : Fragment} {size : Nat}
    {operands : List Term}
    (h : ∀ t ∈ operands, t.check call place size = .ok () ↔ t.Fits size) :
    Term.checkAll call place size operands = .ok () ↔ Term.AllFit size operands := by
  induction operands with
  | nil => simp [Term.checkAll, Term.AllFit]
  | cons t rest ih =>
    have hrest := ih fun u hu => h u (List.mem_cons_of_mem _ hu)
    rw [Term.checkAll, Except.seq_eq_ok, Term.AllFit, h t (by simp), hrest]

/-- The check of a provider's term accepts exactly the terms that fit. -/
theorem Term.check_eq_ok {call : String} {place : Fragment} {size : Nat} {t : Term} :
    t.check call place size = .ok () ↔ t.Fits size := by
  induction t using Term.bodyInduction with
  | constant => simp [Term.check, Term.Fits]
  | argument name slot =>
    by_cases h : slot < size <;> simp [Term.check, Term.Fits, h]
  | neg operand ih => exact ih
  | binary op left right ihl ihr => rw [Term.check, Except.seq_eq_ok, Term.Fits, ihl, ihr]
  | call function operands ih => exact Term.checkAll_eq_ok ih
  | embedded body operands _ ih =>
    rw [Term.check, Except.seq_eq_ok, Term.Fits, Arity.check_exactly_eq_ok,
      Term.checkAll_eq_ok ih]

theorem Term.evalAll?_eq_some {operands : List Term} {values : List Float}
    (h : ∀ t ∈ operands, ∃ v, t.eval? values = some v) :
    ∃ vs, Term.evalAll? operands values = some vs ∧ vs.length = operands.length := by
  induction operands with
  | nil => exact ⟨[], rfl, rfl⟩
  | cons t rest ih =>
    obtain ⟨v, hv⟩ := h t (by simp)
    obtain ⟨vs, hvs, hl⟩ := ih fun u hu => h u (List.mem_cons_of_mem _ hu)
    exact ⟨v :: vs, by simp [Term.evalAll?, hv, hvs], by simp [hl]⟩

/-- A term that fits, with embedded formulas that fit their own bindings, has a value for all
values of its arguments. -/
theorem Term.Fits.eval?_eq_some {t : Term} {size : Nat} {values : List Float} (h : t.Fits size)
    (hb : ∀ b ∈ t.bodies, b.Fits) (hv : values.length = size) :
    ∃ v, t.eval? values = some v := by
  induction t using Term.bodyInduction generalizing size values with
  | constant value => exact ⟨value, rfl⟩
  | argument name slot =>
    have hlt : slot < values.length := hv ▸ h
    exact ⟨values[slot], List.getElem?_eq_getElem hlt⟩
  | neg operand ih =>
    obtain ⟨v, he⟩ := ih h hb hv
    exact ⟨-v, by simp [Term.eval?, he]⟩
  | binary op left right ihl ihr =>
    obtain ⟨x, hx⟩ := ihl h.1 (fun b m => hb b (List.mem_append.mpr (Or.inl m))) hv
    obtain ⟨y, hy⟩ := ihr h.2 (fun b m => hb b (List.mem_append.mpr (Or.inr m))) hv
    exact ⟨op.apply x y, by simp [Term.eval?, hx, hy]⟩
  | call function operands ih =>
    have hall := Term.forall_bodiesAll.mp hb
    obtain ⟨vs, hvs, _⟩ := Term.evalAll?_eq_some fun t ht =>
      ih t ht (Term.allFit_iff.mp h t ht) (hall t ht) hv
    exact ⟨function.apply vs, by simp [Term.eval?, hvs]⟩
  | embedded body operands ihroot ih =>
    obtain ⟨hbody, hroot, hall⟩ := Term.forall_bodies_embedded.mp hb
    obtain ⟨vs, hvs, hl⟩ := Term.evalAll?_eq_some fun t ht =>
      ih t ht (Term.allFit_iff.mp h.2 t ht) (hall t ht) hv
    obtain ⟨v, hr⟩ := ihroot hbody hroot (hl.trans h.1)
    exact ⟨v, by simp [Term.eval?, hvs, hr]⟩

/-- A function or a formula takes as many operands as fit what it makes of them. -/
theorem Extension.term_fits {e : Extension} {name : String} {operands : List Term} {size : Nat}
    (h : Term.AllFit size operands) (ha : e.arity.accepts operands.length = true) :
    (e.term name operands).Fits size := by
  cases e with
  | function arity apply => exact h
  | formula body => exact ⟨of_decide_eq_true ha, h⟩

/-- Parsing keeps every slot within the bindings, whatever the extensions do. -/
theorem Outline.resolve_fits {registry : Registry} {o : Outline} {b c : Bindings} {t : Term}
    (h : (o.resolve registry).run b = .ok (t, c)) : t.Fits c.size := by
  cases o with
  | fault cause place => exact absurd h Build.run_fail_ne_ok
  | number value =>
    obtain ⟨rfl, _⟩ := Prod.mk.inj (Except.ok.inj h)
    trivial
  | name place =>
    obtain ⟨rfl, rfl⟩ := Outline.resolve_name_eq_ok.mp h
    exact b.register_slot_lt _
  | minus operand =>
    obtain ⟨x, hx, rfl⟩ := Outline.resolve_minus_eq_ok.mp h
    exact (Outline.resolve_fits hx).negate
  | binary op left right =>
    obtain ⟨x, y, middle, hx, hy, rfl⟩ := Outline.resolve_binary_eq_ok.mp h
    exact ⟨(Outline.resolve_fits hx).mono (Build.run_size_le hy), Outline.resolve_fits hy⟩
  | call word place arguments =>
    obtain ⟨_, _, _, _, _, _, hc⟩ := Outline.resolve_call_eq_ok.mp h
    exact Term.check_eq_ok.mp hc

theorem Outline.resolveAll_fits {registry : Registry} {outlines : List Outline} {b c : Bindings}
    {operands : List Term} (h : (Outline.resolveAll registry outlines).run b = .ok (operands, c)) :
    Term.AllFit c.size operands := by
  induction outlines generalizing b operands with
  | nil =>
    obtain ⟨rfl, _⟩ := Outline.resolveAll_nil_eq_ok.mp h
    trivial
  | cons outline rest ih =>
    obtain ⟨x, xs, middle, hx, hxs, rfl⟩ := Outline.resolveAll_cons_eq_ok.mp h
    exact ⟨(Outline.resolve_fits hx).mono (Build.run_size_le hxs), ih hxs⟩

end Formulary
