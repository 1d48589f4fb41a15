import Formulary.Proofs.TermNodes

namespace Formulary

/-- Whether a node is made of its operands by arithmetic alone: a constant, a negation or an
operator. All others ask for an argument, a function or another formula. -/
def Term.isArithmetic : Term → Bool
  | .constant _ | .neg _ | .binary .. => true
  | .argument .. | .call .. | .embedded .. => false

namespace Lowered

variable {l r : Lowered} {value : Float}

theorem neg_eq_literal : l.neg = .literal value ↔ ∃ x, l = .literal x ∧ value = -x := by
  cases l with
  | literal x => simp [neg, eq_comm]
  | dynamic code => simp [neg]

/-- One side that is not known beforehand makes the whole unknown. -/
theorem binary_eq_literal {op : Operator} :
    binary op l r = .literal value ↔
      ∃ x y, l = .literal x ∧ r = .literal y ∧ value = op.apply x y := by
  cases l with
  | dynamic code => simp [binary]
  | literal x =>
    cases r with
    | dynamic code => simp [binary]
    | literal y => simp [binary, eq_comm]

end Lowered

namespace Term

/-- What is not arithmetic becomes code, whatever its operands are. -/
theorem lower_of_not_arithmetic {t : Term} (h : t.isArithmetic = false) :
    ∃ code, t.lower = .dynamic code := by
  cases t with
  | constant | neg | binary => cases h
  | argument | call => exact ⟨_, rfl⟩
  | embedded body =>
    obtain ⟨source, root, arguments, argumentCount, compiled⟩ := body
    exact ⟨_, rfl⟩

theorem lower_literal_iff_of_not_arithmetic {t : Term} (h : t.isArithmetic = false) :
    (∃ value, t.lower = .literal value) ↔ ∀ node ∈ t.nodes, node.isArithmetic = true := by
  obtain ⟨code, hcode⟩ := lower_of_not_arithmetic h
  refine iff_of_false (fun ⟨_, hvalue⟩ => ?_) (fun hall => ?_)
  · rw [hcode] at hvalue
    cases hvalue
  · rw [hall t t.mem_nodes_self] at h
    cases h

theorem lower_literal_iff (t : Term) :
    (∃ value, t.lower = .literal value) ↔ ∀ node ∈ t.nodes, node.isArithmetic = true := by
  induction t using Term.bodyInduction with
  | constant value => exact ⟨fun _ => List.forall_mem_singleton.mpr rfl, fun _ => ⟨value, rfl⟩⟩
  | neg operand ih =>
    have hlower : (neg operand).lower = operand.lower.neg := rfl
    rw [nodes, List.forall_mem_cons, ← ih, hlower]
    constructor
    · rintro ⟨_, h⟩
      obtain ⟨x, hx, _⟩ := Lowered.neg_eq_literal.mp h
      exact ⟨rfl, x, hx⟩
    · rintro ⟨_, x, hx⟩
      exact ⟨-x, Lowered.neg_eq_literal.mpr ⟨x, hx, rfl⟩⟩
  | binary op left right ihl ihr =>
    have hlower : (binary op left right).lower = Lowered.binary op left.lower right.lower := rfl
    rw [nodes, List.forall_mem_cons, List.forall_mem_append, ← ihl, ← ihr, hlower]
    constructor
    · rintro ⟨_, h⟩
      obtain ⟨x, y, hx, hy, _⟩ := Lowered.binary_eq_literal.mp h
      exact ⟨rfl, ⟨x, hx⟩, y, hy⟩
    · rintro ⟨_, ⟨x, hx⟩, y, hy⟩
      exact ⟨op.apply x y, Lowered.binary_eq_literal.mpr ⟨x, y, hx, hy, rfl⟩⟩
  | argument => exact lower_literal_iff_of_not_arithmetic rfl
  | call => exact lower_literal_iff_of_not_arithmetic rfl
  | embedded body => exact lower_literal_iff_of_not_arithmetic rfl

/-- A literal is the value of its term, which then has no slot to look up. -/
theorem eval?_of_lower_literal {t : Term} {value : Float} (h : t.lower = .literal value)
    (values : List Float) : t.eval? values = some value := by
  induction t using Term.bodyInduction generalizing value with
  | constant x =>
    cases h
    rfl
  | argument => cases h
  | neg operand ih =>
    obtain ⟨x, hx, rfl⟩ := Lowered.neg_eq_literal.mp h
    rw [eval?, ih hx]
    rfl
  | binary op left right ihl ihr =>
    obtain ⟨x, y, hx, hy, rfl⟩ := Lowered.binary_eq_literal.mp h
    rw [eval?, ihl hx, ihr hy]
    rfl
  | call => cases h
  | embedded body => cases h

/-- Lowering folds a term to its value when all nodes of the term are arithmetic, whatever the
value is, and to code when there is another node anywhere in it. -/
theorem lower_folds (t : Term) :
    ((∃ value, t.lower = .literal value) ↔ ∀ node ∈ t.nodes, node.isArithmetic = true) ∧
      (∀ value, t.lower = .literal value → ∀ values, t.eval? values = some value) ∧
      ((∃ node ∈ t.nodes, node.isArithmetic = false) → ∃ code, t.lower = .dynamic code) := by
  refine ⟨t.lower_literal_iff, fun value h => eval?_of_lower_literal h, ?_⟩
  rintro ⟨node, hmem, hnode⟩
  cases hl : t.lower with
  | dynamic code => exact ⟨code, rfl⟩
  | literal value =>
    have harithmetic := t.lower_literal_iff.mp ⟨value, hl⟩ node hmem
    rw [hnode] at harithmetic
    cases harithmetic

end Term

end Formulary
