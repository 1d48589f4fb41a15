import Formulary.Lowering

namespace Formulary

/-- Induction over terms in which the root of an embedded formula is a part of the term. -/
theorem Term.bodyInduction {P : Term → Prop}
    (constant : ∀ value, P (.constant value))
    (argument : ∀ name slot, P (.argument name slot))
    (neg : ∀ operand, P operand → P (.neg operand))
    (binary : ∀ op left right, P left → P right → P (.binary op left right))
    (call : ∀ function operands, (∀ t ∈ operands, P t) → P (.call function operands))
    (embedded : ∀ body operands, P body.root → (∀ t ∈ operands, P t) →
      P (.embedded body operands)) (t : Term) : P t := by
  refine @Term.rec P (fun operands => ∀ t ∈ operands, P t) (fun body => P body.root)
    constant argument neg binary call embedded ?_ ?_ ?_ t
  · simp
  · intro head tail hhead htail
    exact List.forall_mem_cons.mpr ⟨hhead, htail⟩
  · exact fun _ _ _ _ _ hroot => hroot

mutual

/-- The formulas embedded in a term at any depth, also in the roots of embedded ones. -/
def Term.bodies : Term → List (Body Term)
  | .constant _ => []
  | .argument .. => []
  | .neg operand => operand.bodies
  | .binary _ left right => left.bodies ++ right.bodies
  | .call _ operands => Term.bodiesAll operands
  | .embedded ⟨source, root, arguments, argumentCount, code⟩ operands =>
    ⟨source, root, arguments, argumentCount, code⟩ :: (root.bodies ++ Term.bodiesAll operands)

def Term.bodiesAll : List Term → List (Body Term)
  | [] => []
  | operand :: rest => operand.bodies ++ Term.bodiesAll rest

end

theorem Term.bodies_embedded (body : Body Term) (operands : List Term) :
    (Term.embedded body operands).bodies =
      body :: (body.root.bodies ++ Term.bodiesAll operands) := rfl

theorem Term.mem_bodiesAll {operands : List Term} {b : Body Term} :
    b ∈ Term.bodiesAll operands ↔ ∃ t ∈ operands, b ∈ t.bodies := by
  induction operands with
  | nil => simp [Term.bodiesAll]
  | cons t rest ih => simp [Term.bodiesAll, ih]

theorem Term.forall_bodiesAll {P : Body Term → Prop} {operands : List Term} :
    (∀ b ∈ Term.bodiesAll operands, P b) ↔ ∀ t ∈ operands, ∀ b ∈ t.bodies, P b := by
  constructor
  · exact fun h t ht b hb => h b (Term.mem_bodiesAll.mpr ⟨t, ht, hb⟩)
  · intro h b hb
    obtain ⟨t, ht, hbt⟩ := Term.mem_bodiesAll.mp hb
    exact h t ht b hbt

theorem Term.forall_bodies_embedded {P : Body Term → Prop} {body : Body Term}
    {operands : List Term} :
    (∀ b ∈ (Term.embedded body operands).bodies, P b) ↔
      P body ∧ (∀ b ∈ body.root.bodies, P b) ∧ ∀ t ∈ operands, ∀ b ∈ t.bodies, P b := by
  rw [Term.bodies_embedded, List.forall_mem_cons, List.forall_mem_append, Term.forall_bodiesAll]

theorem Term.bodies_trans {t : Term} {b c : Body Term} (hb : b ∈ t.bodies)
    (hc : c ∈ b.root.bodies) : c ∈ t.bodies := by
  induction t using Term.bodyInduction with
  | constant => simp [Term.bodies] at hb
  | argument => simp [Term.bodies] at hb
  | neg operand ih => exact ih hb
  | binary op left right ihl ihr =>
    rcases List.mem_append.mp hb with h | h
    · exact List.mem_append.mpr (Or.inl (ihl h))
    · exact List.mem_append.mpr (Or.inr (ihr h))
  | call function operands ih =>
    obtain ⟨t, ht, hbt⟩ := Term.mem_bodiesAll.mp hb
    exact Term.mem_bodiesAll.mpr ⟨t, ht, ih t ht hbt⟩
  | embedded body operands ihroot ih =>
    rw [Term.bodies_embedded] at hb ⊢
    rcases List.mem_cons.mp hb with rfl | hb
    · exact List.mem_cons_of_mem _ (List.mem_append.mpr (Or.inl hc))
    rcases List.mem_append.mp hb with h | h
    · exact List.mem_cons_of_mem _ (List.mem_append.mpr (Or.inl (ihroot h)))
    · obtain ⟨t, ht, hbt⟩ := Term.mem_bodiesAll.mp h
      exact List.mem_cons_of_mem _
        (List.mem_append.mpr (Or.inr (Term.mem_bodiesAll.mpr ⟨t, ht, ih t ht hbt⟩)))

theorem Term.bodiesAll_trans {operands : List Term} {b c : Body Term}
    (hb : b ∈ Term.bodiesAll operands) (hc : c ∈ b.root.bodies) :
    c ∈ Term.bodiesAll operands := by
  obtain ⟨t, ht, hbt⟩ := Term.mem_bodiesAll.mp hb
  exact Term.mem_bodiesAll.mpr ⟨t, ht, Term.bodies_trans hbt hc⟩

/-- Fewer formulas are embedded in an embedded formula than in the term around it. -/
theorem Term.length_bodies_lt {t : Term} {b : Body Term} (h : b ∈ t.bodies) :
    b.root.bodies.length < t.bodies.length := by
  have all : ∀ {operands : List Term}, b ∈ Term.bodiesAll operands →
      (∀ t ∈ operands, b ∈ t.bodies → b.root.bodies.length < t.bodies.length) →
      b.root.bodies.length < (Term.bodiesAll operands).length := by
    intro operands hb ih
    induction operands with
    | nil => simp [Term.bodiesAll] at hb
    | cons t rest ihrest =>
      rw [Term.bodiesAll, List.length_append]
      rcases List.mem_append.mp hb with hb | hb
      · have := ih t (by simp) hb
        omega
      · have := ihrest hb fun u hu => ih u (List.mem_cons_of_mem _ hu)
        omega
  induction t using Term.bodyInduction with
  | constant => simp [Term.bodies] at h
  | argument => simp [Term.bodies] at h
  | neg operand ih => exact ih h
  | binary op left right ihl ihr =>
    rw [Term.bodies, List.length_append]
    rcases List.mem_append.mp h with h | h
    · have := ihl h
      omega
    · have := ihr h
      omega
  | call function operands ih => exact all h ih
  | embedded body operands ihroot ih =>
    rw [Term.bodies_embedded, List.length_cons, List.length_append]
    rcases List.mem_cons.mp h with rfl | h
    · exact Nat.lt_succ_of_le (Nat.le_add_right _ _)
    rcases List.mem_append.mp h with h | h
    · have := ihroot h
      omega
    · have := all h ih
      omega

end Formulary
