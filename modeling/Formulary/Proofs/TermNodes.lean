import Formulary.Proofs.Definition

namespace Formulary

mutual

/-- The nodes of a term from the left to the right, each before its operands. What an embedded
formula is made of is no part of the term. -/
def Term.nodes : Term → List Term
  | .constant value => [.constant value]
  | .argument name slot => [.argument name slot]
  | .neg operand => .neg operand :: operand.nodes
  | .binary op left right => .binary op left right :: (left.nodes ++ right.nodes)
  | .call function operands => .call function operands :: Term.nodesAll operands
  | .embedded body operands => .embedded body operands :: Term.nodesAll operands

def Term.nodesAll : List Term → List Term
  | [] => []
  | operand :: rest => operand.nodes ++ Term.nodesAll rest

end

theorem Term.mem_nodes_self (t : Term) : t ∈ t.nodes := by
  cases t with
  | constant | argument => exact List.mem_singleton_self _
  | neg | binary | call | embedded => exact List.mem_cons_self

section Recast

variable {keep : Bindings → Bindings}

theorem Term.recast_nodes (t : Term) :
    (t.recast keep).nodes = t.nodes.map (Term.recast keep) := by
  have all : ∀ {operands : List Term},
      (∀ t ∈ operands, (t.recast keep).nodes = t.nodes.map (Term.recast keep)) →
      Term.nodesAll (Term.recastAll keep operands) =
        (Term.nodesAll operands).map (Term.recast keep) := by
    intro operands h
    induction operands with
    | nil => rfl
    | cons t rest ih =>
      rw [Term.recastAll, Term.nodesAll, Term.nodesAll, List.map_append, h t List.mem_cons_self,
        ih fun u hu => h u (List.mem_cons_of_mem t hu)]
  induction t using Term.bodyInduction with
  | constant => rfl
  | argument => rfl
  | neg operand ih => rw [Term.recast, Term.nodes, ih]; rfl
  | binary op left right ihl ihr =>
    rw [Term.recast, Term.nodes, ihl, ihr, ← List.map_append]; rfl
  | call function operands ih => rw [Term.recast, Term.nodes, all ih]; rfl
  | embedded body operands _ ih => rw [Term.recast_embedded, Term.nodes, all ih]; rfl

theorem Term.recast_eq_constant {t : Term} {value : Float} :
    t.recast keep = .constant value ↔ t = .constant value := by
  cases t <;> simp [Term.recast]

theorem Term.recast_eq_argument {t : Term} {name : String} {slot : Nat} :
    t.recast keep = .argument name slot ↔ t = .argument name slot := by
  cases t <;> simp [Term.recast]

end Recast

end Formulary
