import Formulary.Proofs.Provenance

namespace Formulary

/-- The same names in the same order, all with the value zero. -/
def Bindings.cleared (b : Bindings) : Bindings := ⟨b.entries.map fun entry => (entry.1, 0)⟩

theorem Bindings.cleared_eq {b c : Bindings} (h : b.names = c.names) : b.cleared = c.cleared := by
  have hz : ∀ d : Bindings, d.cleared = ⟨d.names.map fun name => (name, 0)⟩ := fun d => by
    simp [cleared, names]
  rw [hz, hz, h]

mutual

/-- The term with no code in the formulas embedded in it, at any depth, and with what `keep` leaves
of their bindings. -/
def Term.recast (keep : Bindings → Bindings) : Term → Term
  | .constant value => .constant value
  | .argument name slot => .argument name slot
  | .neg operand => .neg (operand.recast keep)
  | .binary op left right => .binary op (left.recast keep) (right.recast keep)
  | .call function operands => .call function (Term.recastAll keep operands)
  | .embedded ⟨source, root, arguments, argumentCount, _⟩ operands =>
    .embedded ⟨source, root.recast keep, keep arguments, argumentCount, none⟩
      (Term.recastAll keep operands)

def Term.recastAll (keep : Bindings → Bindings) : List Term → List Term
  | [] => []
  | operand :: rest => operand.recast keep :: Term.recastAll keep rest

end

def Body.recast (keep : Bindings → Bindings) (b : Body Term) : Body Term :=
  ⟨b.source, b.root.recast keep, keep b.arguments, b.argumentCount, none⟩

/-- The term up to the code and the stored values of the formulas embedded in it. -/
def Term.definition (t : Term) : Term := t.recast Bindings.cleared

/-- The source, the root up to the code and the stored values within it, and the names and the
number of the arguments: what a formula is from its parsing on. -/
def Body.definition (b : Body Term) : Body Term := b.recast Bindings.cleared

/-- The formula up to code, its own and that of the formulas embedded in it. -/
def Body.uncompiled (b : Body Term) : Body Term := b.recast id

section Recast

variable {keep : Bindings → Bindings}

theorem Term.recast_embedded (body : Body Term) (operands : List Term) :
    (Term.embedded body operands).recast keep =
      .embedded (body.recast keep) (Term.recastAll keep operands) := rfl

theorem Term.recastAll_eq_map (operands : List Term) :
    Term.recastAll keep operands = operands.map (Term.recast keep) := by
  induction operands with
  | nil => rfl
  | cons t rest ih => rw [Term.recastAll, ih, List.map_cons]

theorem Term.length_recastAll (operands : List Term) :
    (Term.recastAll keep operands).length = operands.length := by
  rw [Term.recastAll_eq_map, List.length_map]

theorem Term.recast_negate (t : Term) : t.negate.recast keep = (t.recast keep).negate := by
  cases t <;> rfl

theorem Term.recast_eval? (t : Term) : (t.recast keep).eval? = t.eval? := by
  funext values
  induction t using Term.bodyInduction generalizing values with
  | constant => rfl
  | argument => rfl
  | neg operand ih => rw [Term.recast, Term.eval?, Term.eval?, ih]
  | binary op left right ihl ihr => rw [Term.recast, Term.eval?, Term.eval?, ihl, ihr]
  | call function operands ih =>
    rw [Term.recast, Term.eval?, Term.eval?, Term.recastAll_eq_map,
      Term.evalAll?_map fun t ht => funext (ih t ht)]
  | embedded body operands ihroot ih =>
    rw [Term.recast_embedded, Term.recastAll_eq_map]
    change (Term.evalAll? _ values).bind (body.root.recast keep).eval? =
      (Term.evalAll? operands values).bind body.root.eval?
    rw [funext ihroot, Term.evalAll?_map fun t ht => funext (ih t ht)]

theorem Term.recast_bodies (t : Term) :
    (t.recast keep).bodies = t.bodies.map (Body.recast keep) := by
  have all : ∀ {operands : List Term},
      (∀ t ∈ operands, (t.recast keep).bodies = t.bodies.map (Body.recast keep)) →
      Term.bodiesAll (Term.recastAll keep operands) =
        (Term.bodiesAll operands).map (Body.recast keep) := by
    intro operands h
    induction operands with
    | nil => rfl
    | cons t rest ih =>
      rw [Term.recastAll, Term.bodiesAll, Term.bodiesAll, List.map_append, h t (by simp),
        ih fun u hu => h u (List.mem_cons_of_mem _ hu)]
  induction t using Term.bodyInduction with
  | constant => rfl
  | argument => rfl
  | neg operand ih => exact ih
  | binary op left right ihl ihr =>
    rw [Term.recast, Term.bodies, Term.bodies, ihl, ihr, List.map_append]
  | call function operands ih => exact all ih
  | embedded body operands ihroot ih =>
    rw [Term.recast_embedded, Term.bodies_embedded, Term.bodies_embedded, List.map_cons,
      List.map_append, all ih, ← ihroot]
    rfl

theorem Body.compile_recast_of_root {b : Body Term}
    (h : b.root.compileEmbedded.recast keep = b.root.recast keep) :
    b.compile.recast keep = b.recast keep := by
  by_cases hc : b.code = none
  · rw [Body.compile_of_none hc, Body.recast, Body.recast, h]
  · rw [Body.compile_of_code hc]

/-- Compiling what is embedded changes nothing but code. -/
theorem Term.recast_compileEmbedded (t : Term) :
    t.compileEmbedded.recast keep = t.recast keep := by
  have all : ∀ {operands : List Term},
      (∀ t ∈ operands, t.compileEmbedded.recast keep = t.recast keep) →
      Term.recastAll keep (Term.compileEmbeddedAll operands) = Term.recastAll keep operands := by
    intro operands h
    rw [Term.compileEmbeddedAll_eq_map, Term.recastAll_eq_map, Term.recastAll_eq_map, List.map_map]
    exact List.map_congr_left h
  induction t using Term.bodyInduction with
  | constant => rfl
  | argument => rfl
  | neg operand ih => rw [Term.compileEmbedded, Term.recast, Term.recast, ih]
  | binary op left right ihl ihr =>
    rw [Term.compileEmbedded, Term.recast, Term.recast, ihl, ihr]
  | call function operands ih => rw [Term.compileEmbedded, Term.recast, Term.recast, all ih]
  | embedded body operands ihroot ih =>
    rw [Term.compileEmbedded, Term.recast_embedded, Term.recast_embedded,
      Body.compile_recast_of_root ihroot, all ih]

theorem Body.compile_recast (b : Body Term) : b.compile.recast keep = b.recast keep :=
  Body.compile_recast_of_root b.root.recast_compileEmbedded

/-- Work on a term changes nothing but code. -/
theorem Term.Advances.recast {t u : Term} (h : t.Advances u) : u.recast keep = t.recast keep := by
  have replace : ∀ {before after : List Term} {t u : Term}, u.recast keep = t.recast keep →
      Term.recastAll keep (before ++ u :: after) = Term.recastAll keep (before ++ t :: after) := by
    intro before after t u htu
    simp only [Term.recastAll_eq_map, List.map_append, List.map_cons, htu]
  induction h with
  | lower t => exact t.recast_compileEmbedded
  | compile body operands =>
    rw [Term.recast_embedded, Term.recast_embedded, Body.compile_recast]
  | neg _ ih => rw [Term.recast, Term.recast, ih]
  | left _ ih => rw [Term.recast, Term.recast, ih]
  | right _ ih => rw [Term.recast, Term.recast, ih]
  | call _ ih => rw [Term.recast, Term.recast, replace ih]
  | operand _ ih => rw [Term.recast_embedded, Term.recast_embedded, replace ih]
  | root _ ih => rw [Term.recast_embedded, Term.recast_embedded, Body.recast, Body.recast, ih]

end Recast

theorem Bindings.cleared_names (b : Bindings) : b.cleared.names = b.names := by
  simp [cleared, names]

theorem Term.definition_eval? (t : Term) : t.definition.eval? = t.eval? := t.recast_eval?

theorem Body.length_bodies_definition (b : Body Term) :
    b.definition.root.bodies.length = b.root.bodies.length := by
  show (b.root.recast Bindings.cleared).bodies.length = _
  rw [Term.recast_bodies, List.length_map]

theorem Body.definition_mem_bodies {b c : Body Term} (h : c ∈ b.root.bodies) :
    c.definition ∈ b.definition.root.bodies := by
  show _ ∈ (b.root.recast Bindings.cleared).bodies
  rw [Term.recast_bodies]
  exact List.mem_map_of_mem h

end Formulary
