import Formulary.Proofs.SlotBounds

namespace Formulary

/-- Code that a formula holds computes what its root computes. -/
def Body.Faithful (b : Body Term) : Prop := ∀ code, b.code = some code → code = b.root.eval?

theorem Lowered.neg_code (l : Lowered) (values : List Float) :
    l.neg.code values = (l.code values).map fun x => -x := by
  cases l <;> rfl

/-- Folding two literals gives the value that the code would give. -/
theorem Lowered.binary_code (op : Operator) (l r : Lowered) (values : List Float) :
    (Lowered.binary op l r).code values =
      (l.code values).bind fun x => (r.code values).bind fun y => some (op.apply x y) := by
  cases l <;> cases r <;> rfl

theorem Term.runAll_lowerAll {operands : List Term}
    (h : ∀ t ∈ operands, t.lower.code = t.eval?) :
    Code.runAll (Term.lowerAll operands) = Term.evalAll? operands := by
  funext values
  induction operands with
  | nil => rfl
  | cons t rest ih =>
    simp only [Term.lowerAll, Code.runAll, Term.evalAll?, h t (by simp),
      ih fun u hu => h u (List.mem_cons_of_mem _ hu)]

/-- Lowered code computes the value of the term. An embedded formula may bring code of its own
that was made at another time; it has to be faithful. -/
theorem Term.lower_code {t : Term} (h : ∀ b ∈ t.bodies, b.Faithful) :
    t.lower.code = t.eval? := by
  funext values
  induction t using Term.bodyInduction generalizing values with
  | constant => rfl
  | argument => rfl
  | neg operand ih =>
    show operand.lower.neg.code values = _
    rw [Lowered.neg_code, ih h]
    rfl
  | binary op left right ihl ihr =>
    obtain ⟨hl, hr⟩ := List.forall_mem_append.mp h
    show (Lowered.binary op left.lower right.lower).code values = _
    rw [Lowered.binary_code, ihl hl, ihr hr]
    rfl
  | call function operands ih =>
    have hall := Term.forall_bodiesAll.mp h
    have hcodes := Term.runAll_lowerAll fun t ht => funext (ih t ht (hall t ht))
    show (Code.runAll (Term.lowerAll operands) values).map function.apply = _
    rw [hcodes]
    rfl
  | embedded body operands ihroot ih =>
    obtain ⟨source, root, arguments, argumentCount, code⟩ := body
    obtain ⟨hbody, hroot, hall⟩ := Term.forall_bodies_embedded.mp h
    have hcodes := Term.runAll_lowerAll fun t ht => funext (ih t ht (hall t ht))
    show _ = (Term.evalAll? operands values).bind root.eval?
    rw [← hcodes]
    cases code with
    | none =>
      show (Code.runAll (Term.lowerAll operands) values).bind root.lower.code = _
      rw [funext (ihroot hroot)]
    | some code =>
      show (Code.runAll (Term.lowerAll operands) values).bind code = _
      rw [hbody code rfl]

section CompileEmbedded

theorem Body.compile_of_code {b : Body Term} (h : b.code ≠ none) : b.compile = b := by
  obtain ⟨source, root, arguments, argumentCount, code⟩ := b
  cases code with
  | none => exact absurd rfl h
  | some code => rfl

theorem Body.compile_of_none {b : Body Term} (h : b.code = none) :
    b.compile = { b with
      root := b.root.compileEmbedded, code := some b.root.compileEmbedded.lower.code } := by
  obtain ⟨source, root, arguments, argumentCount, code⟩ := b
  obtain rfl : code = none := h
  rfl

theorem Body.compile_arguments (b : Body Term) : b.compile.arguments = b.arguments := by
  by_cases h : b.code = none
  · rw [Body.compile_of_none h]
  · rw [Body.compile_of_code h]

theorem Body.compile_argumentCount (b : Body Term) : b.compile.argumentCount = b.argumentCount := by
  by_cases h : b.code = none
  · rw [Body.compile_of_none h]
  · rw [Body.compile_of_code h]

theorem Body.compile_root {P : Term → Prop} {b : Body Term} (h : P b.root)
    (hc : P b.root.compileEmbedded) : P b.compile.root := by
  by_cases hn : b.code = none
  · rwa [Body.compile_of_none hn]
  · rwa [Body.compile_of_code hn]

theorem Term.compileEmbeddedAll_eq_map (operands : List Term) :
    Term.compileEmbeddedAll operands = operands.map Term.compileEmbedded := by
  induction operands with
  | nil => rfl
  | cons t rest ih => rw [Term.compileEmbeddedAll, ih, List.map_cons]

theorem Term.evalAll?_map_at {f : Term → Term} {operands : List Term} {values found : List Float}
    (h : ∀ t ∈ operands, (f t).eval? values = t.eval? found) :
    Term.evalAll? (operands.map f) values = Term.evalAll? operands found := by
  induction operands with
  | nil => rfl
  | cons t rest ih =>
    simp only [List.map_cons, Term.evalAll?, h t (by simp),
      ih fun u hu => h u (List.mem_cons_of_mem _ hu)]

theorem Term.evalAll?_map {f : Term → Term} {operands : List Term}
    (h : ∀ t ∈ operands, (f t).eval? = t.eval?) :
    Term.evalAll? (operands.map f) = Term.evalAll? operands :=
  funext fun values => Term.evalAll?_map_at fun t ht => congrFun (h t ht) values

/-- The tree alone decides the value, so compiling what is embedded does not change it. -/
theorem Term.compileEmbedded_eval? (t : Term) : t.compileEmbedded.eval? = t.eval? := by
  funext values
  induction t using Term.bodyInduction generalizing values with
  | constant => rfl
  | argument => rfl
  | neg operand ih => rw [Term.compileEmbedded, Term.eval?, Term.eval?, ih]
  | binary op left right ihl ihr =>
    rw [Term.compileEmbedded, Term.eval?, Term.eval?, ihl, ihr]
  | call function operands ih =>
    rw [Term.compileEmbedded, Term.eval?, Term.eval?, Term.compileEmbeddedAll_eq_map,
      Term.evalAll?_map fun t ht => funext (ih t ht)]
  | embedded body operands ihroot ih =>
    have hroot := Body.compile_root (P := fun t => t.eval? = body.root.eval?) rfl (funext ihroot)
    change (Term.evalAll? (Term.compileEmbeddedAll operands) values).bind body.compile.root.eval? =
      (Term.evalAll? operands values).bind body.root.eval?
    rw [hroot, Term.compileEmbeddedAll_eq_map, Term.evalAll?_map fun t ht => funext (ih t ht)]

theorem Term.allFit_map {f : Term → Term} {operands : List Term} {size : Nat}
    (h : ∀ t ∈ operands, (f t).Fits size ↔ t.Fits size) :
    Term.AllFit size (operands.map f) ↔ Term.AllFit size operands := by
  simp only [Term.allFit_iff, List.forall_mem_map]
  exact forall₂_congr h

theorem Term.compileEmbedded_fits (t : Term) (size : Nat) :
    t.compileEmbedded.Fits size ↔ t.Fits size := by
  induction t using Term.bodyInduction with
  | constant => rfl
  | argument => rfl
  | neg operand ih => exact ih
  | binary op left right ihl ihr => exact and_congr ihl ihr
  | call function operands ih =>
    rw [Term.compileEmbedded, Term.Fits, Term.Fits, Term.compileEmbeddedAll_eq_map]
    exact Term.allFit_map ih
  | embedded body operands _ ih =>
    rw [Term.compileEmbedded, Term.Fits, Term.Fits, Term.compileEmbeddedAll_eq_map,
      Body.compile_argumentCount, List.length_map, Term.allFit_map ih]

/-- Every slot is within its bounds, and code that is there computes what the root computes. -/
def Body.WellMade (b : Body Term) : Prop := b.Fits ∧ b.Faithful

theorem Body.WellMade.compile {b : Body Term} (h : b.WellMade)
    (hroot : ∀ c ∈ b.root.compileEmbedded.bodies, c.WellMade) : b.compile.WellMade := by
  by_cases hc : b.code = none
  · rw [Body.compile_of_none hc]
    refine ⟨(Term.compileEmbedded_fits _ _).mpr h.1, ?_⟩
    rintro _ ⟨⟩
    exact Term.lower_code fun c m => (hroot c m).2
  · rwa [Body.compile_of_code hc]

/-- Compiling keeps a property of formulas, if what is embedded in them has it before and after. -/
def Body.CompileKeeps (P : Body Term → Prop) : Prop :=
  ∀ b : Body Term, P b → (∀ c ∈ b.root.bodies, P c) →
    (∀ c ∈ b.root.compileEmbedded.bodies, P c) → P b.compile

theorem Body.WellMade.compileKeeps : Body.CompileKeeps Body.WellMade :=
  fun _ hb _ hcompiled => hb.compile hcompiled

theorem Term.compileEmbedded_forall {P : Body Term → Prop} (keeps : Body.CompileKeeps P) {t : Term}
    (h : ∀ b ∈ t.bodies, P b) : ∀ b ∈ t.compileEmbedded.bodies, P b := by
  induction t using Term.bodyInduction with
  | constant => exact h
  | argument => exact h
  | neg operand ih => exact ih h
  | binary op left right ihl ihr =>
    obtain ⟨hl, hr⟩ := List.forall_mem_append.mp h
    exact List.forall_mem_append.mpr ⟨ihl hl, ihr hr⟩
  | call function operands ih =>
    have hall := Term.forall_bodiesAll.mp h
    rw [Term.compileEmbedded, Term.compileEmbeddedAll_eq_map]
    exact Term.forall_bodiesAll.mpr (List.forall_mem_map.mpr fun t ht => ih t ht (hall t ht))
  | embedded body operands ihroot ih =>
    obtain ⟨hbody, hroot, hall⟩ := Term.forall_bodies_embedded.mp h
    rw [Term.compileEmbedded, Term.compileEmbeddedAll_eq_map, Term.forall_bodies_embedded]
    refine ⟨keeps body hbody hroot (ihroot hroot), ?_,
      List.forall_mem_map.mpr fun t ht => ih t ht (hall t ht)⟩
    exact Body.compile_root (P := fun t => ∀ b ∈ t.bodies, P b) hroot (ihroot hroot)

end CompileEmbedded

end Formulary
