import Formulary.Proofs.Definition

namespace Formulary

section Recast

variable {keep : Bindings → Bindings}

/-- The check of a provider's term does not look at what is recast. -/
theorem Term.recast_check (call : String) (place : Fragment) (size : Nat) (t : Term) :
    (t.recast keep).check call place size = t.check call place size := by
  have all : ∀ {operands : List Term},
      (∀ t ∈ operands, (t.recast keep).check call place size = t.check call place size) →
      Term.checkAll call place size (Term.recastAll keep operands) =
        Term.checkAll call place size operands := by
    intro operands h
    induction operands with
    | nil => rfl
    | cons t rest ih =>
      rw [Term.recastAll, Term.checkAll, Term.checkAll, h t (by simp),
        ih fun u hu => h u (List.mem_cons_of_mem _ hu)]
  induction t using Term.bodyInduction with
  | constant => rfl
  | argument => rfl
  | neg operand ih => exact ih
  | binary op left right ihl ihr => rw [Term.recast, Term.check, Term.check, ihl, ihr]
  | call function operands ih => exact all ih
  | embedded body operands _ ih =>
    rw [Term.recast_embedded, Term.check, Term.check, all ih, Term.length_recastAll, Body.recast]

def Extension.recast (keep : Bindings → Bindings) : Extension → Extension
  | .function arity apply => .function arity apply
  | .formula body => .formula (body.recast keep)

theorem Extension.recast_arity (e : Extension) : (e.recast keep).arity = e.arity := by
  cases e <;> rfl

theorem Extension.recast_term (name : String) (operands : List Term) (e : Extension) :
    (e.recast keep).term name (Term.recastAll keep operands) =
      (e.term name operands).recast keep := by
  cases e <;> rfl

theorem Extension.recast_provider (name : String) (operands : List Term) (e : Extension) :
    (e.recast keep).provider name (Term.recastAll keep operands) =
      Term.recast keep <$> e.provider name operands := by
  simp only [Extension.provider, map_bind, map_pure, Extension.recast_arity,
    Extension.recast_term, Term.length_recastAll]

def recastEntries (keep : Bindings → Bindings) (entries : List (String × Extension)) :
    List (String × Extension) :=
  entries.map fun entry => (entry.1, entry.2.recast keep)

theorem latest?_recastEntries (entries : List (String × Extension)) (name : String) :
    latest? (recastEntries keep entries) name =
      (latest? entries name).map (Extension.recast keep) := by
  rw [latest?, latest?, recastEntries, ← List.map_reverse, List.find?_map, Option.map_map,
    Option.map_map]
  rfl

mutual

/-- Recasting the formulas of a registry recasts the terms that are made with it, and has no other
effect on how they are made. -/
theorem Outline.resolve_recast (entries : List (String × Extension)) (o : Outline) :
    o.resolve (.ofExtensions (recastEntries keep entries)) =
      Term.recast keep <$> o.resolve (.ofExtensions entries) := by
  cases o with
  | fault cause place => rfl
  | number value => rfl
  | name place => rfl
  | minus operand =>
    simp only [Outline.resolve, Outline.resolve_recast entries operand, map_bind, bind_map_left,
      map_pure, Term.recast_negate]
  | binary op left right =>
    simp only [Outline.resolve, Outline.resolve_recast entries left,
      Outline.resolve_recast entries right, map_bind, bind_map_left, map_pure, Term.recast]
  | call word place arguments =>
    rw [Outline.resolve, Outline.resolve, Registry.find?_ofExtensions, Registry.find?_ofExtensions,
      latest?_recastEntries]
    cases latest? entries word with
    | none => rfl
    | some e =>
      simp only [Option.map_some, Outline.resolveAll_recast entries arguments, map_bind,
        bind_map_left, map_pure, Extension.recast_provider, Term.recast_check]

theorem Outline.resolveAll_recast (entries : List (String × Extension)) (outlines : List Outline) :
    Outline.resolveAll (.ofExtensions (recastEntries keep entries)) outlines =
      Term.recastAll keep <$> Outline.resolveAll (.ofExtensions entries) outlines := by
  cases outlines with
  | nil => rfl
  | cons o rest =>
    simp only [Outline.resolveAll, Outline.resolve_recast entries o,
      Outline.resolveAll_recast entries rest, map_bind, bind_map_left, map_pure, Term.recastAll]

end

/-- A formula that is parsed with recast extensions is the recast formula, and the text is refused
for the same reason or not at all. -/
theorem Formula.parse_recast (entries : List (String × Extension)) (source : String) :
    (Formula.parse (.ofExtensions (recastEntries keep entries)) source).map Formula.toBody =
      (Formula.parse (.ofExtensions entries) source).map fun f =>
        { f.toBody with root := f.root.recast keep } := by
  cases hb : (Fragment.ofString source).requireBalance with
  | error error => simp [Formula.parse, bind, Except.bind, Except.map, hb]
  | ok value =>
    simp only [Formula.parse, bind, Except.bind, hb, Outline.resolve_recast, Build.run_map]
    cases ((Fragment.ofString source).outline.resolve (.ofExtensions entries)).run {} <;> rfl

end Recast

end Formulary
