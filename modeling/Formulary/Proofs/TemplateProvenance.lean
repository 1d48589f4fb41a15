import Formulary.Template
import Formulary.Proofs.Provenance

namespace Formulary

section Build

variable {operands : List Term}

mutual

/-- By cases of the template: what it embeds are formulas of the operands, a formula that it parses
without extensions, and what is embedded in these. -/
theorem Template.build_made {template : Template} {b c : Bindings} {t : Term}
    (h : (template.build operands).run b = .ok (t, c)) :
    ∀ d ∈ t.bodies, Body.Made (Term.bodiesAll operands) d := by
  cases template with
  | constant value =>
    obtain ⟨rfl, _⟩ := Prod.mk.inj (Except.ok.inj h)
    simp [Term.bodies]
  | argument name =>
    obtain ⟨slot, _, _, h⟩ := Build.run_bind_eq_ok.mp h
    obtain ⟨rfl, _⟩ := Prod.mk.inj (Except.ok.inj h)
    simp [Term.bodies]
  | slot name slot =>
    obtain ⟨rfl, _⟩ := Prod.mk.inj (Except.ok.inj h)
    simp [Term.bodies]
  | operand index otherwise =>
    rw [Template.build] at h
    cases hterm : operands[index]? with
    | none =>
      rw [hterm] at h
      exact Template.build_made h
    | some term =>
      rw [hterm] at h
      obtain ⟨rfl, _⟩ := Prod.mk.inj (Except.ok.inj h)
      intro d hd
      exact .given (Term.mem_bodiesAll.mpr ⟨_, List.mem_of_getElem? hterm, hd⟩)
  | operandCount =>
    obtain ⟨rfl, _⟩ := Prod.mk.inj (Except.ok.inj h)
    simp [Term.bodies]
  | bindingCount =>
    obtain ⟨bindings, _, _, h⟩ := Build.run_bind_eq_ok.mp h
    obtain ⟨rfl, _⟩ := Prod.mk.inj (Except.ok.inj h)
    simp [Term.bodies]
  | neg operand =>
    obtain ⟨x, _, hx, h⟩ := Build.run_bind_eq_ok.mp h
    obtain ⟨rfl, _⟩ := Prod.mk.inj (Except.ok.inj h)
    have hoperand : ∀ d ∈ x.bodies, Body.Made _ d := Template.build_made hx
    exact hoperand
  | binary op left right =>
    obtain ⟨x, _, hx, h⟩ := Build.run_bind_eq_ok.mp h
    obtain ⟨y, _, hy, h⟩ := Build.run_bind_eq_ok.mp h
    obtain ⟨rfl, _⟩ := Prod.mk.inj (Except.ok.inj h)
    exact List.forall_mem_append.mpr ⟨Template.build_made hx, Template.build_made hy⟩
  | call function chosen =>
    obtain ⟨terms, _, hterms, h⟩ := Build.run_bind_eq_ok.mp h
    obtain ⟨rfl, _⟩ := Prod.mk.inj (Except.ok.inj h)
    exact Operands.build_made hterms
  | embed source chosen =>
    obtain ⟨f, _, hf, h⟩ := Build.run_bind_eq_ok.mp h
    obtain ⟨hparsed, _⟩ := Build.run_ofExcept_eq_ok.mp hf
    obtain ⟨terms, _, hterms, h⟩ := Build.run_bind_eq_ok.mp h
    obtain ⟨rfl, _⟩ := Prod.mk.inj (Except.ok.inj h)
    have hreachable := Formula.Reachable.of_parse Registry.honest_empty hparsed
    have made : Body.Made (Term.bodiesAll operands) f.toBody :=
      hreachable.mono (List.nil_subset _)
    have hall := Term.forall_bodiesAll.mp (Operands.build_made hterms)
    exact Term.forall_bodies_embedded.mpr ⟨made, fun e he => made.inner he, hall⟩
  | fail name => exact absurd h Build.run_fail_ne_ok

theorem Operands.build_made {chosen : Operands} {b c : Bindings} {terms : List Term}
    (h : (chosen.build operands).run b = .ok (terms, c)) :
    ∀ d ∈ Term.bodiesAll terms, Body.Made (Term.bodiesAll operands) d := by
  cases chosen with
  | all =>
    obtain ⟨rfl, _⟩ := Prod.mk.inj (Except.ok.inj h)
    exact fun d hd => .given hd
  | none =>
    obtain ⟨rfl, _⟩ := Prod.mk.inj (Except.ok.inj h)
    simp [Term.bodiesAll]
  | cons first rest =>
    obtain ⟨x, _, hx, h⟩ := Build.run_bind_eq_ok.mp h
    obtain ⟨xs, _, hxs, h⟩ := Build.run_bind_eq_ok.mp h
    obtain ⟨rfl, _⟩ := Prod.mk.inj (Except.ok.inj h)
    exact List.forall_mem_append.mpr ⟨Template.build_made hx, Operands.build_made hxs⟩

end

end Build

theorem Registry.Honest.addTemplate {registry : Registry} (honest : registry.Honest)
    (name : String) (template : Template) : (registry.add name template.provider).Honest :=
  honest.add fun _ _ _ _ h => Template.build_made h

/-- Templates are providers like any others: what holds of the formulas that are made with honest
extensions also holds of those that are parsed with templates besides these. -/
theorem Formula.Reachable.of_templates {registry : Registry} (honest : registry.Honest)
    (entries : List (String × Template)) {source : String} {f : Formula}
    (h : Formula.parse (entries.foldl (fun r entry => r.add entry.1 entry.2.provider) registry)
      source = .ok f) : f.Reachable := by
  induction entries generalizing registry with
  | nil => exact .of_parse honest h
  | cons entry rest ih => exact ih (honest.addTemplate entry.1 entry.2) h

end Formulary
