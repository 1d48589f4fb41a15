import Formulary.Proofs.Definition
import Formulary.Proofs.ReachableFormula

namespace Formulary

def Body.isCompiled (b : Body Term) : Bool := b.code.isSome

/-- All formulas embedded in a term, at any depth, are compiled. -/
def Term.AllCompiled (t : Term) : Prop := ∀ b ∈ t.bodies, b.isCompiled = true

/-- A compiled formula embeds compiled formulas only. -/
def Body.Settled (b : Body Term) : Prop := b.isCompiled = true → b.root.AllCompiled

section Compile

variable {t u : Term} {b : Body Term}

theorem Body.compile_isCompiled (b : Body Term) : b.compile.isCompiled = true := by
  by_cases h : b.code = none
  · rw [Body.compile_of_none h]
    rfl
  · rw [Body.compile_of_code h]
    exact Option.isSome_iff_ne_none.mpr h

theorem Body.compile_of_isCompiled (h : b.isCompiled = true) : b.compile = b :=
  Body.compile_of_code (Option.isSome_iff_ne_none.mp h)

theorem Body.compile_compile (b : Body Term) : b.compile.compile = b.compile :=
  Body.compile_of_isCompiled b.compile_isCompiled

/-- By induction on the term: an embedded formula without code gets its own after those in its root,
and one that has code is left alone, but there is nothing left to compile in it. -/
theorem Term.compileEmbedded_allCompiled (h : ∀ b ∈ t.bodies, b.Settled) :
    t.compileEmbedded.AllCompiled := by
  induction t using Term.bodyInduction with
  | constant => simp [Term.AllCompiled, Term.compileEmbedded, Term.bodies]
  | argument => simp [Term.AllCompiled, Term.compileEmbedded, Term.bodies]
  | neg operand ih => exact ih h
  | binary op left right ihl ihr =>
    obtain ⟨hl, hr⟩ := List.forall_mem_append.mp h
    exact List.forall_mem_append.mpr ⟨ihl hl, ihr hr⟩
  | call function operands ih =>
    have hall := Term.forall_bodiesAll.mp h
    rw [Term.compileEmbedded, Term.compileEmbeddedAll_eq_map]
    exact Term.forall_bodiesAll.mpr (List.forall_mem_map.mpr fun t ht => ih t ht (hall t ht))
  | embedded body operands ihroot ih =>
    obtain ⟨hbody, hroot, hall⟩ := Term.forall_bodies_embedded.mp h
    rw [Term.compileEmbedded, Term.compileEmbeddedAll_eq_map]
    refine Term.forall_bodies_embedded.mpr ⟨body.compile_isCompiled, ?_,
      List.forall_mem_map.mpr fun t ht => ih t ht (hall t ht)⟩
    by_cases hc : body.code = none
    · rw [Body.compile_of_none hc]
      exact ihroot hroot
    · rw [Body.compile_of_code hc]
      exact hbody (Option.isSome_iff_ne_none.mpr hc)

/-- Where everything is compiled, nothing is left to do. -/
theorem Term.AllCompiled.compileEmbedded (h : t.AllCompiled) : t.compileEmbedded = t := by
  unfold Term.AllCompiled at h
  have all : ∀ {operands : List Term}, (∀ t ∈ operands, t.compileEmbedded = t) →
      Term.compileEmbeddedAll operands = operands := by
    intro operands h
    rw [Term.compileEmbeddedAll_eq_map]
    exact (List.map_congr_left h).trans (List.map_id _)
  induction t using Term.bodyInduction with
  | constant => rfl
  | argument => rfl
  | neg operand ih => rw [Term.compileEmbedded, ih h]
  | binary op left right ihl ihr =>
    obtain ⟨hl, hr⟩ := List.forall_mem_append.mp h
    rw [Term.compileEmbedded, ihl hl, ihr hr]
  | call function operands ih =>
    have hall := Term.forall_bodiesAll.mp h
    rw [Term.compileEmbedded, all fun t ht => ih t ht (hall t ht)]
  | embedded body operands _ ih =>
    obtain ⟨hbody, _, hall⟩ := Term.forall_bodies_embedded.mp h
    rw [Term.compileEmbedded, Body.compile_of_isCompiled hbody,
      all fun t ht => ih t ht (hall t ht)]

theorem Term.compileEmbedded_compileEmbedded (h : ∀ b ∈ t.bodies, b.Settled) :
    t.compileEmbedded.compileEmbedded = t.compileEmbedded :=
  (Term.compileEmbedded_allCompiled h).compileEmbedded

theorem Term.Advances.allCompiled (h : t.Advances u) (ht : t.AllCompiled) : u.AllCompiled :=
  h.forall_bodies (P := fun b => b.isCompiled = true) (fun b _ _ _ => b.compile_isCompiled)
    (fun _ _ hb _ _ => hb) ht

/-- Compiled code is memoised with all that it was made of, and whatever is done to formulas keeps
it so: parsing makes a formula without code, and code comes and goes in no other way. -/
theorem Body.Settled.lasting : Body.Lasting Body.Settled where
  parsed hf _ := by
    obtain ⟨_, root, arguments, _, rfl⟩ := Formula.parse_eq_ok.mp hf
    exact fun hc => nomatch hc
  assigned ha hb := by
    obtain ⟨arguments, _, rfl⟩ := Formula.assign_eq_ok ha
    exact hb
  compiled b hb hroot _ := by
    by_cases hc : b.code = none
    · rw [Body.compile_of_none hc]
      exact fun _ => Term.compileEmbedded_allCompiled hroot
    · rwa [Body.compile_of_code hc]
  advanced _ _ hb _ ha := fun hc => ha.allCompiled (hb hc)

end Compile

theorem Formula.Reachable.settled {f : Formula} (h : f.Reachable) :
    f.toBody.Settled ∧ ∀ b ∈ f.root.bodies, b.Settled :=
  Body.Settled.lasting.made h (by simp)

theorem Formula.value_congr {f g : Formula} (ha : g.arguments = f.arguments)
    (hr : g.root.eval? = f.root.eval?) : g.value = f.value := by
  rw [Formula.value, Formula.value, ha, hr]

theorem Body.compile_eval? (b : Body Term) : b.compile.root.eval? = b.root.eval? :=
  Body.compile_root (P := fun t => t.eval? = b.root.eval?) rfl b.root.compileEmbedded_eval?

/-- Compilation is remembered in depth. A compiled formula embeds compiled formulas only, at any
depth, and so does every formula embedded in one. To compile a formula makes that so, and to lower
its root makes it so of all that is embedded and leaves the formula itself as it was. Both change
nothing but code, so values stay, and the second time they change nothing at all. -/
theorem Formula.Reachable.memoised_in_depth {f : Formula} (h : f.Reachable) :
    (∀ b ∈ f.toBody :: f.root.bodies, b.isCompiled = true → b.root.AllCompiled) ∧
    (f.compile.isCompiled = true ∧ f.compile.root.AllCompiled) ∧
    (f.lower.2.code = f.code ∧ f.lower.2.root.AllCompiled) ∧
    (∀ g ∈ [f.compile, f.lower.2], g.uncompiled = f.uncompiled ∧ g.registry = f.registry ∧
      g.value = f.value ∧ g.root.eval? = f.root.eval?) ∧
    f.compile.compile = f.compile ∧ f.lower.2.lower.2 = f.lower.2 := by
  obtain ⟨hf, hinner⟩ := h.settled
  have hcompiled := f.toBody.compile_isCompiled
  have hdeep : f.compile.root.AllCompiled := h.compile.settled.1 hcompiled
  have hvalues : ∀ g : Formula, g.arguments = f.arguments → g.root.eval? = f.root.eval? →
      g.value = f.value ∧ g.root.eval? = f.root.eval? :=
    fun g ha hr => ⟨Formula.value_congr ha hr, hr⟩
  refine ⟨List.forall_mem_cons.mpr ⟨hf, hinner⟩, ⟨hcompiled, hdeep⟩,
    ⟨rfl, Term.compileEmbedded_allCompiled hinner⟩, ?_, ?_, ?_⟩
  · refine List.forall_mem_cons.mpr ⟨⟨f.toBody.compile_recast, rfl, ?_⟩,
      List.forall_mem_singleton.mpr ⟨?_, rfl, ?_⟩⟩
    · exact hvalues f.compile f.toBody.compile_arguments f.toBody.compile_eval?
    · have hroot : f.root.compileEmbedded.recast id = f.root.recast id :=
        f.root.recast_compileEmbedded
      exact congrArg (fun root => { f.toBody with root, code := none }) hroot
    · exact hvalues f.lower.2 rfl f.root.compileEmbedded_eval?
  · exact congrArg (fun b : Body Term => ({ f with toBody := b } : Formula))
      f.toBody.compile_compile
  · exact congrArg (fun t : Term => ({ f with root := t } : Formula))
      (Term.compileEmbedded_compileEmbedded hinner)

/-- The formula "-a", parsed without extensions. -/
def opposite : Formula :=
  ⟨⟨"-a", .neg (.argument "a" 0), ⟨[("a", 0)]⟩, 1, none⟩, {}⟩

theorem parse_opposite : Formula.parse {} "-a" = .ok opposite := by with_unfolding_all rfl

/-- Registers that formula compiled. -/
def opposites : Registry := ({} : Registry).addFormula "neg" opposite.compile.toBody

/-- The formula "b*neg(b)", parsed with it. -/
def squared : Formula :=
  ⟨⟨"b*neg(b)", .binary .mul (.argument "b" 0)
    (.embedded opposite.compile.toBody [.argument "b" 0]), ⟨[("b", 0)]⟩, 1, none⟩, opposites⟩

theorem parse_squared : Formula.parse opposites "b*neg(b)" = .ok squared := by
  with_unfolding_all rfl

/-- The formula "sq(neg(c))", parsed with both, of which the second has no code yet. -/
def partlyCompiled : Formula :=
  ⟨⟨"sq(neg(c))", .embedded squared.toBody [.embedded opposite.compile.toBody [.argument "c" 0]],
    ⟨[("c", 0)]⟩, 1, none⟩, opposites.addFormula "sq" squared.toBody⟩

theorem parse_partlyCompiled :
    Formula.parse (opposites.addFormula "sq" squared.toBody) "sq(neg(c))" = .ok partlyCompiled := by
  with_unfolding_all rfl

theorem reachable_partlyCompiled : partlyCompiled.Reachable := by
  have opposite := (Formula.Reachable.of_parse Registry.honest_empty parse_opposite).compile
  have honest : opposites.Honest := Registry.honest_empty.addFormula opposite
  have squared := Formula.Reachable.of_parse honest parse_squared
  exact .of_parse (honest.addFormula squared) parse_partlyCompiled

theorem partlyCompiled_memoised_in_depth : partlyCompiled.Reachable ∧
    partlyCompiled.root.bodies.map Body.isCompiled = [false, true, true] ∧
    partlyCompiled.compile.root.AllCompiled ∧
    partlyCompiled.compile.compile = partlyCompiled.compile ∧
    partlyCompiled.lower.2.lower.2 = partlyCompiled.lower.2 := by
  obtain ⟨_, ⟨_, compiled⟩, _, _, again⟩ := reachable_partlyCompiled.memoised_in_depth
  exact ⟨reachable_partlyCompiled, rfl, compiled, again⟩

end Formulary
