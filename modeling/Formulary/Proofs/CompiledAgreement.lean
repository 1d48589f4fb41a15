import Formulary.Proofs.ReachableFormula

namespace Formulary

/-- The names and the values of a formula's bindings are as many as its arguments, its slots are
among them, and a formula embedded in it gets as many operands as it has arguments. -/
def Body.InBounds (b : Body Term) : Prop :=
  b.arguments.names.length = b.argumentCount ∧ b.arguments.values.length = b.argumentCount ∧
    b.root.Fits b.argumentCount

theorem Body.Counted.length_values {b : Body Term} (h : b.Counted) :
    b.arguments.values.length = b.argumentCount := by
  have hvalues : b.arguments.values.length = b.arguments.size := List.length_map _
  exact hvalues.trans h.symm

theorem Body.Fits.inBounds {b : Body Term} (h : b.Fits) (hcount : b.Counted) : b.InBounds := by
  have hnames : b.arguments.names.length = b.arguments.size := List.length_map _
  exact ⟨hnames.trans hcount.symm, hcount.length_values, h⟩

theorem Body.Sound.eval?_eq_some {b : Body Term} (h : b.Sound) {values : List Float}
    (hv : values.length = b.argumentCount) : ∃ v, b.root.eval? values = some v :=
  h.1.1.eval?_eq_some (fun c hc => (h.2 c hc).1) hv

theorem Body.Sound.lower_eval? {b : Body Term} (h : b.Sound) :
    b.root.lower.code = b.root.eval? :=
  Term.lower_code fun c hc => (h.2 c hc).2

/-- Whatever terms the extensions make, no slot of a parsed formula or of one embedded in it lies
beyond its arguments, so both the tree and lowered code find all the values they look for. -/
theorem Formula.parse_slots_in_bounds {registry : Registry} {source : String} {f : Formula}
    (honest : registry.Honest) (h : Formula.parse registry source = .ok f) :
    ∀ b ∈ f.toBody :: f.root.bodies, b.InBounds ∧
      ∀ values : List Float, values.length = b.argumentCount →
        ∃ v, b.root.eval? values = some v ∧ b.root.lower.code values = some v := by
  intro b hb
  have hreachable := Formula.Reachable.of_parse honest h
  have hsound : b.Sound := by
    rcases List.mem_cons.mp hb with rfl | hb
    · exact hreachable.sound
    · exact hreachable.sound.inner hb
  have hcounted : b.Counted := by
    obtain ⟨hown, hinner⟩ := hreachable.counted
    exact List.forall_mem_cons.mpr ⟨hown, hinner⟩ b hb
  refine ⟨hsound.1.1.inBounds hcounted, fun values hv => ?_⟩
  obtain ⟨v, he⟩ := hsound.eval?_eq_some hv
  exact ⟨v, he, by rw [hsound.lower_eval?, he]⟩

/-- The formula "x/y", parsed without extensions. -/
def quotient : Formula :=
  ⟨⟨"x/y", .binary .div (.argument "x" 0) (.argument "y" 1), ⟨[("x", 0), ("y", 0)]⟩, 2, none⟩, {}⟩

theorem parse_quotient : Formula.parse {} "x/y" = .ok quotient := by with_unfolding_all rfl

/-- Registers a name of its own, drops all operands but the first, and embeds a formula that was
compiled before. -/
def rateProvider : Provider := fun operands => do
  let slot ← Build.slot "rate"
  return .embedded quotient.compile.toBody (.argument "rate" slot :: operands.take 1)

def rates : Registry := ({} : Registry).add "rate" rateProvider

theorem honest_rates : rates.Honest := by
  refine Registry.honest_empty.add fun operands before term after h => ?_
  obtain ⟨slot, _, _, h⟩ := Build.run_bind_eq_ok.mp h
  obtain ⟨rfl, _⟩ := Prod.mk.inj (Except.ok.inj h)
  have made : Body.Made (Term.bodiesAll operands) quotient.compile.toBody :=
    ((Formula.Reachable.of_parse Registry.honest_empty parse_quotient).compile).mono (by simp)
  refine Term.forall_bodies_embedded.mpr ⟨made, fun c hc => made.inner hc,
    List.forall_mem_cons.mpr ⟨by simp [Term.bodies], fun t ht c hc => ?_⟩⟩
  exact .given (Term.mem_bodiesAll.mpr ⟨t, List.mem_of_mem_take ht, hc⟩)

/-- The formula "a+rate(b,c)", parsed with these. -/
def rated : Formula :=
  ⟨⟨"a+rate(b,c)", .binary .add (.argument "a" 0)
    (.embedded quotient.compile.toBody [.argument "rate" 3, .argument "b" 1]),
    ⟨[("a", 0), ("b", 0), ("c", 0), ("rate", 0)]⟩, 4, none⟩, rates⟩

theorem parse_rated : Formula.parse rates "a+rate(b,c)" = .ok rated := by with_unfolding_all rfl

theorem rated_slots_in_bounds : Formula.parse rates "a+rate(b,c)" = .ok rated ∧
    ∀ b ∈ rated.toBody :: rated.root.bodies, b.InBounds ∧
      ∀ values : List Float, values.length = b.argumentCount →
        ∃ v, b.root.eval? values = some v ∧ b.root.lower.code values = some v :=
  ⟨parse_rated, Formula.parse_slots_in_bounds honest_rates parse_rated⟩

/-- Code and tree agree: a reachable formula that has code answers a call with the value of its
tree, on as many values as it has arguments, and its stored arguments give the same value both
ways. Any other number of values is refused, and without code every call is. -/
theorem Formula.Reachable.code_agrees {f : Formula} (h : f.Reachable) :
    (f.isCompiled = true →
      (∀ values : List Float, values.length = f.argumentCount →
        ∃ v, f.root.eval? values = some v ∧ f.apply values = .ok v) ∧
      (f.root.eval? f.arguments.values = some f.value ∧ f.compiledValue = .ok f.value) ∧
      ∀ values : List Float, values.length ≠ f.argumentCount →
        f.apply values = .error (.argumentCount f.argumentCount values.length)) ∧
    (f.isCompiled = false → f.compiledValue = .error .notCompiled ∧
      ∀ values : List Float, f.apply values = .error .notCompiled) := by
  have hsound := h.sound
  constructor
  · intro hc
    obtain ⟨code, hcode⟩ := Option.isSome_iff_exists.mp hc
    obtain rfl : code = f.root.eval? := hsound.1.2 code hcode
    refine ⟨fun values hv => ?_, ?_, fun values hv => ?_⟩
    · obtain ⟨v, he⟩ := hsound.eval?_eq_some hv
      exact ⟨v, he, by simp [Formula.apply, hcode, hv, he]⟩
    · have hlen : f.arguments.values.length = f.argumentCount := h.counted.1.length_values
      obtain ⟨v, he⟩ := hsound.eval?_eq_some hlen
      have hvalue : f.value = v := by rw [Formula.value, he]; rfl
      rw [hvalue]
      exact ⟨he, by simp [Formula.compiledValue, hcode, he]⟩
    · simp [Formula.apply, hcode, hv]
  · intro hc
    have hcode : f.code = none := Option.not_isSome_iff_eq_none.mp (by simpa [isCompiled] using hc)
    exact ⟨by simp [Formula.compiledValue, hcode], fun values => by simp [Formula.apply, hcode]⟩

theorem rated_code_agrees : rated.compile.Reachable ∧ rated.compile.isCompiled = true ∧
    ∃ v, rated.compile.root.eval? [1, 2, 3, 4] = some v ∧
      rated.compile.apply [1, 2, 3, 4] = .ok v := by
  have reachable := (Formula.Reachable.of_parse honest_rates parse_rated).compile
  exact ⟨reachable, rfl, (reachable.code_agrees.1 rfl).1 [1, 2, 3, 4] rfl⟩

end Formulary
