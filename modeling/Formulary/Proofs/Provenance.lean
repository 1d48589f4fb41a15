import Formulary.Formula
import Formulary.Proofs.Extensions
import Formulary.Proofs.LoweredCode

namespace Formulary

theorem Formula.parse_eq_ok {registry : Registry} {source : String} {f : Formula} :
    Formula.parse registry source = .ok f ↔
      (Fragment.ofString source).requireBalance = .ok () ∧
        ∃ root arguments,
          ((Fragment.ofString source).outline.resolve registry).run {} = .ok (root, arguments) ∧
          f = ⟨⟨source, root, arguments, arguments.size, none⟩, registry⟩ := by
  cases hb : (Fragment.ofString source).requireBalance with
  | error error => simp [Formula.parse, bind, Except.bind, hb]
  | ok value =>
    cases hr : ((Fragment.ofString source).outline.resolve registry).run {} with
    | error error => simp [Formula.parse, bind, Except.bind, hb, hr]
    | ok made =>
      obtain ⟨root, arguments⟩ := made
      simp only [Formula.parse, bind, Except.bind, pure, Except.pure, hb, hr, Except.ok.injEq,
        Prod.mk.injEq, true_and]
      constructor
      · rintro rfl
        exact ⟨root, arguments, ⟨rfl, rfl⟩, rfl⟩
      · rintro ⟨_, _, ⟨rfl, rfl⟩, rfl⟩
        rfl

/-- One step of work inside a term: a part of it is lowered, or a formula embedded somewhere in it
is compiled. -/
inductive Term.Advances : Term → Term → Prop
  | lower (t : Term) : Advances t t.compileEmbedded
  | compile (body : Body Term) (operands : List Term) :
    Advances (.embedded body operands) (.embedded body.compile operands)
  | neg {t u : Term} : Advances t u → Advances (.neg t) (.neg u)
  | left {op : Operator} {t u right : Term} :
    Advances t u → Advances (.binary op t right) (.binary op u right)
  | right {op : Operator} {left t u : Term} :
    Advances t u → Advances (.binary op left t) (.binary op left u)
  | call {function : Primitive} {before after : List Term} {t u : Term} : Advances t u →
    Advances (.call function (before ++ t :: after)) (.call function (before ++ u :: after))
  | operand {body : Body Term} {before after : List Term} {t u : Term} : Advances t u →
    Advances (.embedded body (before ++ t :: after)) (.embedded body (before ++ u :: after))
  | root {body : Body Term} {operands : List Term} {u : Term} : Advances body.root u →
    Advances (.embedded body operands) (.embedded { body with root := u } operands)

/-- The formulas that can be made from those in `given`: parsed with extensions that embed no
other formulas, taken out of one that embeds them, given a value for an argument, compiled, or
lowered in some part. A copy of a formula is the formula itself. -/
inductive Body.Made : List (Body Term) → Body Term → Prop
  | given {given : List (Body Term)} {b : Body Term} : b ∈ given → Made given b
  | parsed {given : List (Body Term)} {registry : Registry} {source : String} {f : Formula} :
    (∀ word provider, registry.find? word = some provider → ∀ operands before term after,
      (provider operands).run before = .ok (term, after) →
        ∀ b ∈ term.bodies, Made (given ++ Term.bodiesAll operands) b) →
    Formula.parse registry source = .ok f → Made given f.toBody
  | inner {given : List (Body Term)} {b c : Body Term} :
    Made given b → c ∈ b.root.bodies → Made given c
  | assigned {given : List (Body Term)} {f g : Formula} {name : String} {value : Float} :
    Made given f.toBody → f.assign name value = .ok g → Made given g.toBody
  | compiled {given : List (Body Term)} {b : Body Term} : Made given b → Made given b.compile
  | lowered {given : List (Body Term)} {b : Body Term} {u : Term} :
    Made given b → b.root.Advances u → Made given { b with root := u }

/-- Extensions whose terms embed nothing but their operands' formulas and formulas made without
any given ones, and what can be made from these. -/
def Registry.Honest (registry : Registry) : Prop :=
  ∀ word provider, registry.find? word = some provider → ∀ operands before term after,
    (provider operands).run before = .ok (term, after) →
      ∀ b ∈ term.bodies, Body.Made (Term.bodiesAll operands) b

/-- A formula that some history of parsing, copying, assigning, lowering and compiling makes. -/
def Formula.Reachable (f : Formula) : Prop := Body.Made [] f.toBody

theorem Formula.Reachable.of_parse {registry : Registry} {source : String} {f : Formula}
    (honest : registry.Honest) (h : Formula.parse registry source = .ok f) : f.Reachable :=
  .parsed honest h

theorem Formula.Reachable.assign {f g : Formula} {name : String} {value : Float}
    (hf : f.Reachable) (h : f.assign name value = .ok g) : g.Reachable :=
  .assigned hf h

theorem Formula.Reachable.compile {f : Formula} (hf : f.Reachable) : f.compile.Reachable :=
  .compiled hf

theorem Formula.Reachable.lower {f : Formula} (hf : f.Reachable) : f.lower.2.Reachable :=
  .lowered hf (.lower f.root)

theorem Registry.honest_empty : ({} : Registry).Honest := by
  intro word provider h
  simp [Registry.find?] at h

theorem Registry.Honest.add {registry : Registry} {name : String} {provider : Provider}
    (honest : registry.Honest)
    (hp : ∀ operands before term after, (provider operands).run before = .ok (term, after) →
      ∀ b ∈ term.bodies, Body.Made (Term.bodiesAll operands) b) :
    (registry.add name provider).Honest := by
  intro word found h
  rw [Registry.find?_add] at h
  split at h
  · obtain rfl := Option.some.inj h
    exact hp
  · exact honest word found h

theorem Registry.Honest.addFunction {registry : Registry} {name : String} {arity : Arity}
    {apply : List Float → Float} (honest : registry.Honest) :
    (registry.addFunction name arity apply).Honest := by
  refine honest.add fun operands before term after h b hb => ?_
  obtain ⟨_, _, _, h⟩ := Build.run_bind_eq_ok.mp h
  obtain ⟨rfl, _⟩ := Prod.mk.inj (Except.ok.inj h)
  exact .given hb

theorem Body.Made.mono {given more : List (Body Term)} {b : Body Term} (h : Body.Made given b)
    (sub : given ⊆ more) : Body.Made more b := by
  induction h generalizing more with
  | given m => exact .given (sub m)
  | parsed _ hf ih =>
    exact .parsed (fun word provider hw operands before term after hr b hb =>
      ih word provider hw operands before term after hr b hb
        (List.append_subset.mpr ⟨List.subset_append_of_subset_left _ sub,
          List.subset_append_right _ _⟩)) hf
  | inner _ m ih => exact .inner (ih sub) m
  | assigned _ ha ih => exact .assigned (ih sub) ha
  | compiled _ ih => exact .compiled (ih sub)
  | lowered _ ha ih => exact .lowered (ih sub) ha

theorem Registry.Honest.addFormula {registry : Registry} {name : String} {f : Formula}
    (honest : registry.Honest) (hf : f.Reachable) :
    (registry.addFormula name f.toBody).Honest := by
  refine honest.add fun operands before term after h b hb => ?_
  obtain ⟨_, _, _, h⟩ := Build.run_bind_eq_ok.mp h
  obtain ⟨rfl, _⟩ := Prod.mk.inj (Except.ok.inj h)
  have made : Body.Made (Term.bodiesAll operands) f.toBody := Body.Made.mono hf (by simp)
  rw [Term.bodies_embedded] at hb
  rcases List.mem_cons.mp hb with rfl | hb
  · exact made
  rcases List.mem_append.mp hb with hb | hb
  · exact made.inner hb
  · exact .given hb

theorem Registry.honest_math : Registry.math.Honest := by
  have unary : ∀ (functions : List (String × (Float → Float))) (registry : Registry),
      registry.Honest → (functions.foldl (fun r entry =>
        r.addFunction entry.1 (.exactly 1) (applyUnary entry.2)) registry).Honest := by
    intro functions
    induction functions with
    | nil => exact fun _ h => h
    | cons entry rest ih => exact fun registry h => ih _ h.addFunction
  exact (unary _ _ Registry.honest_empty).addFunction.addFunction

end Formulary
