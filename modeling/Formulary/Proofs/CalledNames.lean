import Formulary.Proofs.BalanceDepth
import Formulary.Proofs.Extensions
import Formulary.Proofs.Provenance

namespace Formulary

/-- A text calls a name that stands in it directly before a parenthesis, but for spaces. The name
is not the end of a longer word. -/
def CallsName (text : List Char) (name : String) : Prop :=
  ∃ before spaces later, text = before ++ (name.toList ++ spaces ++ '(' :: later) ∧
    isName name.toList = true ∧ (∀ c ∈ spaces, isSpace c = true) ∧
    ∀ c, before.getLast? = some c → isWord c = false

section Fragment

variable {f g place : Fragment} {name : String} {arguments : List Fragment}

/-- What stands left of an operand is no part of a word. -/
theorem CallsName.mono (h : CallsName g.text name) (hg : g.BeginsIn f) :
    CallsName f.text name := by
  obtain ⟨before, spaces, later, ht, hname, hspaces, hbefore⟩ := h
  obtain ⟨u, v, hf, _, hu⟩ := hg
  refine ⟨u ++ before, spaces, later ++ v, by simp [hf, ht], hname, hspaces, fun c hc => ?_⟩
  rw [List.getLast?_append] at hc
  rcases Option.or_eq_some_iff.mp hc with hc | ⟨_, hc⟩
  · exact hbefore c hc
  · rw [← List.head?_reverse] at hc
    exact hu.isWord_head hc

theorem CallText.callsName {text inside : List Char} (h : CallText name text inside) :
    CallsName text name := by
  obtain ⟨word, spaces, hname, rfl, hspaces, ht⟩ := h
  exact ⟨[], spaces, inside ++ [')'], by simp [ht], by simpa using hname, hspaces, by simp⟩

/-- The place of a call is what is left of the fragment without what is around the call. -/
theorem Fragment.shape_eq_call (h : f.shape = .call name place arguments) :
    place = f.strip ∧ ∃ inside : Fragment, CallText name place.text inside.text ∧
      Balanced inside.text ∧ arguments = inside.arguments := by
  unfold Fragment.shape Fragment.operandShape at h
  simp only at h
  repeat' split at h
  all_goals cases h
  next inside hcall hname =>
    exact ⟨rfl, inside, Fragment.call?_callText hcall hname, Fragment.call?_balanced hcall, rfl⟩

theorem Fragment.shape_callsName (h : f.shape = .call name place arguments) :
    CallsName f.text name := by
  obtain ⟨rfl, inside, hcall, _⟩ := Fragment.shape_eq_call h
  exact hcall.callsName.mono f.strip_beginsIn

end Fragment

section Resolve

variable {known other : Registry}

theorem Outline.resolveAll_congr {fragments : List Fragment}
    (h : ∀ f ∈ fragments, f.outline.resolve known = f.outline.resolve other) :
    Outline.resolveAll known (fragments.map Fragment.outline) =
      Outline.resolveAll other (fragments.map Fragment.outline) := by
  induction fragments with
  | nil => rfl
  | cons f rest ih =>
    obtain ⟨hf, hrest⟩ := List.forall_mem_cons.mp h
    rw [List.map_cons, Outline.resolveAll, Outline.resolveAll, hf, ih hrest]

/-- By induction along the parts: the registry is asked for the names of calls only, and what a part
calls is called by the whole. -/
theorem Fragment.resolve_congr {f : Fragment}
    (h : ∀ name, CallsName f.text name → known.find? name = other.find? name) :
    f.outline.resolve known = f.outline.resolve other := by
  induction f using Fragment.partsInduction with
  | whole f ih =>
    have hpart : ∀ g ∈ f.shape.parts, g.outline.resolve known = g.outline.resolve other :=
      fun g hg => ih g hg fun name hname => h name (hname.mono (f.shape_parts_beginsIn g hg))
    rw [Fragment.outline_eq]
    cases hs : f.shape with
    | fault cause place => rfl
    | number value => rfl
    | name place => rfl
    | plus operand =>
      rw [hs] at hpart
      exact hpart operand (by simp [Shape.parts])
    | minus operand =>
      rw [hs] at hpart
      rw [Shape.outline, Outline.resolve, Outline.resolve,
        hpart operand (by simp [Shape.parts])]
    | binary op left right =>
      rw [hs] at hpart
      rw [Shape.outline, Outline.resolve, Outline.resolve, hpart left (by simp [Shape.parts]),
        hpart right (by simp [Shape.parts])]
    | call name place arguments =>
      rw [hs] at hpart
      have harguments : Outline.resolveAll known (arguments.map Fragment.outline) =
          Outline.resolveAll other (arguments.map Fragment.outline) :=
        Outline.resolveAll_congr hpart
      rw [Shape.outline, Outline.resolve, Outline.resolve, h name (Fragment.shape_callsName hs)]
      simp only [harguments]

end Resolve

theorem Formula.parse_congr {known other : Registry} {source : String}
    (h : ∀ name, CallsName source.toList name → known.find? name = other.find? name) :
    Formula.parse other source =
      (Formula.parse known source).map fun f => { f with registry := other } := by
  have hresolve : (Fragment.ofString source).outline.resolve known =
      (Fragment.ofString source).outline.resolve other := Fragment.resolve_congr h
  cases hb : (Fragment.ofString source).requireBalance with
  | error error => simp [Formula.parse, bind, Except.bind, Except.map, hb]
  | ok value =>
    simp only [Formula.parse, bind, Except.bind, hb, hresolve]
    cases ((Fragment.ofString source).outline.resolve other).run {} <;> rfl

/-- A text is parsed by the extensions that it calls: with two registries that agree on these the
tree and the arguments are the same, or the error is. A name that the text does not call may be
registered without an effect on what it is parsed to, even the name of one of its arguments. -/
theorem Formula.parse_by_calls (source : String) :
    (∀ known other : Registry,
      (∀ name, CallsName source.toList name → known.find? name = other.find? name) →
        Formula.parse other source =
          (Formula.parse known source).map fun f => { f with registry := other }) ∧
      ∀ (registry : Registry) (name : String) (provider : Provider) (f : Formula),
        ¬CallsName source.toList name → Formula.parse registry source = .ok f →
          Formula.parse (registry.add name provider) source =
            .ok { f with registry := registry.add name provider } := by
  refine ⟨fun known other h => Formula.parse_congr h, ?_⟩
  intro registry name provider f hname hf
  have hfind : ∀ called, CallsName source.toList called →
      registry.find? called = (registry.add name provider).find? called := by
    intro called hcalled
    rw [Registry.find?_add, if_neg]
    rintro rfl
    exact hname hcalled
  rw [Formula.parse_congr hfind, hf]
  rfl

theorem CallsName.isInfix {text : List Char} {name : String} (h : CallsName text name) :
    ∃ c ∈ text, (isSpace c = true ∨ c = '(') ∧ name.toList ++ [c] <:+: text := by
  obtain ⟨before, spaces, later, rfl, _, hspaces, _⟩ := h
  cases spaces with
  | nil => exact ⟨'(', by simp, Or.inr rfl, before, later, by simp⟩
  | cons c rest =>
    exact ⟨c, by simp, Or.inl (hspaces c List.mem_cons_self), before, rest ++ '(' :: later, by simp⟩

/-- The formula "low*max(low,abs (y))". -/
def raised : Formula :=
  ⟨⟨"low*max(low,abs (y))", .binary .mul (.argument "low" 0)
      (.call ⟨"max", greatest⟩
        [.argument "low" 0, .call ⟨"abs", applyUnary Float.abs⟩ [.argument "y" 1]]),
    ⟨[("low", 0), ("y", 0)]⟩, 2, none⟩, .math⟩

theorem parse_raised : Formula.parse .math "low*max(low,abs (y))" = .ok raised := by
  with_unfolding_all rfl

theorem raised_not_calls : ¬CallsName "low*max(low,abs (y))".toList "low" := by
  intro h
  obtain ⟨c, hc, hend, hin⟩ := h.isInfix
  have hafter : ("low*max(low,abs (y))".toList.filter fun c =>
      "low".toList ++ [c] <:+: "low*max(low,abs (y))".toList) = ['*', ','] := by decide +kernel
  have hmem : c ∈ ['*', ','] := by
    rw [← hafter]
    exact List.mem_filter.mpr ⟨hc, decide_eq_true hin⟩
  rcases List.mem_cons.mp hmem with rfl | hmem
  · exact absurd hend (by decide)
  · rw [List.mem_singleton.mp hmem] at hend
    exact absurd hend (by decide)

/-- The argument `low` stays one when a function of this name is registered. -/
theorem raised_by_calls :
    (∀ name, CallsName "low*max(low,abs (y))".toList name →
      Registry.math.find? name = (Registry.math.addFunction "low" .any least).find? name) ∧
    Formula.parse (Registry.math.addFunction "low" .any least) "low*max(low,abs (y))" =
      (Formula.parse .math "low*max(low,abs (y))").map (fun f =>
        { f with registry := Registry.math.addFunction "low" .any least }) ∧
    ¬CallsName "low*max(low,abs (y))".toList "low" ∧ "low" ∈ raised.arguments.names ∧
    Formula.parse .math "low*max(low,abs (y))" = .ok raised ∧
    Formula.parse (Registry.math.addFunction "low" .any least) "low*max(low,abs (y))" =
      .ok { raised with registry := Registry.math.addFunction "low" .any least } := by
  obtain ⟨hagree, hadd⟩ := Formula.parse_by_calls "low*max(low,abs (y))"
  have hfind : ∀ name, CallsName "low*max(low,abs (y))".toList name →
      Registry.math.find? name = (Registry.math.addFunction "low" .any least).find? name := by
    intro name hname
    rw [Registry.addFunction, Registry.find?_add, if_neg]
    rintro rfl
    exact raised_not_calls hname
  exact ⟨hfind, hagree _ _ hfind, raised_not_calls, by decide, parse_raised,
    hadd _ _ _ _ raised_not_calls parse_raised⟩

end Formulary
