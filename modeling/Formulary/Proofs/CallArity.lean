import Formulary.Proofs.Accesses
import Formulary.Proofs.CalledNames
import Formulary.Proofs.FaultPlace
import Formulary.Proofs.RegularFormula

namespace Formulary

/-- The number of commas outside of groups: left of each of them the groups that are opened are
closed again. -/
def outerCommas (text : List Char) : Nat :=
  (List.range text.length).countP fun i =>
    text[i]? = some ',' ∧ (text.take i).count '(' = (text.take i).count ')'

/-- The number of arguments written between the parentheses of a call. -/
def argumentCount (inside : List Char) : Nat :=
  if inside.all isBlank then 0 else outerCommas inside + 1

section Count

variable {text : List Char}

theorem commaPieces_length (depth : Nat) (text : List Char) :
    (commaPieces depth text).2.length = (List.range text.length).countP fun i =>
      text[i]? = some ',' ∧ depthBehind depth (text.take i) = 0 := by
  induction text generalizing depth with
  | nil => rfl
  | cons c rest ih =>
    have hlater : (List.range rest.length).countP (fun i => decide
        ((c :: rest)[i + 1]? = some ',' ∧ depthBehind depth ((c :: rest).take (i + 1)) = 0)) =
          (commaPieces (depthAfter depth c) rest).2.length := (ih _).symm
    rw [List.length_cons, List.range_succ_eq_map, List.countP_cons, List.countP_map, commaPieces]
    show _ = (List.range rest.length).countP (fun i => decide
        ((c :: rest)[i + 1]? = some ',' ∧ depthBehind depth ((c :: rest).take (i + 1)) = 0)) + _
    rw [hlater]
    by_cases hc : c = ',' ∧ depth = 0
    · simp [hc, depthBehind]
    · simp [hc, depthBehind]

theorem Balanced.outerCommas_eq (h : Balanced text) :
    outerCommas text = (commaPieces 0 text).2.length := by
  rw [commaPieces_length, outerCommas]
  refine List.countP_congr fun i _ => ?_
  have hbelow : NeverBelow 0 (text.take i) := by
    have hn := h.neverBelow 0
    rw [← List.take_append_drop i text, neverBelow_append] at hn
    exact hn.1
  have hdepth := depthBehind_add_count hbelow
  have hiff : (text.take i).count '(' = (text.take i).count ')' ↔
      depthBehind 0 (text.take i) = 0 := by omega
  simp only [hiff]

end Count

theorem placeFrom_length (offset : Nat) (texts : List (List Char)) :
    (placeFrom offset texts).length = texts.length := by
  induction texts generalizing offset with
  | nil => rfl
  | cons text rest ih => rw [placeFrom, List.length_cons, List.length_cons, ih]

theorem Fragment.length_arguments {f : Fragment} (h : Balanced f.text) :
    f.arguments.length = argumentCount f.text := by
  rw [Fragment.arguments_eq, argumentCount]
  split
  next => rfl
  next => rw [Fragment.pieces, placeFrom_length, List.length_cons, h.outerCommas_eq]

section Resolve

variable {registry : Registry} {entries : List (String × Extension)} {b c middle : Bindings}
  {operands : List Term} {t : Term} {word : String} {place : Fragment}

theorem Outline.length_resolveAll {outlines : List Outline}
    (h : (Outline.resolveAll registry outlines).run b = .ok (operands, c)) :
    operands.length = outlines.length := by
  induction outlines generalizing b operands with
  | nil =>
    obtain ⟨rfl, _⟩ := Outline.resolveAll_nil_eq_ok.mp h
    rfl
  | cons o rest ih =>
    obtain ⟨x, xs, middle, _, hxs, rfl⟩ := Outline.resolveAll_cons_eq_ok.mp h
    rw [List.length_cons, List.length_cons, ih hxs]

/-- A function or a formula makes a term that fits the bindings, out of operands that fit them. -/
theorem Outline.check_eq_ok {arguments : List Outline} {provider : Provider}
    (hf : (Registry.ofExtensions entries).find? word = some provider)
    (ha : (Outline.resolveAll (.ofExtensions entries) arguments).run b = .ok (operands, middle))
    (hp : (provider operands).run middle = .ok (t, c)) : t.check word place c.size = .ok () := by
  rw [Registry.find?_ofExtensions] at hf
  obtain ⟨e, _, rfl⟩ := Option.map_eq_some_iff.mp hf
  obtain ⟨haccepts, rfl, rfl⟩ := Extension.provider_run_eq_ok.mp hp
  exact Term.check_eq_ok.mpr (Extension.term_fits (Outline.resolveAll_fits ha) haccepts)

end Resolve

/-- A call in a fragment with a number of arguments that its extension does not take. -/
structure RefusedCall (entries : List (String × Extension)) (f : Fragment) (name : String)
    (expected : Arity) (found : Nat) : Prop where
  call : ∃ (place : Fragment) (inside : List Char), place.BeginsIn f ∧
    CallText name place.text inside ∧ Balanced inside ∧ found = argumentCount inside
  registered : ∃ e, latest? entries name = some e ∧ expected = e.arity
  refused : expected.accepts found = false

theorem RefusedCall.mono {entries : List (String × Extension)} {f g : Fragment} {name : String}
    {expected : Arity} {found : Nat} (h : RefusedCall entries g name expected found)
    (hg : g.BeginsIn f) : RefusedCall entries f name expected found := by
  obtain ⟨⟨place, inside, hplace, hcall⟩, hregistered, hrefused⟩ := h
  exact ⟨⟨place, inside, hplace.trans hg, hcall⟩, hregistered, hrefused⟩

/-- What may be wrong with a fragment: its text, but for the check of what an extension makes, or
the number of arguments of a call. -/
def Error.Explained (entries : List (String × Extension)) (f : Fragment) : Error → Prop
  | .malformed cause _ => cause ≠ .strayArgument
  | .arity name expected found => RefusedCall entries f name expected found
  | .unknownArgument _ | .notANumber _ | .notCompiled | .argumentCount _ _ => False

theorem Error.Explained.mono {entries : List (String × Extension)} {f g : Fragment} {error : Error}
    (h : error.Explained entries g) (hg : g.BeginsIn f) : error.Explained entries f := by
  cases error with
  | malformed cause place => exact h
  | arity name expected found => exact RefusedCall.mono h hg
  | unknownArgument | notANumber | notCompiled | argumentCount => exact h

section Resolve

variable {entries : List (String × Extension)}

theorem Fragment.shape_fault_ne_stray {f place : Fragment} {cause : Fault}
    (h : f.shape = .fault cause place) : cause ≠ .strayArgument := by
  rcases Fragment.shape_fault_cases h with rfl | rfl | rfl | rfl <;> decide

/-- By induction along the parts: what is wrong with a part is wrong with the whole, and a call
fails at its name, in its arguments or at their number. -/
theorem Fragment.resolve_explained {f : Fragment} {b : Bindings} {error : Error}
    (h : (f.outline.resolve (.ofExtensions entries)).run b = .error error) :
    error.Explained entries f := by
  induction f using Fragment.partsInduction generalizing b with
  | whole f ih =>
    have hpart : ∀ g ∈ f.shape.parts, ∀ b : Bindings,
        (g.outline.resolve (.ofExtensions entries)).run b = .error error →
          error.Explained entries f :=
      fun g hg b herror => (ih g hg herror).mono (f.shape_parts_beginsIn g hg)
    rw [Fragment.outline_eq] at h
    cases hs : f.shape with
    | fault cause place =>
      rw [hs] at h
      cases Outline.resolve_fault_eq_error.mp h
      exact Fragment.shape_fault_ne_stray hs
    | number value =>
      rw [hs] at h
      exact absurd h Outline.resolve_number_ne_error
    | name place =>
      rw [hs] at h
      exact absurd h Outline.resolve_name_ne_error
    | plus operand =>
      rw [hs] at h hpart
      exact hpart operand (by simp [Shape.parts]) b h
    | minus operand =>
      rw [hs] at h hpart
      exact hpart operand (by simp [Shape.parts]) b (Outline.resolve_minus_eq_error.mp h)
    | binary op left right =>
      rw [hs] at h hpart
      rcases Outline.resolve_binary_eq_error.mp h with hl | ⟨_, middle, _, hr⟩
      · exact hpart left (by simp [Shape.parts]) b hl
      · exact hpart right (by simp [Shape.parts]) middle hr
    | call name place arguments =>
      obtain ⟨rfl, inside, hcall, hbalanced, rfl⟩ := Fragment.shape_eq_call hs
      rw [hs] at h hpart
      rcases Outline.resolve_call_eq_error h with ⟨_, rfl⟩ | ⟨provider, hf, h⟩
      · exact Fault.noConfusion
      rcases h with h | ⟨operands, middle, ha, h | ⟨t, c, hp, h⟩⟩
      · obtain ⟨o, ho, middle, herror⟩ := Outline.resolveAll_eq_error h
        obtain ⟨g, hg, rfl⟩ := List.mem_map.mp ho
        exact hpart g hg middle herror
      · rw [Registry.find?_ofExtensions] at hf
        obtain ⟨e, he, rfl⟩ := Option.map_eq_some_iff.mp hf
        obtain ⟨hrefused, rfl⟩ := Extension.provider_run_eq_error.mp h
        have hcount : operands.length = argumentCount inside.text := by
          rw [Outline.length_resolveAll ha, List.length_map, Fragment.length_arguments hbalanced]
        exact ⟨⟨f.strip, inside.text, f.strip_beginsIn, hcall, hbalanced, hcount⟩, ⟨e, he, rfl⟩,
          hrefused⟩
      · rw [Outline.check_eq_ok hf ha hp] at h
        cases h

end Resolve

/-- If the provider of a call makes a term of the operands that the arguments are resolved to, then
the check after it accepts the term. -/
def Access.Accepted (registry : Registry) (access : Access) : Prop :=
  match access.site with
  | .argument _ => True
  | .call word place arguments => ∀ provider b operands t c,
    registry.find? word = some provider →
    (Outline.resolveAll registry arguments).run b = .ok (operands, access.found) →
    (provider operands).run access.found = .ok (t, c) → t.check word place c.size = .ok ()

theorem Access.accepted (entries : List (String × Extension)) (access : Access) :
    access.Accepted (.ofExtensions entries) := by
  unfold Access.Accepted
  split
  · trivial
  · exact fun _ _ _ _ _ => Outline.check_eq_ok

theorem Fragment.requireBalance_explained {entries : List (String × Extension)} {f : Fragment}
    {error : Error} (h : f.requireBalance = .error error) : error.Explained entries f := by
  unfold Fragment.requireBalance at h
  split at h
  next => cases h
  next cause place hu =>
    cases h
    obtain ⟨_, _, _, _, _, hkind⟩ := (ByteScan.unmatched?_suffix hu).resolve_left (by simp)
    show cause ≠ .strayArgument
    rcases hkind with ⟨_, rfl⟩ | ⟨_, rfl⟩ <;> decide

/-- What functions and formulas make passes the check after it, at each call of a text that is
parsed. A text is refused for what it says itself, never for an argument that an extension made up;
or it has a call of a name with another number of arguments than is registered for the name. -/
theorem Formula.parse_explained (entries : List (String × Extension)) (source : String) :
    (∀ access ∈ (Fragment.ofString source).outline.accesses (.ofExtensions entries) {},
      access.Accepted (.ofExtensions entries)) ∧
    ∀ error, Formula.parse (.ofExtensions entries) source = .error error →
      error.Explained entries (.ofString source) := by
  refine ⟨fun access _ => access.accepted entries, fun error h => ?_⟩
  rcases Formula.parse_eq_error.mp h with hbalance | ⟨_, hresolve⟩
  · exact Fragment.requireBalance_explained hbalance
  · exact Fragment.resolve_explained hresolve

/-- The outer call is not reached: `peak` takes two arguments, and its second call has one. -/
theorem narrowPeak_explained :
    ((Fragment.ofString "max(peak(z,y),peak ( abs(z) ))").outline.accesses
      (.ofExtensions peakExtensions) {}).length = 6 ∧
    (∀ access ∈ (Fragment.ofString "max(peak(z,y),peak ( abs(z) ))").outline.accesses
      (.ofExtensions peakExtensions) {}, access.Accepted (.ofExtensions peakExtensions)) ∧
    Formula.parse (.ofExtensions peakExtensions) "max(peak(z,y),peak ( abs(z) ))" =
      .error (.arity "peak" (.exactly 2) 1) ∧
    RefusedCall peakExtensions (.ofString "max(peak(z,y),peak ( abs(z) ))") "peak"
      (.exactly 2) 1 := by
  obtain ⟨haccepted, hexplained⟩ :=
    Formula.parse_explained peakExtensions "max(peak(z,y),peak ( abs(z) ))"
  have hparse : Formula.parse (.ofExtensions peakExtensions) "max(peak(z,y),peak ( abs(z) ))" =
      .error (.arity "peak" (.exactly 2) 1) := by with_unfolding_all rfl
  exact ⟨by with_unfolding_all rfl, haccepted, hparse, hexplained _ hparse⟩

end Formulary
