import Formulary.Proofs.ParseBounds
import Formulary.Proofs.Provenance
import Formulary.Proofs.ResolveError

namespace Formulary

/-- A place that can be looked up in a source: its offset lies within the source and cuts no
character, and from there on the source begins with its text. -/
structure Fragment.FoundIn (source : String) (place : Fragment) : Prop where
  offset_le : place.offset ≤ source.utf8ByteSize
  offset_valid : (String.Pos.Raw.mk place.offset).IsValid source
  text : ∃ before later : String, source = before ++ (String.ofList place.text ++ later) ∧
    before.utf8ByteSize = place.offset

theorem Fragment.Within.foundIn {source : String} {place : Fragment}
    (hw : place.Within (.ofString source)) : place.FoundIn source := by
  obtain ⟨u, v, ht, ho⟩ := hw
  have hsource : source = String.ofList u ++ (String.ofList place.text ++ String.ofList v) := by
    rw [← String.ofList_append, ← String.ofList_append, ← List.append_assoc, ← ht]
    exact String.ofList_toList.symm
  have hsize : (String.ofList u).utf8ByteSize = place.offset := by
    rw [utf8ByteSize_ofList, ho]
    exact (Nat.zero_add _).symm
  refine ⟨?_, ?_, String.ofList u, String.ofList v, hsource, hsize⟩
  · rw [hsource, String.utf8ByteSize_append, hsize]
    omega
  · refine String.Pos.Raw.isValid_iff_exists_append.mpr ⟨_, _, hsource, ?_⟩
    rw [← hsize]
    rfl

/-- A fault of a fragment is found in it, and it has no text only where an operand is missing. -/
def Fault.PlacedIn (f : Fragment) (cause : Fault) (place : Fragment) : Prop :=
  place.Within f ∧ (place.text = [] ↔ cause = .emptyOperand)

theorem Fault.PlacedIn.mono {f g place : Fragment} {cause : Fault} (h : cause.PlacedIn g place)
    (hw : g.Within f) : cause.PlacedIn f place :=
  ⟨h.1.trans hw, h.2⟩

section Shape

variable {f place : Fragment} {cause : Fault}

theorem Fragment.operandShape_fault (h : f.operandShape = .fault cause place) :
    place = f ∧ cause ≠ .emptyOperand := by
  unfold Fragment.operandShape at h
  repeat' split at h
  all_goals cases h
  all_goals exact ⟨rfl, by decide⟩

/-- A fault at the outermost level of a fragment stands where the blanks and the parentheses around
it end. -/
theorem Fragment.shape_fault (h : f.shape = .fault cause place) : cause.PlacedIn f place := by
  unfold Fragment.shape at h
  simp only at h
  split at h
  next hempty =>
    cases h
    exact ⟨f.strip_within, iff_of_true hempty rfl⟩
  next hne =>
    split at h
    next => cases h
    next =>
      obtain ⟨rfl, hcause⟩ := Fragment.operandShape_fault h
      exact ⟨f.strip_within, iff_of_false hne hcause⟩

/-- What may be wrong with a fragment at its outermost level. -/
theorem Fragment.shape_fault_cases (h : f.shape = .fault cause place) :
    cause = .emptyOperand ∨ cause = .literalOutOfRange ∨ cause = .invalidToken ∨
      cause = .invalidExtensionName := by
  unfold Fragment.shape Fragment.operandShape at h
  simp only at h
  repeat' split at h
  all_goals cases h
  all_goals decide

/-- The place of a call holds at least its parentheses. -/
theorem Fragment.shape_call {word : String} {arguments : List Fragment}
    (h : f.shape = .call word place arguments) : place.Within f ∧ place.text ≠ [] := by
  have hlaid := f.shape_laidOut
  rw [h] at hlaid
  obtain ⟨hplace, inside, ⟨name, spaces, _, _, _, htext⟩, _⟩ := hlaid
  refine ⟨hplace, ?_⟩
  rw [htext]
  simp

end Shape

/-- Extensions that point at no place of the text when they fail. -/
def Registry.Placeless (registry : Registry) : Prop :=
  ∀ word provider, registry.find? word = some provider → ∀ operands b cause place,
    (provider operands).run b ≠ .error (.malformed cause place)

theorem Registry.placeless_ofExtensions (entries : List (String × Extension)) :
    (Registry.ofExtensions entries).Placeless := by
  intro word provider hw operands b cause place herror
  rw [Registry.find?_ofExtensions] at hw
  obtain ⟨e, _, rfl⟩ := Option.map_eq_some_iff.mp hw
  obtain ⟨_, harity⟩ := Extension.provider_run_eq_error.mp herror
  cases harity

section Resolve

variable {registry : Registry} {cause : Fault} {place : Fragment}

/-- By induction along the parts: what is malformed is a part that has no shape, or a call in which
an extension is unknown or makes up an argument. -/
theorem Fragment.resolve_malformed (placeless : registry.Placeless) {f : Fragment} {b : Bindings}
    (h : (f.outline.resolve registry).run b = .error (.malformed cause place)) :
    ∃ g, f.Visits g ∧ (g.shape = .fault cause place ∨
      (cause = .unknownExtension ∨ cause = .strayArgument) ∧
        ∃ word arguments, g.shape = .call word place arguments) := by
  induction f using Fragment.partsInduction generalizing b with
  | whole f ih =>
    have hpart : ∀ g ∈ f.shape.parts, ∀ b : Bindings,
        (g.outline.resolve registry).run b = .error (.malformed cause place) →
          ∃ g, f.Visits g ∧ (g.shape = .fault cause place ∨
            (cause = .unknownExtension ∨ cause = .strayArgument) ∧
              ∃ word arguments, g.shape = .call word place arguments) := by
      intro g hg b herror
      obtain ⟨found, hvisits, hfound⟩ := ih g hg herror
      exact ⟨found, hvisits.head hg, hfound⟩
    rw [Fragment.outline_eq] at h
    cases hs : f.shape with
    | fault found site =>
      rw [hs] at h
      cases Outline.resolve_fault_eq_error.mp h
      exact ⟨f, .refl, Or.inl hs⟩
    | number value =>
      rw [hs] at h
      exact absurd h Outline.resolve_number_ne_error
    | name site =>
      rw [hs] at h
      exact absurd h Outline.resolve_name_ne_error
    | plus operand =>
      rw [hs] at h hpart
      exact hpart operand (by simp [Shape.parts]) b h
    | minus operand =>
      rw [hs] at h hpart
      exact hpart operand (by simp [Shape.parts]) b (Outline.resolve_minus_eq_error.mp h)
    | binary op left right =>
      rw [hs] at h hpart
      rcases Outline.resolve_binary_eq_error.mp h with hl | ⟨_, middle, _, hr⟩
      · exact hpart left (by simp [Shape.parts]) b hl
      · exact hpart right (by simp [Shape.parts]) middle hr
    | call word site arguments =>
      rw [hs] at h hpart
      rcases Outline.resolve_call_eq_error h with ⟨_, herror⟩ | ⟨provider, hf, h⟩
      · cases herror
        exact ⟨f, .refl, Or.inr ⟨Or.inl rfl, word, arguments, hs⟩⟩
      rcases h with h | ⟨operands, middle, _, h | ⟨t, c, _, h⟩⟩
      · obtain ⟨o, ho, middle, herror⟩ := Outline.resolveAll_eq_error h
        obtain ⟨g, hg, rfl⟩ := List.mem_map.mp ho
        exact hpart g hg middle herror
      · exact absurd h (placeless word provider hf operands middle cause place)
      · rcases Term.check_eq_error h with herror | ⟨_, _, herror⟩
        · cases herror
          exact ⟨f, .refl, Or.inr ⟨Or.inr rfl, word, arguments, hs⟩⟩
        · cases herror

/-- An error is placed in the part that it is about, and the part stands within the fragment. -/
theorem Fragment.resolve_placedIn (placeless : registry.Placeless) {f : Fragment} {b : Bindings}
    (h : (f.outline.resolve registry).run b = .error (.malformed cause place)) :
    cause.PlacedIn f place := by
  obtain ⟨g, hvisits, hfault | ⟨hcause, word, arguments, hcall⟩⟩ :=
    Fragment.resolve_malformed placeless h
  · exact (Fragment.shape_fault hfault).mono hvisits.beginsIn.within
  · obtain ⟨hwithin, hne⟩ := Fragment.shape_call hcall
    refine ⟨hwithin.trans hvisits.beginsIn.within, iff_of_false hne ?_⟩
    rcases hcause with rfl | rfl <;> decide

end Resolve

theorem Fragment.requireBalance_placedIn {f place : Fragment} {cause : Fault}
    (h : f.requireBalance = .error (.malformed cause place)) : cause.PlacedIn f place := by
  unfold Fragment.requireBalance at h
  split at h
  next => cases h
  next found site hu =>
    cases h
    obtain ⟨u, c, v, ht, rfl, hkind⟩ := (ByteScan.unmatched?_suffix hu).resolve_left (by simp)
    refine ⟨⟨u, [], by simp [ht], rfl⟩, iff_of_false (List.cons_ne_nil c v) ?_⟩
    rcases hkind with ⟨_, rfl⟩ | ⟨_, rfl⟩ <;> decide

theorem Formula.parse_eq_error {registry : Registry} {source : String} {error : Error} :
    Formula.parse registry source = .error error ↔
      (Fragment.ofString source).requireBalance = .error error ∨
        (Fragment.ofString source).requireBalance = .ok () ∧
          ((Fragment.ofString source).outline.resolve registry).run {} = .error error := by
  cases hb : (Fragment.ofString source).requireBalance with
  | error found => simp [Formula.parse, bind, Except.bind, hb]
  | ok value =>
    cases hr : ((Fragment.ofString source).outline.resolve registry).run {} with
    | error found => simp [Formula.parse, bind, Except.bind, hb, hr]
    | ok made => simp [Formula.parse, bind, Except.bind, pure, Except.pure, hb, hr]

theorem Fault.message_eq_empty {cause : Fault} :
    cause.message = "Empty operand" ↔ cause = .emptyOperand := by
  cases cause <;> decide

/-- A refused text is pointed at where it stands: the place of the fault is found in the source as
a whole, however deep in groups, operators, signs and calls the fault is. The place is empty when
an operand is missing, and only then. -/
theorem Formula.parse_fault_found {entries : List (String × Extension)} {source : String}
    {cause : Fault} {place : Fragment}
    (h : Formula.parse (.ofExtensions entries) source = .error (.malformed cause place)) :
    place.FoundIn source ∧ (place.text = [] ↔ cause.message = "Empty operand") := by
  have hplaced : cause.PlacedIn (.ofString source) place := by
    rcases Formula.parse_eq_error.mp h with hbalance | ⟨_, hresolve⟩
    · exact Fragment.requireBalance_placedIn hbalance
    · exact Fragment.resolve_placedIn (Registry.placeless_ofExtensions entries) hresolve
  obtain ⟨hwithin, hempty⟩ := hplaced
  exact ⟨hwithin.foundIn, hempty.trans Fault.message_eq_empty.symm⟩

/-- The fault is a character of three bytes in the second argument of an inner call, behind a space
of two bytes. -/
theorem nested_fault_found :
    Formula.parse (.ofExtensions mathExtensions) "max\u00a0(w, -(min(x, y * € ))^z)" =
        .error (.malformed .invalidToken ⟨22, ['€']⟩) ∧
      (⟨22, ['€']⟩ : Fragment).FoundIn "max\u00a0(w, -(min(x, y * € ))^z)" ∧
      ((⟨22, ['€']⟩ : Fragment).text = [] ↔ Fault.invalidToken.message = "Empty operand") := by
  have h : Formula.parse (.ofExtensions mathExtensions) "max\u00a0(w, -(min(x, y * € ))^z)" =
      .error (.malformed .invalidToken ⟨22, ['€']⟩) := by with_unfolding_all rfl
  exact ⟨h, Formula.parse_fault_found h⟩

end Formulary
