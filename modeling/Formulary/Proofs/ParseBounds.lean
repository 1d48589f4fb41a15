import Mathlib.Logic.Relation
import Formulary.Proofs.ByteParse

namespace Formulary

/-- Each part of a fragment has fewer bytes. -/
theorem Fragment.shape_parts_size_lt {f g : Fragment} (h : g ∈ f.shape.parts) :
    g.span.size < f.span.size := by
  have hlength := Fragment.shape_parts_length_lt h
  obtain ⟨u, v, ht, _⟩ := f.shape_parts_within g h
  rw [Fragment.span_size, Fragment.span_size, ht, textSize_append, textSize_append]
  rw [ht, List.length_append, List.length_append] at hlength
  by_contra hsize
  have hu : u = [] := textSize_eq_zero.mp (by omega)
  have hv : v = [] := textSize_eq_zero.mp (by omega)
  simp [hu, hv] at hlength

namespace ByteScan

variable {source : String}

theorem mapM_outline? {size : Nat} {parts : List Fragment}
    (h : ∀ p ∈ parts, p.span.size < size ∧ outline? source p.span = some p.outline) :
    (parts.mapM fun p => if p.span.size < size then outline? source p.span else none) =
      some (parts.map Fragment.outline) := by
  induction parts with
  | nil => rfl
  | cons p rest ih =>
    obtain ⟨⟨hp, ho⟩, hrest⟩ := List.forall_mem_cons.mp h
    rw [List.mapM_cons, if_pos hp, ho, ih hrest]
    rfl

/-- By induction along the parts: those of a balanced fragment are balanced and have fewer bytes. -/
theorem outline?_eq {g : Fragment} (hw : g.Within (.ofString source)) (h : Balanced g.text) :
    outline? source g.span = some g.outline := by
  induction g using Fragment.partsInduction with
  | whole g ih =>
    have hparts : ∀ p ∈ g.shape.parts,
        p.span.size < g.span.size ∧ outline? source p.span = some p.outline := fun p hp =>
      ⟨Fragment.shape_parts_size_lt hp, ih p hp ((g.shape_parts_within p hp).trans hw)
        (Fragment.shape_parts_balanced h p hp)⟩
    rw [outline?, shape?_eq hw h, Fragment.outline_eq]
    simp only [Option.bind_eq_bind, Option.bind_some, dite_eq_ite]
    cases hs : g.shape with
    | fault | number | name => rfl
    | plus operand =>
      rw [hs] at hparts
      obtain ⟨hlt, ho⟩ := hparts operand (by simp [Shape.parts])
      simp only [if_pos hlt, ho]
      rfl
    | minus operand =>
      rw [hs] at hparts
      obtain ⟨hlt, ho⟩ := hparts operand (by simp [Shape.parts])
      simp only [if_pos hlt, ho]
      rfl
    | binary op left right =>
      rw [hs] at hparts
      obtain ⟨hlt, ho⟩ := hparts left (by simp [Shape.parts])
      obtain ⟨hlt', ho'⟩ := hparts right (by simp [Shape.parts])
      simp only [if_pos hlt, if_pos hlt', ho, ho']
      rfl
    | call word place arguments =>
      rw [hs] at hparts
      have hall : ∀ p ∈ arguments,
          p.span.size < g.span.size ∧ outline? source p.span = some p.outline := hparts
      simp only [mapM_outline? hall]
      rfl

section Balance

variable {opened : List Fragment} {offset : Nat} {text : List Char}

theorem unmatchedFrom?_skip {w : List Char} (hw : ∀ c ∈ w, Wide c) (opened : List Nat) (i : Nat)
    (text : List Char) :
    unmatchedFrom? opened i (w ++ text) = unmatchedFrom? opened (i + w.length) text := by
  induction w generalizing i with
  | nil => rfl
  | cons c rest ih =>
    obtain ⟨hc, hrest⟩ := List.forall_mem_cons.mp hw
    have ho : c ≠ '(' := hc.ne (by decide)
    have hclose : c ≠ ')' := hc.ne (by decide)
    rw [List.cons_append, unmatchedFrom?.eq_def]
    simp only [ho, hclose, if_false]
    rw [ih hrest, List.length_cons, Nat.add_assoc, Nat.add_comm 1]

theorem unmatchedFrom?_eq (opened : List Fragment) (offset : Nat) (text : List Char) :
    unmatchedFrom? (opened.map Fragment.offset) offset (codeUnits text) =
      (unmatched? opened offset text).map fun found => (found.1, found.2.offset) := by
  induction text generalizing opened offset with
  | nil =>
    rw [unmatched?, show codeUnits [] = [] from rfl, unmatchedFrom?.eq_def, List.getLast?_map]
    simp [Option.map_map, Function.comp_def]
  | cons c rest ih =>
    by_cases hw : Wide c
    · rw [codeUnits_cons, unmatchedFrom?_skip fun _ => wide_of_mem_unitsOf hw,
        unmatched?_char (hw.ne (by decide)) (hw.ne (by decide)), unitsOf_length, ih]
    · have hsize : c.utf8Size = 1 := by rw [← unitsOf_length, unitsOf_of_not_wide hw]; rfl
      rw [codeUnits_cons_of_not_wide hw, unmatchedFrom?.eq_def]
      by_cases ho : c = '('
      · subst ho
        rw [unmatched?_open, ← ih]
        rfl
      · by_cases hc : c = ')'
        · subst hc
          cases opened with
          | nil => simp [unmatched?]
          | cons f outer =>
            rw [unmatched?_close, ← ih]
            rfl
        · rw [unmatched?_char ho hc, ← ih, hsize]
          simp only [ho, hc, if_false]

/-- A parenthesis without a partner stands with all the text from there on, and the fault says
which of the two it is. -/
theorem unmatched?_suffix {fault : Fault} {f : Fragment}
    (h : unmatched? opened offset text = some (fault, f)) :
    (f ∈ opened ∧ fault = .unmatchedOpen) ∨ ∃ u c v, text = u ++ c :: v ∧
      f = ⟨offset + textSize u, c :: v⟩ ∧
      (c = '(' ∧ fault = .unmatchedOpen ∨ c = ')' ∧ fault = .unmatchedClose) := by
  induction text generalizing opened offset with
  | nil =>
    obtain ⟨place, hlast, he⟩ := Option.map_eq_some_iff.mp h
    obtain ⟨rfl, rfl⟩ := Prod.mk.inj he
    exact Or.inl ⟨List.mem_of_getLast? hlast, rfl⟩
  | cons c rest ih =>
    have later : (∃ u d v, rest = u ++ d :: v ∧ f = ⟨offset + c.utf8Size + textSize u, d :: v⟩ ∧
          (d = '(' ∧ fault = .unmatchedOpen ∨ d = ')' ∧ fault = .unmatchedClose)) →
        ∃ u d v, c :: rest = u ++ d :: v ∧ f = ⟨offset + textSize u, d :: v⟩ ∧
          (d = '(' ∧ fault = .unmatchedOpen ∨ d = ')' ∧ fault = .unmatchedClose) := by
      rintro ⟨u, d, v, rfl, rfl, hkind⟩
      exact ⟨c :: u, d, v, rfl, by rw [textSize, Nat.add_assoc], hkind⟩
    by_cases ho : c = '('
    · subst ho
      rw [unmatched?_open] at h
      rcases ih h with ⟨hm, hfault⟩ | hlater
      · rcases List.mem_cons.mp hm with rfl | hm
        · exact Or.inr ⟨[], '(', rest, rfl, rfl, Or.inl ⟨rfl, hfault⟩⟩
        · exact Or.inl ⟨hm, hfault⟩
      · exact Or.inr (later hlater)
    · by_cases hc : c = ')'
      · subst hc
        cases opened with
        | nil =>
          obtain ⟨rfl, rfl⟩ := Prod.mk.inj (Option.some.inj h)
          exact Or.inr ⟨[], ')', rest, rfl, rfl, Or.inr ⟨rfl, rfl⟩⟩
        | cons g outer =>
          rw [unmatched?_close] at h
          rcases ih h with ⟨hm, hfault⟩ | hlater
          · exact Or.inl ⟨List.mem_cons_of_mem g hm, hfault⟩
          · exact Or.inr (later hlater)
      · rw [unmatched?_char ho hc] at h
        exact (ih h).imp_right later

theorem utf8ByteSize_eq (source : String) : source.utf8ByteSize = textSize source.toList := by
  rw [← utf8ByteSize_ofList, String.ofList_toList]

theorem requireBalance?_eq (source : String) :
    requireBalance? source = some (Fragment.ofString source).requireBalance := by
  have hfound := unmatchedFrom?_eq [] 0 source.toList
  rw [List.map_nil, ← bytesOf_eq] at hfound
  rw [requireBalance?, hfound, Fragment.requireBalance, Fragment.ofString]
  cases hu : unmatched? [] 0 source.toList with
  | none => rfl
  | some found =>
    obtain ⟨fault, f⟩ := found
    obtain ⟨u, c, v, ht, rfl, _⟩ := (unmatched?_suffix hu).resolve_left (by simp)
    have hspan : (⟨0 + textSize u, source.utf8ByteSize⟩ : Span) =
        Fragment.span ⟨0 + textSize u, c :: v⟩ := by
      rw [utf8ByteSize_eq, ht, textSize_append, Fragment.span, Fragment.stop, Nat.zero_add]
    have hplace : text? source ⟨0 + textSize u, source.utf8ByteSize⟩ =
        some ⟨0 + textSize u, c :: v⟩ := by
      rw [hspan]
      exact text?_eq ⟨u, [], by rw [List.append_nil]; exact ht, rfl⟩
    simp only [Option.map_some, hplace]
    rfl

end Balance

end ByteScan

open ByteScan

/-- Parsing by bytes never fails to give a result, and gives the same one. -/
theorem Formula.parse?_eq (registry : Registry) (source : String) :
    parse? source registry = some (Formula.parse registry source) := by
  rw [parse?, requireBalance?_eq, Formula.parse]
  cases hb : (Fragment.ofString source).requireBalance with
  | error error => rfl
  | ok _ =>
    have hbal := Fragment.requireBalance_eq_ok_iff.mp hb
    have hspan : (⟨0, source.utf8ByteSize⟩ : Span) = (Fragment.ofString source).span := by
      rw [utf8ByteSize_eq, Fragment.span, Fragment.stop]
      exact congrArg (Span.mk 0) (Nat.zero_add _).symm
    simp only [Option.bind_eq_bind, Option.bind_some, hspan, outline?_eq (.refl _) hbal]
    rfl

/-- The fragments that reading a fragment may come to, one part within another. What makes the
reading end early, a fault or an unknown name, makes them fewer. -/
def Fragment.Visits (f g : Fragment) : Prop :=
  Relation.ReflTransGen (fun f g => g ∈ f.shape.parts) f g

/-- A span within the source that cuts no character and whose bytes are balanced on their own: no
prefix closes more groups than it opens, and all that are opened are closed. -/
structure Span.Sound (source : String) (s : Span) : Prop where
  start_le : s.start ≤ s.stop
  stop_le : s.stop ≤ source.utf8ByteSize
  start_valid : (String.Pos.Raw.mk s.start).IsValid source
  stop_valid : (String.Pos.Raw.mk s.stop).IsValid source
  balanced : ∃ bytes, slice? (bytesOf source) s.start s.stop = some bytes ∧
    (∀ u, u <+: bytes → u.count ')' ≤ u.count '(') ∧ bytes.count ')' = bytes.count '('

section Visits

variable {source : String} {f g : Fragment}

/-- All that reading a fragment comes to begins where an operand may begin in it. -/
theorem Fragment.Visits.beginsIn (h : f.Visits g) : g.BeginsIn f := by
  induction h with
  | refl => exact .refl f
  | @tail b c _ hpart ih => exact (b.shape_parts_beginsIn c hpart).trans ih

theorem Fragment.Visits.within_balanced (h : f.Visits g) (hf : Balanced f.text) :
    g.Within f ∧ Balanced g.text := by
  induction h with
  | refl => exact ⟨.refl f, hf⟩
  | @tail b c _ hpart ih =>
    exact ⟨(b.shape_parts_within c hpart).trans ih.1, Fragment.shape_parts_balanced ih.2 c hpart⟩

theorem Fragment.Within.sound (hw : g.Within (.ofString source)) (h : Balanced g.text) :
    g.span.Sound source := by
  have htext := text?_eq hw
  rw [text?] at htext
  split at htext
  next hvalid =>
    obtain ⟨hle, hstart, hstop⟩ := hvalid
    obtain ⟨u, v, hb, ho, hs⟩ := within_bytes hw
    exact ⟨hle, hstop.le_utf8ByteSize, hstart, hstop, codeUnits g.text, slice?_eq_some hb ho hs,
      balanced_iff_count.mp h.codeUnits⟩
  next => simp at htext

end Visits

/-- Parsing gives a formula or an error for every text. Read by bytes, with all that could go wrong
checked, it never goes wrong and gives the same. A text that is not balanced is refused before any
part of it is read. In a balanced one all that is read is in order and within the text, cuts no
character and is balanced, and each part of it is shorter. -/
theorem Formula.parse_in_bounds (registry : Registry) (source : String) :
    parse? source registry = some (Formula.parse registry source) ∧
    (∀ error, (Fragment.ofString source).requireBalance = .error error →
      Formula.parse registry source = .error error) ∧
    ((Fragment.ofString source).requireBalance = .ok () →
      ∀ g, (Fragment.ofString source).Visits g →
        g.span.Sound source ∧ shape? source g.span = some g.shape ∧
          ∀ part ∈ g.shape.parts, part.span.size < g.span.size) := by
  refine ⟨Formula.parse?_eq registry source, fun error he => ?_, fun hok g hg => ?_⟩
  · rw [Formula.parse, he]
    rfl
  · obtain ⟨hw, hbal⟩ := hg.within_balanced (Fragment.requireBalance_eq_ok_iff.mp hok)
    exact ⟨hw.sound hbal, shape?_eq hw hbal, fun part hpart => Fragment.shape_parts_size_lt hpart⟩

end Formulary
