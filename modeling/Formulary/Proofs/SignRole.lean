import Formulary.Proofs.ParseBounds

namespace Formulary

open ByteScan

variable {source : String} {f g : Fragment}

theorem Fragment.BeginsIn.bytes (h : g.BeginsIn (.ofString source)) :
    ∃ u v, bytesOf source = u ++ codeUnits g.text ++ v ∧ g.offset = u.length ∧
      OpensOperand u.reverse := by
  obtain ⟨u, v, ht, ho, hu⟩ := h
  refine ⟨codeUnits u, codeUnits v, ?_, by rw [codeUnits_length, ho]; exact Nat.zero_add _, ?_⟩
  · rw [bytesOf_eq, ← codeUnits_append, ← codeUnits_append, ← ht]
    rfl
  · rw [codeUnits_reverse]
    exact unitsOf_widens.reverse.opensOperand hu

/-- To look back to where an operand begins is enough to tell a sign. -/
theorem Fragment.BeginsIn.sign? (h : g.BeginsIn (.ofString source)) {u v : List Char}
    (hg : codeUnits g.text = u ++ v) :
    sign? (bytesOf source) g.offset (g.offset + u.length) = some (isSignAfter u.reverse) ∧
      sign? (bytesOf source) 0 (g.offset + u.length) = some (isSignAfter u.reverse) := by
  obtain ⟨before, later, hb, ho, hopen⟩ := h.bytes
  have hbytes : bytesOf source = before ++ u ++ (v ++ later) := by simp [hb, hg]
  have hwhole : ByteScan.sign? (bytesOf source) 0 (g.offset + u.length) =
      some (isSignAfter (before ++ u).reverse) :=
    sign?_eq (u := []) hbytes rfl (by rw [List.length_append, ho, Nat.zero_add])
  -- All that the whole text has more than the fragment stands before where an operand begins.
  rw [List.reverse_append, hopen.isSignAfter_append] at hwhole
  exact ⟨sign?_eq hbytes ho rfl, hwhole⟩

/-- In a balanced text each `+` and `-` is a sign, or is none, once and for all: wherever parsing
looks for operators, it is the same as in the whole text. What shows as an operator there is no
sign of the text. -/
theorem Formula.parse_sign_fixed (h : Balanced source.toList)
    (hg : (Fragment.ofString source).Visits g) :
    ∃ t pattern, strip? (bytesOf source) g.span = some t ∧
      pattern? (bytesOf source) t = some pattern ∧
      ∀ i c, t.start ≤ i → i < t.stop → (bytesOf source)[i]? = some c → isPlusMinus c = true →
        ∃ role, sign? (bytesOf source) t.start i = some role ∧
          sign? (bytesOf source) 0 i = some role ∧
          (pattern[i - t.start]? = some (some c) → role = false) := by
  obtain ⟨hw, hbal⟩ := hg.within_balanced h
  have hbegins := g.strip_beginsIn.trans hg.beginsIn
  obtain ⟨before, later, hb, ho, _⟩ := hbegins.bytes
  have hstop : g.strip.stop = g.strip.offset + (codeUnits g.strip.text).length := by
    rw [codeUnits_length]
    rfl
  refine ⟨g.strip.span, mask (codeUnits g.strip.text), strip?_eq hw,
    pattern?_eq (Fragment.strip_balanced hbal).codeUnits hb ho hstop, ?_⟩
  intro i c hstart hlt _ hc
  rw [Fragment.span_start] at hstart ⊢
  rw [Fragment.span_stop, hstop] at hlt
  have hsplit := (List.take_append_drop (i - g.strip.offset) (codeUnits g.strip.text)).symm
  have hi : g.strip.offset + ((codeUnits g.strip.text).take (i - g.strip.offset)).length = i := by
    rw [List.length_take_of_le (by omega)]
    omega
  obtain ⟨hspan, hwhole⟩ := hbegins.sign? hsplit
  rw [hi] at hspan hwhole
  refine ⟨_, hspan, hwhole, fun hshow => ?_⟩
  obtain ⟨u, v, hu, hlen, _, _, hnone⟩ := mask_split hshow
  rw [← hlen, hu, List.take_left]
  simpa [hc] using hnone

/-- What is left of `a2e-x` without its parentheses is no number with an exponent either. -/
theorem groupedName_sign_fixed :
    Balanced "y*(a2e-x)".toList ∧
      (Fragment.ofString "y*(a2e-x)").Visits ⟨2, "(a2e-x)".toList⟩ ∧
      ∃ t pattern, strip? (bytesOf "y*(a2e-x)") ⟨2, 9⟩ = some t ∧
        pattern? (bytesOf "y*(a2e-x)") t = some pattern ∧
        ∀ i c, t.start ≤ i → i < t.stop → (bytesOf "y*(a2e-x)")[i]? = some c →
          isPlusMinus c = true →
          ∃ role, sign? (bytesOf "y*(a2e-x)") t.start i = some role ∧
            sign? (bytesOf "y*(a2e-x)") 0 i = some role ∧
            (pattern[i - t.start]? = some (some c) → role = false) := by
  have hbalance : Balanced "y*(a2e-x)".toList :=
    (Fragment.requireBalance_eq_ok_iff (f := .ofString "y*(a2e-x)")).mp
      (by with_unfolding_all rfl)
  have hshape : (Fragment.ofString "y*(a2e-x)").shape =
      .binary .mul ⟨0, ['y']⟩ ⟨2, "(a2e-x)".toList⟩ := by with_unfolding_all rfl
  have hvisits : (Fragment.ofString "y*(a2e-x)").Visits ⟨2, "(a2e-x)".toList⟩ :=
    .single (by rw [hshape]; simp [Shape.parts])
  exact ⟨hbalance, hvisits, Formula.parse_sign_fixed hbalance hvisits⟩

end Formulary
