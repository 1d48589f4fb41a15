import Mathlib.Order.Bounds.Defs
import Formulary.Proofs.FaultPlace

namespace Formulary

/-- A `(` and a `)` are partners when the text between them is balanced. -/
inductive Partners : List Char → Nat → Nat → Prop
  | mk {u inside v : List Char} : Balanced inside →
    Partners (u ++ '(' :: (inside ++ ')' :: v)) u.length (u.length + 1 + inside.length)

def Partnered (text : List Char) (i : Nat) : Prop :=
  ∃ j, Partners text i j ∨ Partners text j i

/-- There is a parenthesis at a position of a text, and it has no partner. -/
def Unpartnered (text : List Char) (i : Nat) : Prop :=
  (text[i]? = some '(' ∨ text[i]? = some ')') ∧ ¬Partnered text i

section Partners

variable {text whole u v : List Char} {c : Char} {i j k : Nat}

theorem Partners.getElem?_open (h : Partners text i j) : text[i]? = some '(' := by
  cases h
  simp

theorem Partners.getElem?_close (h : Partners text i j) : text[j]? = some ')' := by
  cases h with
  | @mk u inside v _ =>
    have hleft : (u ++ '(' :: inside).length = u.length + 1 + inside.length := by
      rw [List.length_append, List.length_cons]
      omega
    rw [← List.cons_append, ← List.append_assoc, ← hleft]
    simp

theorem Partners.append (h : Partners text i j) (u v : List Char) :
    Partners (u ++ text ++ v) (u.length + i) (u.length + j) := by
  cases h with
  | @mk w inside x hinside =>
    have hmk := Partners.mk (u := u ++ w) (v := x ++ v) hinside
    rw [List.length_append] at hmk
    simpa [Nat.add_assoc] using hmk

theorem Partnered.of_append (h : Partnered text i) (ht : whole = u ++ text ++ v)
    (hk : k = u.length + i) : Partnered whole k := by
  obtain ⟨j, hj⟩ := h
  rw [ht, hk]
  exact ⟨u.length + j, hj.imp (fun h => h.append u v) fun h => h.append u v⟩

/-- By induction on the groups of a text: the parentheses around a group are partners. -/
theorem Balanced.partnered (h : Balanced text) (hi : text[i]? = some '(' ∨ text[i]? = some ')') :
    Partnered text i := by
  induction h generalizing i with
  | nil => simp at hi
  | @char c text ho hc _ ih =>
    cases i with
    | zero => simp [ho, hc] at hi
    | succ i =>
      have hlater : Partnered text i := ih (by simpa using hi)
      exact hlater.of_append (u := [c]) (v := []) (by simp) (Nat.add_comm i 1)
  | @group inside text hinside _ ihinside ih =>
    have hgroup : Partners ('(' :: (inside ++ ')' :: text)) 0 (0 + 1 + inside.length) :=
      .mk (u := []) hinside
    cases i with
    | zero => exact ⟨_, Or.inl hgroup⟩
    | succ i =>
      rw [List.getElem?_cons_succ] at hi
      rcases Nat.lt_trichotomy i inside.length with hlt | rfl | hgt
      · rw [List.getElem?_append_left hlt] at hi
        exact (ihinside hi).of_append (u := ['(']) (v := ')' :: text) (by simp) (Nat.add_comm i 1)
      · exact ⟨0, Or.inr (by rwa [Nat.zero_add, Nat.add_comm] at hgroup)⟩
      · obtain ⟨k, rfl⟩ : ∃ k, i = inside.length + (k + 1) := ⟨i - inside.length - 1, by omega⟩
        rw [List.getElem?_append_right (Nat.le_add_right _ _), Nat.add_sub_cancel_left,
          List.getElem?_cons_succ] at hi
        refine (ih hi).of_append (u := '(' :: (inside ++ [')'])) (v := []) (by simp) ?_
        rw [List.length_cons, List.length_append, List.length_singleton]
        omega

end Partners

/-- A balanced beginning of a text and, directly behind it, a `)` that closes nothing or a `(` that
is never closed. -/
def BreaksAt (u : List Char) (c : Char) (v : List Char) : Prop :=
  Balanced u ∧ (c = ')' ∨ c = '(' ∧ splitGroup 0 v = none)

section BreaksAt

variable {text u v w : List Char} {c : Char} {i j : Nat}

theorem BreaksAt.append (hw : Balanced w) (h : BreaksAt u c v) : BreaksAt (w ++ u) c v :=
  ⟨hw.append h.1, h.2⟩

/-- By induction on the length: what comes behind a character or a group is shorter. -/
theorem balanced_or_breaksAt (text : List Char) :
    Balanced text ∨ ∃ u c v, text = u ++ c :: v ∧ BreaksAt u c v := by
  induction hlen : text.length using Nat.strong_induction_on generalizing text with
  | _ n ih =>
    cases text with
    | nil => exact Or.inl .nil
    | cons c tail =>
      rw [List.length_cons] at hlen
      by_cases ho : c = '('
      · subst ho
        cases hs : splitGroup 0 tail with
        | none => exact Or.inr ⟨[], '(', tail, rfl, .nil, Or.inr ⟨rfl, hs⟩⟩
        | some group =>
          obtain ⟨inside, later⟩ := group
          have htail := splitGroup_eq hs
          have hinside := Balanced.of_splitGroup hs
          have hlength : inside.length + (later.length + 1) = tail.length := by
            rw [htail, List.length_append, List.length_cons]
          rw [htail]
          rcases ih _ (by omega) later rfl with hlater | ⟨u, c, v, rfl, hbreaks⟩
          · exact Or.inl (.group hinside hlater)
          · have hgroup : Balanced ('(' :: (inside ++ ')' :: [])) := .group hinside .nil
            exact Or.inr ⟨_, c, v, by simp, hbreaks.append hgroup⟩
      · by_cases hc : c = ')'
        · subst hc
          exact Or.inr ⟨[], ')', tail, rfl, .nil, Or.inl rfl⟩
        · rcases ih _ (by omega) tail rfl with htail | ⟨u, d, v, rfl, hbreaks⟩
          · exact Or.inl (.char ho hc htail)
          · have hchar : Balanced [c] := .char ho hc .nil
            exact Or.inr ⟨c :: u, d, v, rfl, hbreaks.append hchar⟩

theorem BreaksAt.unpartnered (h : BreaksAt u c v) : Unpartnered (u ++ c :: v) u.length := by
  obtain ⟨hu, hc⟩ := h
  have hat : (u ++ c :: v)[u.length]? = some c := by simp
  rcases hc with rfl | ⟨rfl, hs⟩
  · refine ⟨Or.inr hat, ?_⟩
    rintro ⟨j, hopen | hclose⟩
    · rw [hopen.getElem?_open] at hat
      cases hat
    · generalize ht : u ++ ')' :: v = text at hclose
      generalize hi : u.length = i at hclose
      cases hclose with
      | @mk w inside x hinside =>
        -- The text before the `)` would be balanced and would leave a group open.
        have hsplit : u ++ ')' :: v = (w ++ '(' :: inside) ++ ')' :: x := by simpa using ht
        have hlength : u.length = (w ++ '(' :: inside).length := by
          rw [List.length_append, List.length_cons]
          omega
        obtain ⟨rfl, _⟩ := List.append_inj hsplit hlength
        have hdepth := hu.depthBehind_eq 0
        rw [depthBehind_append, depthBehind_cons, depthAfter_open, hinside.depthBehind_eq] at hdepth
        cases hdepth
  · refine ⟨Or.inl hat, ?_⟩
    rintro ⟨j, hopen | hclose⟩
    · generalize ht : u ++ '(' :: v = text at hopen
      generalize hi : u.length = i at hopen
      cases hopen with
      | @mk w inside x hinside =>
        obtain ⟨_, htail⟩ := List.append_inj ht hi
        obtain rfl := (List.cons.inj htail).2
        rw [hinside.splitGroup_close] at hs
        cases hs
    · rw [hclose.getElem?_close] at hat
      cases hat

theorem BreaksAt.isLeast (h : BreaksAt u c v) :
    IsLeast {i | Unpartnered (u ++ c :: v) i} u.length := by
  refine ⟨h.unpartnered, fun i hi => Nat.le_of_not_lt fun hlt => ?_⟩
  obtain ⟨hparen, hnone⟩ := hi
  rw [List.getElem?_append_left hlt] at hparen
  exact hnone ((h.1.partnered hparen).of_append (u := []) rfl (Nat.zero_add i).symm)

/-- What is opened first stays open in a text that closes no more groups than those opened later. -/
theorem unmatched?_of_unclosed {opened : List Fragment} {f : Fragment} {offset : Nat}
    (h : splitGroup opened.length v = none) :
    unmatched? (opened ++ [f]) offset v = some (.unmatchedOpen, f) := by
  induction v generalizing opened offset with
  | nil => simp [unmatched?]
  | cons c rest ih =>
    rw [splitGroup] at h
    split at h
    next => cases h
    next hclose =>
      have hrest := Option.map_eq_none_iff.mp h
      by_cases ho : c = '('
      · subst ho
        rw [unmatched?_open, ← List.cons_append]
        exact ih hrest
      · by_cases hc : c = ')'
        · subst hc
          cases opened with
          | nil => exact absurd ⟨rfl, rfl⟩ hclose
          | cons g outer =>
            rw [List.cons_append, unmatched?_close]
            exact ih hrest
        · rw [unmatched?_char ho hc]
          rw [depthAfter_of_ne _ ho hc] at hrest
          exact ih hrest

/-- The kind of parenthesis that a fault is about. -/
theorem BreaksAt.requireBalance {f : Fragment} (h : BreaksAt u c v) (ht : f.text = u ++ c :: v) :
    ∃ cause : Fault, cause.message = "Unmatched '" ++ String.singleton c ++ "'" ∧
      f.requireBalance = .error (.malformed cause ⟨f.offset + textSize u, c :: v⟩) := by
  obtain ⟨hu, rfl | ⟨rfl, hs⟩⟩ := h
  · have hfound : unmatched? [] f.offset f.text =
        some (.unmatchedClose, ⟨f.offset + textSize u, ')' :: v⟩) := by
      rw [ht, hu.unmatched?_append]
      simp [unmatched?]
    exact ⟨.unmatchedClose, rfl, by rw [Fragment.requireBalance, hfound]⟩
  · have hunclosed : splitGroup ([] : List Fragment).length v = none := hs
    have hfound : unmatched? [] f.offset f.text =
        some (.unmatchedOpen, ⟨f.offset + textSize u, '(' :: v⟩) := by
      rw [ht, hu.unmatched?_append, unmatched?_open]
      exact unmatched?_of_unclosed hunclosed
    exact ⟨.unmatchedOpen, rfl, by rw [Fragment.requireBalance, hfound]⟩

end BreaksAt

/-- No shape and no extension is at fault for a parenthesis without a partner. -/
theorem Fragment.resolve_ne_unmatched {registry : Registry} (placeless : registry.Placeless)
    {f place : Fragment} {b : Bindings} {cause : Fault}
    (h : (f.outline.resolve registry).run b = .error (.malformed cause place)) :
    cause ≠ .unmatchedOpen ∧ cause ≠ .unmatchedClose := by
  obtain ⟨g, _, hfault | ⟨rfl | rfl, _⟩⟩ := Fragment.resolve_malformed placeless h
  · rcases Fragment.shape_fault_cases hfault with rfl | rfl | rfl | rfl <;> decide
  · decide
  · decide

/-- A text is balanced when no prefix of it closes more than it opens and all that is opened is
closed. Any other text is refused before anything else in it is looked at: the error names the
leftmost parenthesis without a partner and points at it and all the text behind it. Functions and
formulas as extensions bring such an error about for no other text. -/
theorem Formula.parse_unpartnered (source : String) :
    ((Fragment.ofString source).requireBalance = .ok () ↔
      (∀ u, u <+: source.toList → u.count ')' ≤ u.count '(') ∧
        source.toList.count ')' = source.toList.count '(') ∧
    ((Fragment.ofString source).requireBalance ≠ .ok () →
      ∃ (i : Nat) (c : Char) (cause : Fault) (error : Error),
        IsLeast {i | Unpartnered source.toList i} i ∧ source.toList[i]? = some c ∧
        cause.message = "Unmatched '" ++ String.singleton c ++ "'" ∧
        error = .malformed cause ⟨textSize (source.toList.take i), source.toList.drop i⟩ ∧
        (Fragment.ofString source).requireBalance = .error error ∧
        ∀ registry, Formula.parse registry source = .error error) ∧
    ∀ entries cause place,
      Formula.parse (.ofExtensions entries) source = .error (.malformed cause place) →
      cause = .unmatchedOpen ∨ cause = .unmatchedClose →
      (Fragment.ofString source).requireBalance = .error (.malformed cause place) := by
  refine ⟨Fragment.requireBalance_eq_ok_iff.trans balanced_iff_count, fun hrefused => ?_, ?_⟩
  · obtain ⟨u, c, v, ht, hbreaks⟩ := (balanced_or_breaksAt source.toList).resolve_left
      fun h => hrefused (Fragment.requireBalance_eq_ok_iff.mpr h)
    obtain ⟨cause, hmessage, herror⟩ :=
      hbreaks.requireBalance (f := .ofString source) ht
    rw [show (Fragment.ofString source).offset + textSize u = textSize u from Nat.zero_add _]
      at herror
    have hleast := hbreaks.isLeast
    rw [← ht] at hleast
    refine ⟨u.length, c, cause, _, hleast, by simp [ht], hmessage, rfl, ?_, fun registry => ?_⟩
    · simpa [ht] using herror
    · rw [Formula.parse_eq_error]
      exact Or.inl (by simpa [ht] using herror)
  · intro entries cause place h hcause
    rcases Formula.parse_eq_error.mp h with hbalance | ⟨_, hresolve⟩
    · exact hbalance
    · obtain ⟨hopen, hclose⟩ :=
        Fragment.resolve_ne_unmatched (Registry.placeless_ofExtensions entries) hresolve
      exact absurd hcause (not_or.mpr ⟨hopen, hclose⟩)

end Formulary
