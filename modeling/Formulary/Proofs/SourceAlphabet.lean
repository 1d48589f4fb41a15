import Formulary.Proofs.CalledNames
import Formulary.Proofs.FaultPlace

namespace Formulary

/-- The characters of names, literals, operators, groups and commas. -/
def isTokenChar (c : Char) : Bool := c.isAlphanum || "_.+-*/^(),".toList.contains c

/-- What the shape of a fragment says about its text, without what is around it. -/
def Shape.Spells (text : List Char) : Shape → Prop
  | .fault .. => True
  | .number _ => ∃ sign rest d, text = sign ++ rest ∧
      (sign = [] ∨ ∃ c, sign = [c] ∧ isPlusMinus c = true) ∧ Literal rest d
  | .name place => place.text = text ∧ isName text = true
  | .plus operand => text = '+' :: operand.text
  | .minus operand => text = '-' :: operand.text
  | .binary op left right => text = left.text ++ op.symbol :: right.text
  | .call word _ arguments => ∃ inside : Fragment, CallText word text inside.text ∧
      arguments = inside.arguments

section Spells

variable {f : Fragment}

theorem Fragment.operandShape_spells (f : Fragment) : f.operandShape.Spells f.text := by
  have after_sign : ∀ {c : Char}, f.text.head? = some c → f.text = c :: (f.after 0).text := by
    intro c hc
    obtain ⟨rest, hrest⟩ := List.head?_eq_some_iff.mp hc
    rw [Fragment.after, hrest]
    rfl
  unfold Fragment.operandShape
  split
  next n hn =>
    split
    next =>
      rcases splitSign_cases f.text with ⟨rest, ht, hs⟩ | ⟨rest, ht, hs⟩ | hs
      · obtain ⟨d, _, hliteral⟩ := Numeral.read?_signed hs hn
        exact ⟨['-'], rest, d, ht, Or.inr ⟨'-', rfl, rfl⟩, hliteral⟩
      · obtain ⟨d, _, hliteral⟩ := Numeral.read?_signed hs hn
        exact ⟨['+'], rest, d, ht, Or.inr ⟨'+', rfl, rfl⟩, hliteral⟩
      · obtain ⟨d, _, hliteral⟩ := Numeral.read?_signed hs hn
        exact ⟨[], f.text, d, rfl, Or.inl rfl, hliteral⟩
    next => trivial
  next =>
    split
    next hminus => exact after_sign hminus
    next =>
      split
      next hplus => exact after_sign hplus
      next =>
        split
        next name inside hcall =>
          split
          next hname => exact ⟨inside, Fragment.call?_callText hcall hname, rfl⟩
          next => trivial
        next =>
          split
          next hname => exact ⟨rfl, hname⟩
          next => trivial

theorem Fragment.shape_spells (f : Fragment) : f.shape.Spells f.strip.text := by
  unfold Fragment.shape
  simp only
  split
  · trivial
  · split
    next i op htop =>
      obtain ⟨u, v, ht, rfl, _⟩ := topOperator?_split htop
      simp [Shape.Spells, Fragment.before, Fragment.after, ht]
    next => exact f.strip.operandShape_spells

end Spells

/-- A space between the name of a call and its parenthesis. The name is registered, and it is not
the end of a longer word. -/
def InCallGap (registry : Registry) (before : List Char) (c : Char) (after : List Char) : Prop :=
  isSpace c = true ∧ ∃ u name left right v, before = u ++ name ++ left ∧ after = right ++ '(' :: v ∧
    isName name = true ∧ (registry.find? (String.ofList name)).isSome = true ∧
    (∀ d ∈ left ++ right, isSpace d = true) ∧ ∀ d, u.getLast? = some d → isWord d = false

/-- All characters of a text are those of tokens, blanks, or spaces between the name of a call and
its parenthesis. -/
def Legible (registry : Registry) (text : List Char) : Prop :=
  ∀ u c v, text = u ++ c :: v →
    isTokenChar c = true ∨ isBlank c = true ∨ InCallGap registry u c v

section Legible

variable {registry : Registry} {text u v before after : List Char} {c : Char}

theorem InCallGap.append (h : InCallGap registry before c after) (hu : OpensOperand u.reverse)
    (v : List Char) : InCallGap registry (u ++ before) c (after ++ v) := by
  obtain ⟨hc, w, name, left, right, later, rfl, rfl, hname, hfind, hgap, hw⟩ := h
  refine ⟨hc, u ++ w, name, left, right, later ++ v, by simp, by simp, hname, hfind, hgap, ?_⟩
  intro d hd
  rw [List.getLast?_append] at hd
  rcases Option.or_eq_some_iff.mp hd with hd | ⟨_, hd⟩
  · exact hw d hd
  · rw [← List.head?_reverse] at hd
    exact hu.isWord_head hd

theorem Legible.of_forall (h : ∀ c ∈ text, isTokenChar c = true ∨ isBlank c = true) :
    Legible registry text := by
  rintro u c v rfl
  exact (h c (by simp)).imp_right Or.inl

/-- A character of two texts in a row stands in the first or in the second. -/
theorem append_eq_split (h : u ++ v = before ++ c :: after) :
    (∃ w, u = before ++ c :: w ∧ after = w ++ v) ∨ ∃ w, before = u ++ w ∧ v = w ++ c :: after := by
  rcases List.append_eq_append_iff.mp h with ⟨w, hw, hv⟩ | ⟨w, hu, hw⟩
  · exact Or.inr ⟨w, hw, hv⟩
  · cases w with
    | nil => exact Or.inr ⟨[], by simpa using hu.symm, hw.symm⟩
    | cons d w =>
      obtain ⟨rfl, hafter⟩ := List.cons.inj hw
      exact Or.inl ⟨w, hu, hafter⟩

/-- A legible text may follow where an operand may begin. -/
theorem Legible.append (hu : Legible registry u) (hopens : OpensOperand u.reverse)
    (hv : Legible registry v) : Legible registry (u ++ v) := by
  intro before c after h
  rcases append_eq_split h with ⟨w, ht, rfl⟩ | ⟨w, rfl, ht⟩
  · exact (hu before c w ht).imp_right fun hc => hc.imp_right fun hgap =>
      hgap.append (u := []) .nil v
  · exact (hv w c after ht).imp_right fun hc => hc.imp_right fun hgap => by
      simpa using hgap.append hopens []

/-- Characters of tokens and blanks may follow any legible text. -/
theorem Legible.append_forall (hu : Legible registry u)
    (hv : ∀ c ∈ v, isTokenChar c = true ∨ isBlank c = true) : Legible registry (u ++ v) := by
  intro before c after h
  rcases append_eq_split h with ⟨w, ht, rfl⟩ | ⟨w, rfl, rfl⟩
  · exact (hu before c w ht).imp_right fun hc => hc.imp_right fun hgap =>
      hgap.append (u := []) .nil v
  · exact (hv c (by simp)).imp_right Or.inl

theorem Legible.blanks_append (hu : ∀ c ∈ u, isBlank c = true) (hv : Legible registry v) :
    Legible registry (u ++ v) := by
  have hopens : OpensOperand (u.reverse ++ []) :=
    OpensOperand.nil.blanks fun c hc => hu c (List.mem_reverse.mp hc)
  rw [List.append_nil] at hopens
  exact Legible.append (.of_forall fun c hc => Or.inr (hu c hc)) hopens hv

theorem isTokenChar_of_isOpener (h : isOpener c = true) : isTokenChar c = true := by
  rcases isOpener_cases h with rfl | rfl | rfl | rfl | rfl | rfl | rfl <;> decide

/-- Two legible texts with an operator, a `(` or a comma between them are legible. -/
theorem Legible.join (hu : Legible registry u) (hc : isOpener c = true)
    (hv : Legible registry v) : Legible registry (u ++ c :: v) := by
  have hleft : Legible registry (u ++ [c]) :=
    hu.append_forall (List.forall_mem_singleton.mpr (Or.inl (isTokenChar_of_isOpener hc)))
  have hopens : OpensOperand (u ++ [c]).reverse := by
    rw [List.reverse_append]
    exact .cons hc
  simpa using hleft.append hopens hv

theorem Legible.nil : Legible registry [] := .of_forall (by simp)

theorem Legible.group (h : Legible registry text) : Legible registry ('(' :: (text ++ [')'])) :=
  Legible.nil.join (c := '(') rfl (h.append_forall (List.forall_mem_singleton.mpr (Or.inl rfl)))

theorem isTokenChar_of_isMantissa (h : isMantissa c = true) : isTokenChar c = true := by
  simp only [isMantissa, Bool.or_eq_true, decide_eq_true_eq] at h
  rcases h with hdigit | rfl
  · simp [isTokenChar, Char.isAlphanum, hdigit]
  · rfl

theorem isTokenChar_of_isPlusMinus (h : isPlusMinus c = true) : isTokenChar c = true := by
  rcases isPlusMinus_cases h with rfl | rfl <;> rfl

theorem isTokenChar_of_name (h : c.isAlphanum = true ∨ c = '_') : isTokenChar c = true := by
  rcases h with halnum | rfl
  · simp [isTokenChar, halnum]
  · rfl

theorem Literal.isTokenChar {d : Decimal} (h : Literal text d) :
    ∀ c ∈ text, isTokenChar c = true := by
  obtain ⟨hm, hx⟩ := h
  refine List.forall_mem_append.mpr ⟨fun c hc => isTokenChar_of_isMantissa (hm.chars.1 c hc), ?_⟩
  rcases hx.text_cases with rfl | ⟨letter, sign, ds, rfl, hletter, hsign, hds⟩
  · simp
  · refine List.forall_mem_cons.mpr ⟨?_, List.forall_mem_append.mpr ⟨?_, ?_⟩⟩
    · rcases hletter with rfl | rfl <;> rfl
    · rcases hsign with rfl | ⟨c, rfl, hc⟩
      · simp
      · exact List.forall_mem_singleton.mpr (isTokenChar_of_isPlusMinus hc)
    · exact fun c hc => isTokenChar_of_isMantissa (hds.isMantissa c hc)

theorem Legible.call {word : String} {inside : List Char} (h : CallText word text inside)
    (hfind : (registry.find? word).isSome = true) (hinside : Legible registry inside) :
    Legible registry text := by
  obtain ⟨name, spaces, hname, rfl, hspaces, rfl⟩ := h
  have hhead : Legible registry (name ++ (spaces ++ ['('])) := by
    intro before c after hsplit
    rcases append_eq_split hsplit with ⟨w, ht, _⟩ | ⟨w, rfl, ht⟩
    · exact Or.inl (isTokenChar_of_name (isName_chars hname c (by simp [ht])))
    rcases append_eq_split ht with ⟨x, hs, rfl⟩ | ⟨x, _, hx⟩
    · refine Or.inr (Or.inr ⟨hspaces c (by simp [hs]), [], name, w, x, [], by simp, rfl, hname,
        hfind, ?_, by simp⟩)
      exact fun d hd => hspaces d (by rw [hs]; grind)
    · have hc : c ∈ ['('] := by simp [hx]
      rw [List.mem_singleton.mp hc]
      exact Or.inl rfl
  have hopens : OpensOperand (name ++ (spaces ++ ['('])).reverse := by
    rw [← List.append_assoc, List.reverse_append]
    exact .cons rfl
  have hrest : Legible registry (inside ++ [')']) :=
    hinside.append_forall (List.forall_mem_singleton.mpr (Or.inl rfl))
  simpa using hhead.append hopens hrest

end Legible

section Fragment

variable {registry : Registry} {f : Fragment}

/-- What is around a fragment is blanks and parentheses. -/
theorem Legible.of_strip (h : Legible registry f.strip.text) : Legible registry f.text := by
  induction f using Fragment.lengthInduction with
  | shorter f ih =>
    obtain ⟨u, v, ht, hu, hv⟩ := trim_sub isBlank f.text
    have htrim : Legible registry f.trim.text → Legible registry f.text := by
      intro htrim
      rw [ht, List.append_assoc]
      exact .blanks_append hu (htrim.append_forall fun c hc => Or.inr (hv c hc))
    rcases f.strip_cases with ⟨inside, hgroup, hs⟩ | hs
    · have hlen := f.trim_length_le
      rw [hgroup] at hlen
      simp only [List.length_cons, List.length_append] at hlen
      rw [hs] at h
      have hinside : Legible registry inside :=
      ih ⟨f.trim.offset + 1, inside⟩ (by simp only; omega) h
      exact htrim (hgroup ▸ hinside.group)
    · exact htrim (hs ▸ h)

theorem Legible.of_pieces (h : ∀ g ∈ f.pieces, Legible registry g.text) :
    Legible registry f.text := by
  induction f using Fragment.piecesInduction with
  | single f hp => exact h f (by rw [hp]; exact List.mem_cons_self)
  | more f u v ht _ hp ih =>
    rw [hp] at h
    obtain ⟨hu, hlater⟩ := List.forall_mem_cons.mp h
    rw [ht]
    exact hu.join rfl (ih hlater)

theorem Legible.of_arguments (h : ∀ g ∈ f.arguments, Legible registry g.text) :
    Legible registry f.text := by
  rw [Fragment.arguments_eq] at h
  split at h
  next hblank => exact .of_forall fun c hc => Or.inr (List.all_eq_true.mp hblank c hc)
  next => exact .of_pieces h

theorem Outline.resolveAll_mem {outlines : List Outline} {operands : List Term} {b c : Bindings}
    (h : (Outline.resolveAll registry outlines).run b = .ok (operands, c)) :
    ∀ o ∈ outlines, ∃ t before after, (o.resolve registry).run before = .ok (t, after) := by
  induction outlines generalizing b operands with
  | nil => simp
  | cons o rest ih =>
    obtain ⟨x, xs, middle, hx, hxs, _⟩ := Outline.resolveAll_cons_eq_ok.mp h
    exact List.forall_mem_cons.mpr ⟨⟨x, b, middle, hx⟩, ih hxs⟩

/-- By induction along the parts: what a fragment has besides its parts are tokens, blanks and the
spaces of a call. -/
theorem Fragment.resolve_legible {b c : Bindings} {t : Term}
    (h : (f.outline.resolve registry).run b = .ok (t, c)) : Legible registry f.text := by
  induction f using Fragment.partsInduction generalizing b c t with
  | whole f ih =>
    apply Legible.of_strip
    have hspells := f.shape_spells
    rw [Fragment.outline_eq] at h
    cases hs : f.shape with
    | fault cause place =>
      rw [hs] at h
      exact absurd h Outline.resolve_fault_ne_ok
    | number value =>
      rw [hs] at hspells
      obtain ⟨sign, rest, d, ht, hsign, hliteral⟩ := hspells
      rw [ht]
      refine .of_forall (List.forall_mem_append.mpr
        ⟨?_, fun c hc => Or.inl (hliteral.isTokenChar c hc)⟩)
      rcases hsign with rfl | ⟨c, rfl, hc⟩
      · simp
      · exact List.forall_mem_singleton.mpr (Or.inl (isTokenChar_of_isPlusMinus hc))
    | name place =>
      rw [hs] at hspells
      exact .of_forall fun c hc => Or.inl (isTokenChar_of_name (isName_chars hspells.2 c hc))
    | plus operand =>
      rw [hs] at h ih hspells
      have hoperand := ih operand (by simp [Shape.parts]) h
      rw [hspells]
      exact Legible.nil.join (c := '+') rfl hoperand
    | minus operand =>
      rw [hs] at h ih hspells
      obtain ⟨x, hx, _⟩ := Outline.resolve_minus_eq_ok.mp h
      have hoperand := ih operand (by simp [Shape.parts]) hx
      rw [hspells]
      exact Legible.nil.join (c := '-') rfl hoperand
    | binary op left right =>
      rw [hs] at h ih hspells
      obtain ⟨x, y, middle, hx, hy, _⟩ := Outline.resolve_binary_eq_ok.mp h
      have hleft := ih left (by simp [Shape.parts]) hx
      have hright := ih right (by simp [Shape.parts]) hy
      rw [hspells]
      exact hleft.join op.isOpener_symbol hright
    | call word place arguments =>
      rw [hs] at h ih hspells
      obtain ⟨inside, hcall, rfl⟩ := hspells
      obtain ⟨provider, operands, middle, hfind, hall, _⟩ := Outline.resolve_call_eq_ok.mp h
      refine .call hcall (by rw [hfind]; rfl) (.of_arguments fun g hg => ?_)
      obtain ⟨x, before, after, hx⟩ :=
        Outline.resolveAll_mem hall g.outline (List.mem_map_of_mem hg)
      exact ih g hg hx

end Fragment

/-- All that is read of a text is made of the characters of tokens and blanks, with one exception:
between the name of a call and its parenthesis any spaces may stand, also those that are no
blanks. -/
theorem Formula.parse_legible {registry : Registry} {source : String} {f : Formula}
    (h : Formula.parse registry source = .ok f) {u v : List Char} {c : Char}
    (hsource : source.toList = u ++ c :: v) :
    isTokenChar c = true ∨ isBlank c = true ∨ InCallGap registry u c v := by
  obtain ⟨_, root, arguments, hresolve, _⟩ := Formula.parse_eq_ok.mp h
  exact Fragment.resolve_legible (f := .ofString source) hresolve u c v hsource

/-- A line tabulation and a no-break space stand before the parenthesis. -/
def spacedCall : Formula :=
  ⟨⟨"low*max\x0b\u00a0(low, high)", .binary .mul (.argument "low" 0)
      (.call ⟨"max", greatest⟩ [.argument "low" 0, .argument "high" 1]),
    ⟨[("low", 0), ("high", 0)]⟩, 2, none⟩, .math⟩

theorem parse_spacedCall :
    Formula.parse .math "low*max\x0b\u00a0(low, high)" = .ok spacedCall := by
  with_unfolding_all rfl

theorem spacedCall_legible :
    Formula.parse .math "low*max\x0b\u00a0(low, high)" = .ok spacedCall ∧
      "low*max\x0b\u00a0(low, high)".toList =
        "low*max\x0b".toList ++ '\u00a0' :: "(low, high)".toList ∧
      InCallGap .math "low*max\x0b".toList '\u00a0' "(low, high)".toList := by
  have hlegible := Formula.parse_legible parse_spacedCall (u := "low*max\x0b".toList)
    (c := '\u00a0') (v := "(low, high)".toList) rfl
  exact ⟨parse_spacedCall, rfl, (hlegible.resolve_left (by decide)).resolve_left (by decide)⟩

/-- Neither is a character of a token nor a blank, and the text is parsed all the same. -/
theorem spaces_skipped :
    ∃ f, Formula.parse .math "low*max\x0b\u00a0(low, high)" = .ok f ∧
      ∀ c ∈ ['\x0b', '\u00a0'], c ∈ "low*max\x0b\u00a0(low, high)".toList ∧
        isTokenChar c = false ∧ isBlank c = false :=
  ⟨spacedCall, parse_spacedCall, List.forall_mem_cons.mpr
    ⟨by decide, List.forall_mem_singleton.mpr (by decide)⟩⟩

end Formulary
