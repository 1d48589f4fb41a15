import Formulary.Outline
import Formulary.Proofs.LiteralText
import Formulary.Proofs.NameText

namespace Formulary

def Shape.outline : Shape → Outline
  | .fault cause place => .fault cause place
  | .number value => .number value
  | .name place => .name place
  | .plus operand => operand.outline
  | .minus operand => .minus operand.outline
  | .binary op left right => .binary op left.outline right.outline
  | .call word place arguments => .call word place (arguments.map Fragment.outline)

namespace Fragment

variable {f : Fragment} {rest inside text : List Char}

theorem outline_eq (f : Fragment) : f.outline = f.shape.outline := by
  rw [Fragment.outline]
  split
  all_goals next h => simp [h, Shape.outline]

theorem strip_of_group (ht : f.trim.text = '(' :: rest)
    (hg : splitGroup 0 rest = some (inside, [])) :
    f.strip = Fragment.strip ⟨f.trim.offset + 1, inside⟩ := by
  rw [Fragment.strip]
  split
  next rest' ht' =>
    obtain rfl : rest' = rest := (List.cons.inj (ht'.symm.trans ht)).2
    split
    next inside' hg' =>
      obtain rfl : inside' = inside := (Prod.mk.inj (Option.some.inj (hg'.symm.trans hg))).1
      rfl
    next hn => exact absurd hg (hn inside)
  next hn => exact absurd ht (hn rest)

theorem strip_of_not_group (h : ∀ rest inside, f.trim.text = '(' :: rest →
    splitGroup 0 rest ≠ some (inside, [])) : f.strip = f.trim := by
  rw [Fragment.strip]
  split
  next rest ht =>
    split
    next inside hg => exact absurd hg (h rest inside ht)
    next => rfl
  next => rfl

/-- Either a group is stripped, or the fragment is only trimmed. -/
theorem strip_cases (f : Fragment) :
    (∃ inside, f.trim.text = '(' :: (inside ++ [')']) ∧
      f.strip = Fragment.strip ⟨f.trim.offset + 1, inside⟩) ∨ f.strip = f.trim := by
  rw [Fragment.strip]
  split
  next rest ht =>
    split
    next inside hg => exact Or.inl ⟨inside, by rw [ht, splitGroup_eq hg], rfl⟩
    next => exact Or.inr rfl
  next => exact Or.inr rfl

theorem strip_of_head {c : Char} (ht : f.trim.text = c :: rest) (hc : c ≠ '(') :
    f.strip = f.trim := by
  rcases f.strip_cases with ⟨inside, hg, _⟩ | h
  · exact absurd (List.cons.inj (ht.symm.trans hg)).1 hc
  · exact h

theorem strip_of_shown {c : Char} (h : some c ∈ mask f.trim.text) : f.strip = f.trim := by
  rw [Fragment.strip]
  split
  next rest ht =>
    split
    next inside hg => exact absurd (ht ▸ h) (mask_group hg c)
    next => rfl
  next => rfl

theorem shape_of_strip {g : Fragment} (h : f.strip = g.strip) : f.shape = g.shape := by
  rw [Fragment.shape, Fragment.shape, h]

theorem shape_of_operator {i : Nat} {op : Operator} (hs : f.strip = f.trim)
    (ht : topOperator? f.trim.text = some (i, op)) :
    f.shape = .binary op (f.trim.before i) (f.trim.after i) := by
  have hne : f.trim.text ≠ [] := by
    intro hnil
    have := topOperator?_lt ht
    rw [hnil] at this
    simp at this
  rw [Fragment.shape, hs]
  simp only [hne, if_false, ht]

theorem shape_of_operand (hs : f.strip = f.trim) (hne : f.trim.text ≠ [])
    (ht : topOperator? f.trim.text = none) : f.shape = f.trim.operandShape := by
  rw [Fragment.shape, hs]
  simp only [hne, if_false, ht]

theorem operandShape_of_numeral {n : Numeral} (h : Numeral.read? f.text = some n) :
    f.operandShape = if n.inRange then .number n.value else .fault .literalOutOfRange f := by
  rw [Fragment.operandShape, h]

theorem operandShape_of_minus (hn : Numeral.read? f.text = none) (ht : f.text = '-' :: rest) :
    f.operandShape = .minus (f.after 0) := by
  rw [Fragment.operandShape, hn]
  simp [ht]

theorem operandShape_of_plus (hn : Numeral.read? f.text = none) (ht : f.text = '+' :: rest) :
    f.operandShape = .plus (f.after 0) := by
  rw [Fragment.operandShape, hn]
  simp [ht]

theorem operandShape_of_call {c : Char} {name : List Char} {g : Fragment}
    (hn : Numeral.read? f.text = none) (ht : f.text = c :: rest) (hm : c ≠ '-') (hp : c ≠ '+')
    (hcall : f.call? = some (name, g)) (hname : isName name = true) :
    f.operandShape = .call (String.ofList name) f g.arguments := by
  rw [Fragment.operandShape, hn, hcall]
  simp [ht, hm, hp, hname]

theorem operandShape_of_name {c : Char} (hn : Numeral.read? f.text = none)
    (ht : f.text = c :: rest) (hm : c ≠ '-') (hp : c ≠ '+') (hcall : f.call? = none)
    (hname : isName f.text = true) : f.operandShape = .name f := by
  rw [Fragment.operandShape, hn, hcall]
  rw [ht] at hname
  simp [ht, hm, hp, hname]

section Call

variable {i : Nat} (hi : f.text.findIdx? (· = '(') = some i)

include hi

theorem call?_of_group (hs : splitGroup 0 (f.text.drop (i + 1)) = some (inside, [])) :
    f.call? = some (trimEnd isSpace (f.text.take i), ⟨f.offsetAt (i + 1), inside⟩) := by
  rw [Fragment.call?, hi]
  simp [hs]

theorem call?_of_not_group (hs : ∀ inside, splitGroup 0 (f.text.drop (i + 1)) ≠ some (inside, [])) :
    f.call? = none := by
  cases hcall : f.call? with
  | none => rfl
  | some call =>
    rw [Fragment.call?, hi, Option.bind_eq_bind, Option.bind_some] at hcall
    obtain ⟨⟨inside, later⟩, hg, h⟩ := Option.bind_eq_some_iff.mp hcall
    cases later with
    | nil => exact absurd hg (hs inside)
    | cons c rest => simp at h

end Call

/-- A call is what ends with the partner of its first parenthesis. -/
theorem call?_append {u : List Char} (ht : f.text = u ++ '(' :: (text ++ [')']))
    (hu : ∀ c ∈ u, c ≠ '(') (hbal : Balanced text) :
    f.call? = some (trimEnd isSpace u, ⟨f.offsetAt (u.length + 1), text⟩) := by
  have hfind : f.text.findIdx? (· = '(') = some u.length := by
    have hnone : u.findIdx? (fun c => decide (c = '(')) = none :=
      List.findIdx?_eq_none_iff.mpr fun c hc => by simpa using hu c hc
    rw [ht, List.findIdx?_append, hnone]
    simp [List.findIdx?_cons]
  have htake : f.text.take u.length = u := by rw [ht, List.take_left]
  have hdrop : f.text.drop (u.length + 1) = text ++ [')'] := by
    rw [ht, List.drop_append]
    simp
  rw [call?_of_group hfind (hdrop ▸ hbal.splitGroup_close []), htake]

theorem call?_eq_some {name : List Char} {g : Fragment} (h : f.call? = some (name, g)) :
    ∃ u, f.text = u ++ '(' :: (g.text ++ [')']) ∧ name = trimEnd isSpace u ∧
      g.offset = f.offset + textSize (u ++ ['(']) := by
  unfold Fragment.call? at h
  obtain ⟨i, hi, h⟩ := Option.bind_eq_some_iff.mp h
  obtain ⟨⟨inside, later⟩, hg, h⟩ := Option.bind_eq_some_iff.mp h
  cases later with
  | nil =>
    obtain ⟨rfl, rfl⟩ := Prod.mk.inj (Option.some.inj h)
    obtain ⟨hlt, hopen, _⟩ := List.findIdx?_eq_some_iff_getElem.mp hi
    have hchar : f.text[i] = '(' := of_decide_eq_true hopen
    have htext : f.text = f.text.take i ++ f.text[i] :: f.text.drop (i + 1) := by simp
    refine ⟨f.text.take i, ?_, rfl, ?_⟩
    · rw [← splitGroup_eq hg, ← hchar]
      exact htext
    · rw [Fragment.offsetAt, List.take_succ_eq_append_getElem hlt, hchar]
  | cons c rest => simp at h

end Fragment

end Formulary
