import Formulary.Comma
import Formulary.Mask
import Formulary.Numeral

namespace Formulary

/-- A name of an argument or of an extension: `[A-Za-z_][A-Za-z0-9_]*`. -/
def isName : List Char → Bool
  | [] => false
  | c :: rest => (c.isAlpha || c = '_') && rest.all fun d => d.isAlphanum || d = '_'

/-- What a fragment is at its outermost level, with the fragments that its meaning is made of. -/
inductive Shape where
  | fault (fault : Fault) (place : Fragment)
  | number (value : Float)
  | name (place : Fragment)
  | plus (operand : Fragment)
  | minus (operand : Fragment)
  | binary (op : Operator) (left right : Fragment)
  | call (name : String) (place : Fragment) (arguments : List Fragment)

def Shape.parts : Shape → List Fragment
  | .plus operand | .minus operand => [operand]
  | .binary _ left right => [left, right]
  | .call _ _ arguments => arguments
  | .fault .. | .number _ | .name _ => []

/-- The name and the argument text of a fragment that ends with the partner of its first `(`. -/
def Fragment.call? (f : Fragment) : Option (List Char × Fragment) := do
  let i ← f.text.findIdx? (· = '(')
  let (inside, []) ← splitGroup 0 (f.text.drop (i + 1)) | none
  return (trimEnd isSpace (f.text.take i), ⟨f.offsetAt (i + 1), inside⟩)

/-- The shape of a fragment without binary operators of its own. -/
def Fragment.operandShape (f : Fragment) : Shape :=
  match Numeral.read? f.text with
  | some n => if n.inRange then .number n.value else .fault .literalOutOfRange f
  | none =>
    if f.text.head? = some '-' then .minus (f.after 0)
    else if f.text.head? = some '+' then .plus (f.after 0)
    else match f.call? with
      | some (name, inside) =>
        if isName name then .call (String.ofList name) f inside.arguments
        else .fault .invalidExtensionName f
      | none =>
        if isName f.text then .name f else .fault .invalidToken f

def Fragment.shape (f : Fragment) : Shape :=
  let inner := f.strip
  if inner.text = [] then .fault .emptyOperand inner
  else match topOperator? inner.text with
    | some (i, op) => .binary op (inner.before i) (inner.after i)
    | none => inner.operandShape

theorem Fragment.strip_length_le (f : Fragment) : f.strip.text.length ≤ f.text.length := by
  fun_induction Fragment.strip f with
  | case1 f inner rest ht inside hg ih =>
    have hl := f.trim_length_le
    have hc := congrArg List.length ht
    simp [splitGroup_eq hg] at hc
    simp only [inner] at hc
    simp only at ih
    omega
  | case2 f inner => exact f.trim_length_le
  | case3 f inner => exact f.trim_length_le

theorem Fragment.call?_length_lt {f inside : Fragment} {name : List Char}
    (h : f.call? = some (name, inside)) : inside.text.length < f.text.length := by
  unfold Fragment.call? at h
  obtain ⟨i, hi, h⟩ := Option.bind_eq_some_iff.mp h
  obtain ⟨⟨text, rest⟩, hs, h⟩ := Option.bind_eq_some_iff.mp h
  have hd := congrArg List.length (splitGroup_eq hs)
  simp at hd
  cases rest with
  | nil =>
    obtain ⟨_, rfl⟩ := Prod.mk.inj (Option.some.inj h)
    simp only; omega
  | cons c rest => cases h

theorem topOperator?_lt {text : List Char} {i : Nat} {op : Operator}
    (h : topOperator? text = some (i, op)) : i < text.length := by
  obtain ⟨j, hj, h⟩ := Option.bind_eq_some_iff.mp h
  obtain ⟨o, _, h⟩ := Option.bind_eq_some_iff.mp h
  obtain ⟨rfl, _⟩ := Prod.mk.inj (Option.some.inj h)
  have hl := lt_length_of_topOperatorIdx? hj
  rwa [mask, maskFrom_length] at hl

theorem Fragment.operandShape_parts_length_lt {f g : Fragment} (hf : f.text ≠ [])
    (h : g ∈ f.operandShape.parts) : g.text.length < f.text.length := by
  have hp := List.length_pos_iff.mpr hf
  unfold Fragment.operandShape at h
  repeat' split at h
  all_goals simp only [Shape.parts, List.mem_cons, List.not_mem_nil, or_false] at h
  · subst h; simp [Fragment.after]; omega
  · subst h; simp [Fragment.after]; omega
  · next hc _ =>
    exact Nat.lt_of_le_of_lt (Fragment.arguments_length_le h) (Fragment.call?_length_lt hc)

theorem Fragment.shape_parts_length_lt {f g : Fragment} (h : g ∈ f.shape.parts) :
    g.text.length < f.text.length := by
  have hs := f.strip_length_le
  unfold Fragment.shape at h
  simp only at h
  split at h
  · simp [Shape.parts] at h
  next hne =>
    split at h
    next i op ht =>
      have hi := topOperator?_lt ht
      simp only [Shape.parts, List.mem_cons, List.not_mem_nil, or_false] at h
      rcases h with rfl | rfl <;> simp [Fragment.before, Fragment.after] <;> omega
    next => exact Nat.lt_of_lt_of_le (Fragment.operandShape_parts_length_lt hne h) hs

end Formulary
