import Formulary.Operator
import Formulary.Parentheses
import Formulary.Sign

namespace Formulary

/-- Hides what cannot be a binary operator of the text itself: groups in parentheses and signs.
`before` is the reversed text to the left, and `depth` the number of groups open there. -/
def maskFrom (before : List Char) (depth : Nat) : List Char → List (Option Char)
  | [] => []
  | c :: rest =>
    let hidden := 0 < depth ∨ c = '(' ∨ (isPlusMinus c ∧ isSignAfter before)
    (if hidden then none else some c) :: maskFrom (c :: before) (depthAfter depth c) rest

def mask (text : List Char) : List (Option Char) := maskFrom [] 0 text

theorem maskFrom_length (before : List Char) (depth : Nat) (text : List Char) :
    (maskFrom before depth text).length = text.length := by
  induction text generalizing before depth with
  | nil => rfl
  | cons c rest ih => simp [maskFrom, ih]

def shows (ops : List Char) (shown : Option Char) : Bool := shown.any ops.contains

def lastIdx? {α : Type} (p : α → Bool) : List α → Option Nat
  | [] => none
  | a :: rest => ((lastIdx? p rest).map (· + 1)).or (if p a then some 0 else none)

theorem lt_length_of_lastIdx? {α : Type} {p : α → Bool} {xs : List α} {i : Nat}
    (h : lastIdx? p xs = some i) : i < xs.length := by
  induction xs generalizing i with
  | nil => simp [lastIdx?] at h
  | cons a rest ih =>
    simp only [lastIdx?, Option.or_eq_some_iff, Option.map_eq_some_iff] at h
    rcases h with ⟨j, hj, rfl⟩ | ⟨_, hp⟩
    · simpa using ih hj
    · split at hp <;> simp at hp
      simp [← hp]

/-- The position of the operator that binds last.
Sums and products group to the left, so theirs is the last one; powers group to the right. -/
def topOperatorIdx? (shown : List (Option Char)) : Option Nat :=
  (lastIdx? (shows ['+', '-']) shown).or
    ((lastIdx? (shows ['*', '/']) shown).or (shown.findIdx? (shows ['^'])))

theorem lt_length_of_topOperatorIdx? {shown : List (Option Char)} {i : Nat}
    (h : topOperatorIdx? shown = some i) : i < shown.length := by
  simp only [topOperatorIdx?, Option.or_eq_some_iff] at h
  rcases h with h | ⟨_, h | ⟨_, h⟩⟩
  · exact lt_length_of_lastIdx? h
  · exact lt_length_of_lastIdx? h
  · exact (List.findIdx?_eq_some_iff_getElem.mp h).1

def topOperator? (text : List Char) : Option (Nat × Operator) := do
  let i ← topOperatorIdx? (mask text)
  let op ← text[i]?.bind Operator.ofSymbol?
  return (i, op)

/-- The mask of a text as a text of the same size, with `#` for what is hidden. -/
def maskedText (text : List Char) : List Char :=
  (text.zip (mask text)).flatMap fun (c, shown) => match shown with
    | some c => [c]
    | none => List.replicate c.utf8Size '#'

end Formulary
