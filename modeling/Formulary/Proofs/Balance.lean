import Formulary.Comma
import Formulary.Mask
import Formulary.Proofs.TrimmedText

namespace Formulary

/-- A text whose parentheses have partners within it. -/
inductive Balanced : List Char → Prop
  | nil : Balanced []
  | char {c : Char} {text : List Char} : c ≠ '(' → c ≠ ')' → Balanced text → Balanced (c :: text)
  | group {inside text : List Char} : Balanced inside → Balanced text →
    Balanced ('(' :: (inside ++ ')' :: text))

/-- How many groups are open after a text. -/
def depthBehind (depth : Nat) (text : List Char) : Nat := text.foldl depthAfter depth

theorem depthAfter_open (depth : Nat) : depthAfter depth '(' = depth + 1 := rfl

theorem depthAfter_close (depth : Nat) : depthAfter depth ')' = depth - 1 := rfl

theorem depthAfter_of_ne {c : Char} (depth : Nat) (ho : c ≠ '(') (hc : c ≠ ')') :
    depthAfter depth c = depth := by
  simp [depthAfter, ho, hc]

theorem depthAfter_succ {depth : Nat} {c : Char} (h : ¬(c = ')' ∧ depth = 0)) :
    depthAfter (depth + 1) c = depthAfter depth c + 1 := by
  unfold depthAfter
  split
  · rfl
  · split
    next hc =>
      have : depth ≠ 0 := fun h0 => h ⟨hc, h0⟩
      omega
    · rfl

theorem depthBehind_append (depth : Nat) (u v : List Char) :
    depthBehind depth (u ++ v) = depthBehind (depthBehind depth u) v :=
  List.foldl_append

theorem depthBehind_cons (depth : Nat) (c : Char) (text : List Char) :
    depthBehind depth (c :: text) = depthBehind (depthAfter depth c) text := rfl

section Unmatched

variable {opened : List Fragment} {offset : Nat} {rest : List Char}

theorem unmatched?_char {c : Char} (ho : c ≠ '(') (hc : c ≠ ')') :
    unmatched? opened offset (c :: rest) = unmatched? opened (offset + c.utf8Size) rest := by
  cases opened <;> simp [unmatched?, ho, hc]

theorem unmatched?_open :
    unmatched? opened offset ('(' :: rest) =
      unmatched? (⟨offset, '(' :: rest⟩ :: opened) (offset + '('.utf8Size) rest := by
  cases opened <;> simp [unmatched?]

theorem unmatched?_close {f : Fragment} :
    unmatched? (f :: opened) offset (')' :: rest) =
      unmatched? opened (offset + ')'.utf8Size) rest := by
  simp [unmatched?]

end Unmatched

namespace Balanced

variable {u v : List Char}

theorem append (hu : Balanced u) (hv : Balanced v) : Balanced (u ++ v) := by
  induction hu with
  | nil => exact hv
  | char ho hc _ ih => exact .char ho hc ih
  | group hi _ _ ih => simpa using Balanced.group hi ih

theorem of_forall (h : ∀ c ∈ u, c ≠ '(' ∧ c ≠ ')') : Balanced u := by
  induction u with
  | nil => exact .nil
  | cons c rest ih =>
    obtain ⟨hc, hrest⟩ := List.forall_mem_cons.mp h
    exact .char hc.1 hc.2 (ih hrest)

theorem depthBehind_eq (h : Balanced u) (depth : Nat) : depthBehind depth u = depth := by
  induction h generalizing depth with
  | nil => rfl
  | char ho hc _ ih => rw [depthBehind_cons, depthAfter_of_ne depth ho hc, ih]
  | group _ _ ihi ih =>
    rw [depthBehind_cons, depthBehind_append, ihi, depthBehind_cons, depthAfter_open,
      depthAfter_close, Nat.add_sub_cancel, ih]

theorem splitGroup_append (h : Balanced u) (depth : Nat) (v : List Char) :
    splitGroup depth (u ++ v) = (splitGroup depth v).map fun group => (u ++ group.1, group.2) := by
  induction h generalizing depth v with
  | nil => simp
  | @char c text ho hc _ ih =>
    rw [List.cons_append, splitGroup, if_neg (by simp [hc]), depthAfter_of_ne depth ho hc, ih,
      Option.map_map]
    rfl
  | @group inside text _ _ ihi ih =>
    rw [List.cons_append, splitGroup, if_neg (by simp), depthAfter_open, List.append_assoc, ihi,
      List.cons_append, splitGroup, if_neg (by simp), depthAfter_close, Nat.add_sub_cancel, ih]
    simp [Option.map_map, Function.comp_def]

theorem splitGroup_close (h : Balanced u) (rest : List Char) :
    splitGroup 0 (u ++ ')' :: rest) = some (u, rest) := by
  rw [h.splitGroup_append, splitGroup, if_pos ⟨rfl, rfl⟩]
  simp

theorem unmatched?_append (h : Balanced u) (opened : List Fragment) (offset : Nat)
    (v : List Char) :
    unmatched? opened offset (u ++ v) = unmatched? opened (offset + textSize u) v := by
  induction h generalizing opened offset v with
  | nil => rfl
  | @char c text ho hc _ ih =>
    rw [List.cons_append, unmatched?_char ho hc, ih, textSize, Nat.add_assoc]
  | @group inside text _ _ ihi ih =>
    rw [List.cons_append, unmatched?_open, List.append_assoc, ihi, List.cons_append,
      unmatched?_close, ih]
    congr 1
    simp only [textSize, textSize_append, show '('.utf8Size = 1 from rfl,
      show ')'.utf8Size = 1 from rfl]
    omega

end Balanced

end Formulary
