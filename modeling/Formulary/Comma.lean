import Formulary.Parentheses

namespace Formulary

/-- The pieces of a text between its commas outside of groups, the first one and the others. -/
def commaPieces (depth : Nat) : List Char → List Char × List (List Char)
  | [] => ([], [])
  | c :: rest =>
    let (first, others) := commaPieces (depthAfter depth c) rest
    if c = ',' ∧ depth = 0 then ([], first :: others) else (c :: first, others)

theorem commaPieces_length_le {depth : Nat} {text piece : List Char}
    (h : piece ∈ (commaPieces depth text).1 :: (commaPieces depth text).2) :
    piece.length ≤ text.length := by
  induction text generalizing depth piece with
  | nil => simp_all [commaPieces]
  | cons c rest ih =>
    have hi : ∀ q ∈ (commaPieces (depthAfter depth c) rest).1 ::
        (commaPieces (depthAfter depth c) rest).2, q.length ≤ rest.length := fun q hq => ih hq
    simp only [commaPieces] at h
    split at h
    · rcases List.mem_cons.mp h with rfl | hm
      · simp
      · exact Nat.le_succ_of_le (hi piece hm)
    · rcases List.mem_cons.mp h with rfl | hm
      · simpa using hi _ (by simp)
      · exact Nat.le_succ_of_le (hi piece (List.mem_cons_of_mem _ hm))

/-- Places texts one after the other, with one byte between neighbours. -/
def placeFrom (offset : Nat) : List (List Char) → List Fragment
  | [] => []
  | text :: rest => ⟨offset, text⟩ :: placeFrom (offset + textSize text + 1) rest

theorem mem_placeFrom {offset : Nat} {texts : List (List Char)} {f : Fragment}
    (h : f ∈ placeFrom offset texts) : f.text ∈ texts := by
  induction texts generalizing offset with
  | nil => simp [placeFrom] at h
  | cons text rest ih =>
    rcases List.mem_cons.mp h with rfl | hm
    · simp
    · exact List.mem_cons_of_mem _ (ih hm)

/-- The arguments written in the parentheses of a call. Blanks alone are no argument. -/
def Fragment.arguments (f : Fragment) : List Fragment :=
  if f.text.all isBlank then []
  else
    let (first, others) := commaPieces 0 f.text
    placeFrom f.offset (first :: others)

theorem Fragment.arguments_length_le {f g : Fragment} (h : g ∈ f.arguments) :
    g.text.length ≤ f.text.length := by
  unfold Fragment.arguments at h
  split at h
  · simp at h
  · exact commaPieces_length_le (mem_placeFrom h)

end Formulary
