import Formulary.Proofs.Phrase

namespace Formulary

theorem Fragment.lengthInduction {motive : Fragment → Prop}
    (shorter : ∀ f : Fragment,
      (∀ g : Fragment, g.text.length < f.text.length → motive g) → motive f)
    (f : Fragment) : motive f := by
  induction hn : f.text.length using Nat.strong_induction_on generalizing f with
  | _ n ih => exact shorter f fun g hg => ih g.text.length (hn ▸ hg) g rfl

/-- The pieces of a fragment between its commas outside of groups. -/
def Fragment.pieces (f : Fragment) : List Fragment :=
  placeFrom f.offset ((commaPieces 0 f.text).1 :: (commaPieces 0 f.text).2)

theorem Fragment.arguments_eq (f : Fragment) :
    f.arguments = if f.text.all isBlank then [] else f.pieces := rfl

/-- A text without a comma that shows stays in one piece with what follows it. -/
theorem commaPieces_append {before u v : List Char} {depth : Nat}
    (h : some ',' ∉ maskFrom before depth u) :
    commaPieces depth (u ++ v) =
      (u ++ (commaPieces (depthBehind depth u) v).1, (commaPieces (depthBehind depth u) v).2) := by
  induction u generalizing before depth with
  | nil => rfl
  | cons c rest ih =>
    rw [maskFrom, List.mem_cons, not_or] at h
    have hc : ¬(c = ',' ∧ depth = 0) := by
      rintro ⟨rfl, rfl⟩
      have hhead := h.1
      rw [if_neg (by simp [isPlusMinus])] at hhead
      exact hhead rfl
    rw [List.cons_append, commaPieces, ih h.2, depthBehind_cons]
    simp only [hc, if_false, List.cons_append]

/-- A text is in one piece, or it is cut at a comma outside of groups. -/
theorem commaPieces_cases (depth : Nat) (text : List Char) :
    commaPieces depth text = (text, []) ∨
      ∃ u v, text = u ++ ',' :: v ∧ depthBehind depth u = 0 ∧
        commaPieces depth text = (u, (commaPieces 0 v).1 :: (commaPieces 0 v).2) := by
  induction text generalizing depth with
  | nil => exact Or.inl rfl
  | cons c rest ih =>
    by_cases hc : c = ',' ∧ depth = 0
    · obtain ⟨rfl, rfl⟩ := hc
      refine Or.inr ⟨[], rest, rfl, rfl, ?_⟩
      simp [commaPieces, depthAfter]
    · rcases ih (depthAfter depth c) with h | ⟨u, v, rfl, hu, h⟩
      · exact Or.inl (by simp only [commaPieces, h, hc, if_false])
      · refine Or.inr ⟨c :: u, v, rfl, hu, ?_⟩
        simp only [commaPieces, h, hc, if_false]

namespace Fragment

variable {f : Fragment} {level : Level} {text rest : List Char}

theorem pieces_cases (f : Fragment) :
    f.pieces = [f] ∨ ∃ u v, f.text = u ++ ',' :: v ∧ depthBehind 0 u = 0 ∧
      f.pieces = ⟨f.offset, u⟩ :: Fragment.pieces ⟨f.offset + textSize u + 1, v⟩ := by
  rcases commaPieces_cases 0 f.text with h | ⟨u, v, ht, hu, h⟩
  · exact Or.inl (by rw [pieces, h]; rfl)
  · exact Or.inr ⟨u, v, ht, hu, by rw [pieces, h]; rfl⟩

theorem piecesInduction {motive : Fragment → Prop}
    (single : ∀ g : Fragment, g.pieces = [g] → motive g)
    (more : ∀ (g : Fragment) (u v : List Char), g.text = u ++ ',' :: v → depthBehind 0 u = 0 →
      g.pieces = ⟨g.offset, u⟩ :: Fragment.pieces ⟨g.offset + textSize u + 1, v⟩ →
      motive ⟨g.offset + textSize u + 1, v⟩ → motive g)
    (g : Fragment) : motive g := by
  induction g using Fragment.lengthInduction with
  | shorter g ih =>
    rcases g.pieces_cases with hp | ⟨u, v, ht, hu, hp⟩
    · exact single g hp
    · refine more g u v ht hu hp (ih _ ?_)
      show v.length < g.text.length
      rw [ht, List.length_append, List.length_cons]
      omega

theorem pieces_single (h : Phrase level f.text) : f.pieces = [f] := by
  have hp := commaPieces_append (v := []) h.onePiece
  rw [List.append_nil] at hp
  rw [pieces, hp, h.balanced.depthBehind_eq]
  simp [commaPieces, placeFrom]

theorem pieces_more (h : Phrase level text) (ht : f.text = text ++ ',' :: rest) :
    f.pieces = ⟨f.offset, text⟩ :: Fragment.pieces ⟨f.offset + textSize text + 1, rest⟩ := by
  rw [pieces, ht, commaPieces_append h.onePiece, h.balanced.depthBehind_eq]
  simp [commaPieces, depthAfter, placeFrom, pieces]

end Fragment

end Formulary
