import Formulary.Proofs.ArgumentPieces
import Formulary.Proofs.FragmentShape

namespace Formulary

theorem textSize_pos {text : List Char} (h : text ≠ []) : 0 < textSize text := by
  obtain ⟨c, rest, rfl⟩ := List.exists_cons_of_ne_nil h
  have hc := c.utf8Size_pos
  rw [textSize]
  omega

/-- Induction over fragments along the parts of their shapes, which are shorter. -/
theorem Fragment.partsInduction {motive : Fragment → Prop}
    (whole : ∀ f : Fragment, (∀ g ∈ f.shape.parts, motive g) → motive f) (f : Fragment) :
    motive f := by
  induction f using Fragment.lengthInduction with
  | shorter f ih => exact whole f fun g hg => ih g (Fragment.shape_parts_length_lt hg)

/-- A piece of a fragment, at its place in the source text. -/
def Fragment.Within (g f : Fragment) : Prop :=
  ∃ u v, f.text = u ++ g.text ++ v ∧ g.offset = f.offset + textSize u

namespace Fragment

variable {e f g : Fragment}

theorem Within.refl (f : Fragment) : f.Within f := ⟨[], [], by simp, rfl⟩

theorem Within.trans (h : g.Within f) (h' : f.Within e) : g.Within e := by
  obtain ⟨u, v, ht, ho⟩ := h
  obtain ⟨u', v', ht', ho'⟩ := h'
  refine ⟨u' ++ u, v ++ v', ?_, ?_⟩
  · rw [ht', ht]
    simp
  · rw [ho, ho', textSize_append, Nat.add_assoc]

theorem Within.offset_le (h : g.Within f) : f.offset ≤ g.offset := by
  obtain ⟨u, v, _, ho⟩ := h
  omega

theorem Within.stop_le (h : g.Within f) : g.stop ≤ f.stop := by
  obtain ⟨u, v, ht, ho⟩ := h
  rw [stop, stop, ht, textSize_append, textSize_append]
  omega

theorem Within.textSize_le (h : g.Within f) : textSize g.text ≤ textSize f.text := by
  obtain ⟨u, v, ht, _⟩ := h
  rw [ht, textSize_append, textSize_append]
  omega

theorem Within.length_le (h : g.Within f) : g.text.length ≤ f.text.length := by
  obtain ⟨u, v, ht, _⟩ := h
  rw [ht, List.length_append, List.length_append]
  omega

/-- A piece of a fragment where an operand may begin: what stands left of it in the fragment is
blank, or its last character that is not blank opens an operand. -/
def BeginsIn (g f : Fragment) : Prop :=
  ∃ u v, f.text = u ++ g.text ++ v ∧ g.offset = f.offset + textSize u ∧ OpensOperand u.reverse

theorem BeginsIn.within (h : g.BeginsIn f) : g.Within f := by
  obtain ⟨u, v, ht, ho, _⟩ := h
  exact ⟨u, v, ht, ho⟩

theorem BeginsIn.refl (f : Fragment) : f.BeginsIn f := ⟨[], [], by simp, rfl, .nil⟩

theorem BeginsIn.trans (h : g.BeginsIn f) (h' : f.BeginsIn e) : g.BeginsIn e := by
  obtain ⟨u, v, ht, ho, hu⟩ := h
  obtain ⟨u', v', ht', ho', hu'⟩ := h'
  refine ⟨u' ++ u, v ++ v', ?_, ?_, ?_⟩
  · rw [ht', ht]
    simp
  · rw [ho, ho', textSize_append, Nat.add_assoc]
  · rw [List.reverse_append]
    exact hu.append hu'

/-- An operand may begin behind an opener. -/
theorem BeginsIn.of_opener {u v : List Char} {c : Char} (hc : isOpener c = true)
    (ht : f.text = u ++ c :: (g.text ++ v)) (ho : g.offset = f.offset + textSize (u ++ [c])) :
    g.BeginsIn f := by
  refine ⟨u ++ [c], v, by simp [ht], ho, ?_⟩
  rw [List.reverse_append]
  exact .cons hc

theorem trim_beginsIn (f : Fragment) : f.trim.BeginsIn f := by
  obtain ⟨v, hv, _⟩ := trimEnd_sub isBlank (f.text.dropWhile isBlank)
  have hblank : ∀ c ∈ (f.text.takeWhile isBlank).reverse, isBlank c = true :=
    fun c hc => List.mem_takeWhile_imp (List.mem_reverse.mp hc)
  refine ⟨f.text.takeWhile isBlank, v, ?_, rfl, ?_⟩
  · show f.text = _ ++ trimEnd isBlank (f.text.dropWhile isBlank) ++ v
    rw [List.append_assoc, ← hv, List.takeWhile_append_dropWhile]
  · simpa using OpensOperand.nil.blanks hblank

theorem strip_beginsIn (f : Fragment) : f.strip.BeginsIn f := by
  induction f using Fragment.lengthInduction with
  | shorter f ih =>
    rcases f.strip_cases with ⟨inside, ht, hs⟩ | hs
    · have hinside : Fragment.BeginsIn ⟨f.trim.offset + 1, inside⟩ f.trim :=
        .of_opener (u := []) (c := '(') (v := [')']) rfl (by simp [ht]) rfl
      have hlen := f.trim_length_le
      rw [ht] at hlen
      simp only [List.length_cons, List.length_append] at hlen
      have hstrip := ih ⟨f.trim.offset + 1, inside⟩ (by simp only; omega)
      rw [hs]
      exact (hstrip.trans hinside).trans f.trim_beginsIn
    · rw [hs]
      exact f.trim_beginsIn

theorem strip_within (f : Fragment) : f.strip.Within f := f.strip_beginsIn.within

theorem trim_within (f : Fragment) : f.trim.Within f := f.trim_beginsIn.within

theorem before_beginsIn (f : Fragment) (i : Nat) : (f.before i).BeginsIn f :=
  ⟨[], f.text.drop i, by simp [before], rfl, .nil⟩

theorem after_within (f : Fragment) (i : Nat) : (f.after i).Within f :=
  ⟨f.text.take (i + 1), [], by simp [after], rfl⟩

theorem after_beginsIn {i : Nat} {c : Char} (hi : f.text[i]? = some c) (hc : isOpener c = true) :
    (f.after i).BeginsIn f := by
  obtain ⟨hlt, hget⟩ := List.getElem?_eq_some_iff.mp hi
  have htake : f.text.take (i + 1) = f.text.take i ++ [c] := by
    rw [List.take_succ_eq_append_getElem hlt, hget]
  refine .of_opener (u := f.text.take i) (v := []) hc ?_ ?_
  · show f.text = _ ++ c :: (f.text.drop (i + 1) ++ [])
    rw [List.append_nil, ← hget, List.getElem_cons_drop, List.take_append_drop]
  · rw [← htake]
    rfl

theorem before_stop_le (f : Fragment) (i : Nat) : (f.before i).stop ≤ (f.after i).offset := by
  have h : f.text.take i = (f.text.take (i + 1)).take i := by
    rw [List.take_take, Nat.min_eq_left (Nat.le_succ i)]
  have hsize := textSize_append ((f.text.take (i + 1)).take i) ((f.text.take (i + 1)).drop i)
  rw [List.take_append_drop] at hsize
  show f.offset + textSize (f.text.take i) ≤ f.offset + textSize (f.text.take (i + 1))
  rw [h]
  omega

theorem call?_beginsIn {name : List Char} (h : f.call? = some (name, g)) : g.BeginsIn f := by
  obtain ⟨u, ht, _, ho⟩ := call?_eq_some h
  exact .of_opener rfl ht ho

theorem call?_stop {name : List Char} (h : f.call? = some (name, g)) : g.stop + 1 = f.stop := by
  obtain ⟨u, ht, _, ho⟩ := call?_eq_some h
  have htext : f.text = (u ++ ['(']) ++ g.text ++ [')'] := by simp [ht]
  have hclose : textSize [')'] = 1 := rfl
  rw [stop, stop, htext, ho, textSize_append (u ++ ['('] ++ g.text),
    textSize_append (u ++ ['(']) g.text, hclose]
  omega

theorem pieces_beginsIn (f : Fragment) : ∀ g ∈ f.pieces, g.BeginsIn f := by
  induction f using Fragment.piecesInduction with
  | single f hp => simp [hp, BeginsIn.refl]
  | more f u v ht _ hp ih =>
    have hlater : Fragment.BeginsIn ⟨f.offset + textSize u + 1, v⟩ f :=
      .of_opener (u := u) (c := ',') (v := []) rfl (by simp [ht]) (by rw [textSize_append]; rfl)
    rw [hp]
    exact List.forall_mem_cons.mpr
      ⟨⟨[], ',' :: v, by simp [ht], rfl, .nil⟩, fun g hg => (ih g hg).trans hlater⟩

theorem arguments_beginsIn (f : Fragment) : ∀ g ∈ f.arguments, g.BeginsIn f := by
  rw [arguments_eq]
  split
  · simp
  · exact f.pieces_beginsIn

end Fragment

/-- A call is written as a name, spaces and its arguments in parentheses. -/
def CallText (word : String) (text inside : List Char) : Prop :=
  ∃ name spaces, isName name = true ∧ word = String.ofList name ∧
    (∀ c ∈ spaces, isSpace c = true) ∧ text = name ++ spaces ++ '(' :: (inside ++ [')'])

theorem Fragment.call?_callText {f g : Fragment} {name : List Char}
    (h : f.call? = some (name, g)) (hname : isName name = true) :
    CallText (String.ofList name) f.text g.text := by
  obtain ⟨u, ht, hu, _⟩ := call?_eq_some h
  obtain ⟨spaces, hsplit, hs⟩ := trimEnd_sub isSpace u
  rw [← hu] at hsplit
  rw [hsplit] at ht
  exact ⟨name, spaces, hname, rfl, hs, ht⟩

/-- The parts of a shape stand within the fragment, one after the other. -/
def Shape.LaidOut (f : Fragment) : Shape → Prop
  | .fault .. | .number _ => True
  | .name place => place.Within f ∧ isName place.text = true
  | .plus operand | .minus operand => operand.Within f
  | .binary _ left right => left.Within f ∧ right.Within f ∧ left.stop ≤ right.offset
  | .call word place arguments =>
    place.Within f ∧ ∃ g : Fragment, CallText word place.text g.text ∧ g.Within place ∧
      g.stop + 1 = place.stop ∧ arguments = g.arguments

theorem Shape.LaidOut.mono {s : Shape} {f g : Fragment} (h : s.LaidOut g) (hw : g.Within f) :
    s.LaidOut f := by
  cases s with
  | fault => trivial
  | number => trivial
  | name place => exact ⟨h.1.trans hw, h.2⟩
  | plus operand => exact Fragment.Within.trans h hw
  | minus operand => exact Fragment.Within.trans h hw
  | binary op left right => exact ⟨h.1.trans hw, h.2.1.trans hw, h.2.2⟩
  | call word place arguments => exact ⟨h.1.trans hw, h.2⟩

theorem Fragment.operandShape_laidOut (f : Fragment) : f.operandShape.LaidOut f := by
  unfold Fragment.operandShape
  split
  · split
    · trivial
    · trivial
  · split
    · exact f.after_within 0
    · split
      · exact f.after_within 0
      · split
        next name g hcall =>
          split
          next hname =>
            exact ⟨.refl f, g, call?_callText hcall hname, (call?_beginsIn hcall).within,
              call?_stop hcall, rfl⟩
          next => trivial
        next =>
          split
          next hname => exact ⟨.refl f, hname⟩
          next => trivial

theorem Fragment.shape_laidOut (f : Fragment) : f.shape.LaidOut f := by
  refine Shape.LaidOut.mono ?_ f.strip_within
  unfold Fragment.shape
  simp only
  split
  · trivial
  · split
    next i op _ =>
      exact ⟨(f.strip.before_beginsIn i).within, f.strip.after_within i, f.strip.before_stop_le i⟩
    next => exact f.strip.operandShape_laidOut

theorem Fragment.operandShape_parts_beginsIn (f : Fragment) :
    ∀ g ∈ f.operandShape.parts, g.BeginsIn f := by
  unfold Fragment.operandShape
  split
  · split <;> simp [Shape.parts]
  · split
    next hminus =>
      refine List.forall_mem_singleton.mpr (after_beginsIn (c := '-') ?_ rfl)
      rw [← List.head?_eq_getElem?, hminus]
    next =>
      split
      next hplus =>
        refine List.forall_mem_singleton.mpr (after_beginsIn (c := '+') ?_ rfl)
        rw [← List.head?_eq_getElem?, hplus]
      next =>
        split
        next name inside hcall =>
          split
          · exact fun g hg => (inside.arguments_beginsIn g hg).trans (call?_beginsIn hcall)
          · simp [Shape.parts]
        next => split <;> simp [Shape.parts]

/-- Each part of a fragment stands where an operand may begin. -/
theorem Fragment.shape_parts_beginsIn (f : Fragment) : ∀ g ∈ f.shape.parts, g.BeginsIn f := by
  have hstrip : ∀ g : Fragment, g.BeginsIn f.strip → g.BeginsIn f :=
    fun g hg => hg.trans f.strip_beginsIn
  unfold Fragment.shape
  simp only
  split
  · simp [Shape.parts]
  · split
    next i op htop =>
      obtain ⟨u, v, ht, rfl, _⟩ := topOperator?_split htop
      have hsymbol : f.strip.text[u.length]? = some op.symbol := by simp [ht]
      refine List.forall_mem_cons.mpr ⟨hstrip _ (f.strip.before_beginsIn u.length), ?_⟩
      exact List.forall_mem_singleton.mpr (hstrip _ (after_beginsIn hsymbol op.isOpener_symbol))
    next => exact fun g hg => hstrip g (f.strip.operandShape_parts_beginsIn g hg)

theorem Fragment.shape_parts_within (f : Fragment) : ∀ g ∈ f.shape.parts, g.Within f :=
  fun g hg => (f.shape_parts_beginsIn g hg).within

end Formulary
