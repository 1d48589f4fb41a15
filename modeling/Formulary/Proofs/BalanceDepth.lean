import Mathlib.Data.List.Induction
import Formulary.Proofs.FragmentPlace

namespace Formulary

/-- No `)` of a text comes when no group is open, if `depth` groups are open before the text. -/
def NeverBelow : Nat → List Char → Prop
  | _, [] => True
  | depth, c :: rest => (c = ')' → 0 < depth) ∧ NeverBelow (depthAfter depth c) rest

section Depth

variable {depth : Nat} {u v text inside rest : List Char}

theorem neverBelow_append :
    NeverBelow depth (u ++ v) ↔ NeverBelow depth u ∧ NeverBelow (depthBehind depth u) v := by
  induction u generalizing depth with
  | nil => simp [NeverBelow, depthBehind]
  | cons c tail ih => rw [List.cons_append, NeverBelow, NeverBelow, ih, and_assoc, depthBehind_cons]

theorem Balanced.neverBelow (h : Balanced u) (depth : Nat) : NeverBelow depth u := by
  induction h generalizing depth with
  | nil => trivial
  | char ho hc _ ih => exact ⟨fun h => absurd h hc, (depthAfter_of_ne depth ho hc).symm ▸ ih depth⟩
  | group hi _ ihi ih =>
    refine ⟨by simp, neverBelow_append.mpr ⟨ihi _, ?_⟩⟩
    rw [hi.depthBehind_eq, depthAfter_open, NeverBelow, depthAfter_close, Nat.add_sub_cancel]
    exact ⟨fun _ => Nat.succ_pos depth, ih depth⟩

/-- The inside of a group never closes more than is open, and closes all of it. -/
theorem splitGroup_inside (h : splitGroup depth text = some (inside, rest)) :
    NeverBelow depth inside ∧ depthBehind depth inside = 0 := by
  induction text generalizing depth inside with
  | nil => simp [splitGroup] at h
  | cons c tail ih =>
    rw [splitGroup] at h
    split at h
    next hc =>
      obtain ⟨rfl, rfl⟩ := Prod.mk.inj (Option.some.inj h)
      exact ⟨trivial, hc.2⟩
    next hc =>
      obtain ⟨group, hs, he⟩ := Option.map_eq_some_iff.mp h
      obtain ⟨rfl, rfl⟩ := Prod.mk.inj he
      obtain ⟨hn, hd⟩ := ih hs
      exact ⟨⟨fun hclose => Nat.pos_of_ne_zero fun h0 => hc ⟨hclose, h0⟩, hn⟩, hd⟩

/-- Without a `)` that closes the group around it, a text leaves that group open. -/
theorem depthBehind_pos_of_splitGroup (h : splitGroup depth text = none) :
    0 < depthBehind (depth + 1) text := by
  induction text generalizing depth with
  | nil => exact Nat.succ_pos depth
  | cons c tail ih =>
    rw [splitGroup] at h
    split at h
    next => simp at h
    next hc =>
      rw [depthBehind_cons, depthAfter_succ hc]
      exact ih (Option.map_eq_none_iff.mp h)

/-- By induction on the length: a text that begins with `(` is a group and a shorter text, and the
inside of the group is shorter too. -/
theorem Balanced.of_depth (hn : NeverBelow 0 text) (hd : depthBehind 0 text = 0) :
    Balanced text := by
  induction hlen : text.length using Nat.strong_induction_on generalizing text with
  | _ n ih =>
    cases text with
    | nil => exact .nil
    | cons c tail =>
      rw [List.length_cons] at hlen
      by_cases ho : c = '('
      · subst ho
        rw [depthBehind_cons, depthAfter_open] at hd
        cases hs : splitGroup 0 tail with
        | none =>
          have := depthBehind_pos_of_splitGroup hs
          omega
        | some group =>
          obtain ⟨inside, later⟩ := group
          have htail := splitGroup_eq hs
          obtain ⟨hni, hdi⟩ := splitGroup_inside hs
          have hlength : inside.length + (later.length + 1) = tail.length := by
            rw [htail, List.length_append, List.length_cons]
          have hinside : Balanced inside := ih _ (by omega) hni hdi rfl
          have hlater := hn.2
          rw [htail, depthAfter_open, neverBelow_append, hinside.depthBehind_eq] at hlater
          rw [htail, depthBehind_append, hinside.depthBehind_eq] at hd
          rw [htail]
          exact .group hinside (ih _ (by omega) hlater.2.2 hd rfl)
      · have hc : c ≠ ')' := fun hclose => absurd (hn.1 hclose) (Nat.lt_irrefl 0)
        obtain ⟨_, hn⟩ := hn
        rw [depthBehind_cons, depthAfter_of_ne 0 ho hc] at hd
        rw [depthAfter_of_ne 0 ho hc] at hn
        exact .char ho hc (ih _ (by omega) hn hd rfl)

theorem balanced_iff_depth : Balanced text ↔ NeverBelow 0 text ∧ depthBehind 0 text = 0 :=
  ⟨fun h => ⟨h.neverBelow 0, h.depthBehind_eq 0⟩, fun h => .of_depth h.1 h.2⟩

theorem Balanced.of_splitGroup (h : splitGroup 0 text = some (inside, rest)) : Balanced inside :=
  .of_depth (splitGroup_inside h).1 (splitGroup_inside h).2

/-- A balanced text is balanced on both sides of a place where no group is open. -/
theorem Balanced.split (h : Balanced (u ++ v)) (hu : depthBehind 0 u = 0) :
    Balanced u ∧ Balanced v := by
  obtain ⟨hn, hd⟩ := balanced_iff_depth.mp h
  rw [neverBelow_append, hu] at hn
  rw [depthBehind_append, hu] at hd
  exact ⟨.of_depth hn.1 hu, .of_depth hn.2 hd⟩

theorem Balanced.tail {c : Char} (h : Balanced (c :: rest)) (ho : c ≠ '(') : Balanced rest := by
  cases h with
  | char _ _ hrest => exact hrest
  | group _ _ => exact absurd rfl ho

theorem Balanced.trim (h : Balanced text) : Balanced (trim isBlank text) := by
  obtain ⟨u, v, ht, hu, hv⟩ := trim_sub isBlank text
  have hbal : Balanced u := .of_plain fun c hc => plain_of_isBlank (hu c hc)
  have hbal' : Balanced v := .of_plain fun c hc => plain_of_isBlank (hv c hc)
  rw [ht, List.append_assoc] at h
  obtain ⟨_, h⟩ := h.split (hbal.depthBehind_eq 0)
  have hd := h.depthBehind_eq 0
  rw [depthBehind_append, hbal'.depthBehind_eq] at hd
  exact (h.split hd).1

end Depth

section Count

variable {depth : Nat} {text : List Char}

/-- The groups that are open behind a text and the ones that it closes are the ones that are open
before it and the ones that it opens. -/
theorem depthBehind_add_count (h : NeverBelow depth text) :
    depthBehind depth text + text.count ')' = depth + text.count '(' := by
  induction text generalizing depth with
  | nil => rfl
  | cons c tail ih =>
    obtain ⟨hc, htail⟩ := h
    have hstep := ih htail
    rw [depthBehind_cons, List.count_cons, List.count_cons]
    by_cases ho : c = '('
    · subst ho
      rw [depthAfter_open] at hstep ⊢
      simp only [beq_self_eq_true, if_true, Char.reduceBEq, Bool.false_eq_true, if_false]
      omega
    · by_cases hclose : c = ')'
      · subst hclose
        have := hc rfl
        rw [depthAfter_close] at hstep ⊢
        simp only [beq_self_eq_true, if_true, Char.reduceBEq, Bool.false_eq_true, if_false]
        omega
      · rw [depthAfter_of_ne depth ho hclose] at hstep ⊢
        simpa [ho, hclose] using hstep

theorem neverBelow_iff_count :
    NeverBelow depth text ↔ ∀ u, u <+: text → u.count ')' ≤ depth + u.count '(' := by
  constructor
  · rintro h u ⟨v, rfl⟩
    have := depthBehind_add_count (neverBelow_append.mp h).1
    omega
  · induction text using List.reverseRecOn with
    | nil => exact fun _ => trivial
    | append_singleton u c ih =>
      intro h
      have hu := ih fun w hw => h w (hw.trans (List.prefix_append u [c]))
      refine neverBelow_append.mpr ⟨hu, ?_, trivial⟩
      rintro rfl
      have hall := h (u ++ [')']) (List.prefix_refl _)
      have hdepth := depthBehind_add_count hu
      simp only [List.count_append, List.count_singleton_self, List.count_singleton,
        Char.reduceBEq, Bool.false_eq_true, if_false] at hall
      omega

/-- A text is balanced when no prefix of it closes more groups than it opens, and it closes as many
as it opens. -/
theorem balanced_iff_count :
    Balanced text ↔ (∀ u, u <+: text → u.count ')' ≤ u.count '(') ∧
      text.count ')' = text.count '(' := by
  have hcount : NeverBelow 0 text ↔ ∀ u, u <+: text → u.count ')' ≤ u.count '(' := by
    rw [neverBelow_iff_count]
    simp only [Nat.zero_add]
  rw [balanced_iff_depth, hcount]
  refine and_congr_right fun h => ?_
  have := depthBehind_add_count (hcount.mpr h)
  omega

end Count

/-- What is opened already counts as `opened.length` groups. -/
theorem unmatched?_eq_none {opened : List Fragment} {offset : Nat} {text : List Char} :
    unmatched? opened offset text = none ↔
      NeverBelow opened.length text ∧ depthBehind opened.length text = 0 := by
  induction text generalizing opened offset with
  | nil => cases opened <;> simp [unmatched?, NeverBelow, depthBehind]
  | cons c tail ih =>
    rw [NeverBelow, depthBehind_cons]
    by_cases ho : c = '('
    · subst ho
      rw [unmatched?_open, ih, depthAfter_open]
      simp
    · by_cases hc : c = ')'
      · subst hc
        cases opened with
        | nil => simp [unmatched?]
        | cons f outer =>
          rw [unmatched?_close, ih, depthAfter_close]
          simp
      · rw [unmatched?_char ho hc, ih, depthAfter_of_ne _ ho hc]
        simp [hc]

theorem Fragment.requireBalance_eq_ok_iff {f : Fragment} :
    f.requireBalance = .ok () ↔ Balanced f.text := by
  have hnone : unmatched? [] f.offset f.text = none ↔ Balanced f.text :=
    unmatched?_eq_none.trans balanced_iff_depth.symm
  rw [← hnone, Fragment.requireBalance]
  split
  next h => simp [h]
  next h => simp [h]

section Parts

variable {f g : Fragment}

theorem Fragment.strip_balanced (h : Balanced f.text) : Balanced f.strip.text := by
  induction f using Fragment.lengthInduction with
  | shorter f ih =>
    rw [Fragment.strip]
    split
    next rest ht =>
      split
      next inside hg =>
        have hlen := f.trim_length_le
        rw [ht, splitGroup_eq hg] at hlen
        simp only [List.length_cons, List.length_append] at hlen
        exact ih _ (by simp only; omega) (.of_splitGroup hg)
      next => exact h.trim
    next => exact h.trim

theorem Fragment.call?_balanced {name : List Char} (h : f.call? = some (name, g)) :
    Balanced g.text := by
  obtain ⟨i, _, h⟩ := Option.bind_eq_some_iff.mp h
  obtain ⟨⟨inside, later⟩, hs, h⟩ := Option.bind_eq_some_iff.mp h
  cases later with
  | nil =>
    obtain ⟨_, rfl⟩ := Prod.mk.inj (Option.some.inj h)
    exact .of_splitGroup hs
  | cons c rest => cases h

theorem Fragment.pieces_balanced (h : Balanced f.text) : ∀ g ∈ f.pieces, Balanced g.text := by
  induction f using Fragment.piecesInduction with
  | single f hp => simpa [hp] using h
  | more f u v ht hu hp ih =>
    rw [ht] at h
    obtain ⟨hleft, hright⟩ := h.split hu
    rw [hp]
    exact List.forall_mem_cons.mpr ⟨hleft, ih (hright.tail (by decide))⟩

theorem Fragment.arguments_balanced (h : Balanced f.text) :
    ∀ g ∈ f.arguments, Balanced g.text := by
  rw [Fragment.arguments_eq]
  split
  · simp
  · exact Fragment.pieces_balanced h

theorem Fragment.operandShape_parts_balanced (h : Balanced f.text) :
    ∀ g ∈ f.operandShape.parts, Balanced g.text := by
  have sign : ∀ {c : Char}, f.text.head? = some c → c ≠ '(' → Balanced (f.after 0).text := by
    intro c hc ho
    obtain ⟨rest, hrest⟩ := List.head?_eq_some_iff.mp hc
    have htail := (hrest ▸ h).tail ho
    simpa [Fragment.after, hrest] using htail
  unfold Fragment.operandShape
  split
  · split <;> simp [Shape.parts]
  · split
    next hminus => simpa [Shape.parts] using sign hminus (by decide)
    next =>
      split
      next hplus => simpa [Shape.parts] using sign hplus (by decide)
      next =>
        split
        next hcall =>
          split
          · exact Fragment.arguments_balanced (Fragment.call?_balanced hcall)
          · simp [Shape.parts]
        next => split <;> simp [Shape.parts]

/-- What a balanced fragment is made of is balanced, part by part. -/
theorem Fragment.shape_parts_balanced (h : Balanced f.text) :
    ∀ g ∈ f.shape.parts, Balanced g.text := by
  have hstrip := Fragment.strip_balanced h
  unfold Fragment.shape
  simp only
  split
  · simp [Shape.parts]
  · split
    next i op htop =>
      obtain ⟨u, v, hsplit, hi, hdepth, _⟩ := topOperator?_split htop
      rw [hsplit] at hstrip
      obtain ⟨hleft, hright⟩ := hstrip.split hdepth
      have hop : op.symbol ≠ '(' := by cases op <;> decide
      refine List.forall_mem_cons.mpr ⟨?_, List.forall_mem_singleton.mpr ?_⟩
      · simpa [Fragment.before, hsplit, ← hi] using hleft
      · simpa [Fragment.after, hsplit, ← hi] using hright.tail hop
    next => exact Fragment.operandShape_parts_balanced hstrip

end Parts

end Formulary
