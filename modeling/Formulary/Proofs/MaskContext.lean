import Formulary.Proofs.SignContext

namespace Formulary

theorem maskFrom_append (before : List Char) (depth : Nat) (u v : List Char) :
    maskFrom before depth (u ++ v) =
      maskFrom before depth u ++ maskFrom (u.reverse ++ before) (depthBehind depth u) v := by
  induction u generalizing before depth with
  | nil => rfl
  | cons c rest ih =>
    rw [List.cons_append, maskFrom, maskFrom, ih, List.reverse_cons, List.append_assoc]
    rfl

theorem mem_of_mem_maskFrom {before text : List Char} {depth : Nat} {c : Char}
    (h : some c ∈ maskFrom before depth text) : c ∈ text := by
  induction text generalizing before depth with
  | nil => simp [maskFrom] at h
  | cons d rest ih =>
    rw [maskFrom] at h
    rcases List.mem_cons.mp h with he | hm
    · split at he
      · simp at he
      · rw [Option.some.inj he]
        exact List.mem_cons_self
    · exact List.mem_cons_of_mem _ (ih hm)

theorem not_mem_maskFrom_of_plain {before text : List Char} {depth : Nat} {c : Char}
    (h : ∀ d ∈ text, Plain d) (hc : isOpener c = true) : some c ∉ maskFrom before depth text :=
  fun hm => (h c (mem_of_mem_maskFrom hm)).ne_opener hc rfl

/-- The mask of an operand does not depend on what stands left of it. -/
theorem OpensOperand.maskFrom_append {before : List Char} (h : OpensOperand before)
    (u : List Char) (depth : Nat) (text : List Char) :
    maskFrom (u ++ before) depth text = maskFrom u depth text := by
  induction text generalizing u depth with
  | nil => rfl
  | cons c rest ih =>
    rw [maskFrom, maskFrom, h.isSignAfter_append, ← List.cons_append, ih]

theorem OpensOperand.maskFrom_eq {before : List Char} (h : OpensOperand before)
    (depth : Nat) (text : List Char) : maskFrom before depth text = maskFrom [] depth text :=
  h.maskFrom_append [] depth text

theorem Balanced.not_mem_maskFrom {u : List Char} (h : Balanced u) (before : List Char)
    (depth : Nat) (c : Char) : some c ∉ maskFrom before (depth + 1) u := by
  induction h generalizing before depth with
  | nil => simp [maskFrom]
  | char ho hc _ ih => simp [maskFrom, depthAfter_of_ne _ ho hc, ih]
  | group hi _ ihi ih =>
    rw [maskFrom, maskFrom_append, depthAfter_open, hi.depthBehind_eq, maskFrom, depthAfter_close,
      Nat.add_sub_cancel]
    simp [ihi, ih]

/-- A group is hidden as a whole. -/
theorem Balanced.maskFrom_group {u : List Char} (h : Balanced u) (before rest : List Char) :
    maskFrom before 0 ('(' :: (u ++ ')' :: rest)) =
      List.replicate (u.length + 2) none ++
        maskFrom (('(' :: (u ++ [')'])).reverse ++ before) 0 rest := by
  have hinside : maskFrom ('(' :: before) 1 u = List.replicate u.length none := by
    refine List.eq_replicate_iff.mpr ⟨maskFrom_length _ _ _, fun a ha => ?_⟩
    cases a with
    | none => rfl
    | some c => exact absurd ha (h.not_mem_maskFrom _ 0 c)
  rw [maskFrom, maskFrom_append, depthAfter_open, hinside, h.depthBehind_eq, maskFrom,
    depthAfter_close, List.replicate_succ, List.replicate_succ']
  simp

theorem splitGroup_not_mem_maskFrom {text inside rest : List Char} {depth : Nat}
    (h : splitGroup depth text = some (inside, rest)) (before : List Char) (c : Char) :
    some c ∉ maskFrom before (depth + 1) (inside ++ [')']) := by
  induction text generalizing depth inside before with
  | nil => simp [splitGroup] at h
  | cons d tail ih =>
    rw [splitGroup] at h
    split at h
    next =>
      obtain ⟨rfl, rfl⟩ := Prod.mk.inj (Option.some.inj h)
      simp [maskFrom]
    next hd =>
      obtain ⟨group, hs, he⟩ := Option.map_eq_some_iff.mp h
      obtain ⟨rfl, rfl⟩ := Prod.mk.inj he
      rw [List.cons_append, maskFrom, depthAfter_succ hd]
      simp [ih hs]

/-- A parenthesis that shows would be the first of a group. -/
theorem mask_group {rest inside : List Char} (h : splitGroup 0 rest = some (inside, []))
    (c : Char) : some c ∉ mask ('(' :: rest) := by
  have he := splitGroup_eq h
  rw [mask, maskFrom, he]
  simp only [depthAfter_open, List.mem_cons, not_or]
  exact ⟨by simp, splitGroup_not_mem_maskFrom h _ c⟩

section Show

variable {u v text : List Char} {c d : Char}

/-- A character that shows splits the mask: it stands outside of all groups and is no sign. -/
theorem mask_split {i : Nat} (h : (mask text)[i]? = some (some c)) :
    ∃ u v, text = u ++ c :: v ∧ u.length = i ∧ depthBehind 0 u = 0 ∧ c ≠ '(' ∧
      ¬(isPlusMinus c = true ∧ isSignAfter u.reverse = true) := by
  have hi : i < text.length := by
    have := (List.getElem?_eq_some_iff.mp h).1
    rwa [mask, maskFrom_length] at this
  have htext : text = text.take i ++ text[i] :: text.drop (i + 1) := by simp
  have hlen : (text.take i).length = i := List.length_take_of_le hi.le
  have hmask : (maskFrom [] 0 (text.take i)).length = i := by rw [maskFrom_length, hlen]
  rw [htext, mask, maskFrom_append, List.getElem?_append_right hmask.le, hmask, Nat.sub_self,
    maskFrom] at h
  simp only [List.getElem?_cons_zero, Option.some.injEq] at h
  split at h
  · simp at h
  next hv =>
    obtain rfl := Option.some.inj h
    simp only [List.append_nil, not_or, Nat.not_lt, Nat.le_zero] at hv
    exact ⟨_, _, htext, hlen, hv.1, hv.2.1, hv.2.2⟩

theorem mask_append_opener (hu : depthBehind 0 u = 0) (ho : isOpener c = true) (hc : c ≠ '(')
    (hs : ¬(isPlusMinus c = true ∧ isSignAfter u.reverse = true)) :
    mask (u ++ c :: v) = mask u ++ some c :: mask v := by
  have hdepth : depthAfter 0 c = 0 := by simp [depthAfter, hc]
  rw [mask, maskFrom_append, hu, maskFrom, List.append_nil, if_neg (by simp [hc, hs]), hdepth,
    (OpensOperand.cons ho).maskFrom_eq]
  rfl

theorem mask_sign (h : isPlusMinus c = true) : mask (c :: v) = none :: mask v := by
  have ho : isOpener c = true := by
    simp only [isPlusMinus, Bool.or_eq_true, decide_eq_true_eq] at h
    rcases h with rfl | rfl <;> rfl
  have hdepth : depthAfter 0 c = 0 := by
    simp only [isPlusMinus, Bool.or_eq_true, decide_eq_true_eq] at h
    rcases h with rfl | rfl <;> rfl
  rw [mask, maskFrom, if_pos (Or.inr (Or.inr ⟨h, rfl⟩)), hdepth, (OpensOperand.cons ho).maskFrom_eq]
  rfl

theorem mask_blanks (hb : ∀ c ∈ u, isBlank c = true) : mask (u ++ v) = mask u ++ mask v := by
  have hu : Balanced u := .of_plain fun c hc => plain_of_isBlank (hb c hc)
  have hr : OpensOperand (u.reverse ++ []) :=
    OpensOperand.nil.blanks fun c hc => hb c (List.mem_reverse.mp hc)
  rw [mask, maskFrom_append, hu.depthBehind_eq, hr.maskFrom_eq]
  rfl

theorem mem_mask_of_trim (h : some c ∈ mask (trim isBlank text)) : some c ∈ mask text := by
  obtain ⟨u, v, ht, hu, _⟩ := trim_sub isBlank text
  rw [ht, List.append_assoc, mask_blanks hu, mask, mask, maskFrom_append]
  exact List.mem_append_right _ (List.mem_append_left _ h)

end Show

end Formulary
