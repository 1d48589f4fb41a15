import Mathlib.Data.List.TakeWhile
import Formulary.Fragment

namespace Formulary

theorem textSize_append (u v : List Char) : textSize (u ++ v) = textSize u + textSize v := by
  induction u with
  | nil => simp [textSize]
  | cons c rest ih => rw [List.cons_append, textSize, textSize, ih, Nat.add_assoc]

section Trim

variable {p : Char → Bool} {u v w : List Char}

theorem trimEnd_append_of_all (hv : ∀ c ∈ v, p c = true) : trimEnd p (u ++ v) = trimEnd p u := by
  have h : ∀ c ∈ v.reverse, p c = true := fun c hc => hv c (List.mem_reverse.mp hc)
  rw [trimEnd, List.reverse_append, List.dropWhile_append_of_pos h, trimEnd]

theorem trimEnd_append_of_exists (hv : ∃ c ∈ v, p c = false) :
    trimEnd p (u ++ v) = u ++ trimEnd p v := by
  have hne : v.reverse.dropWhile p ≠ [] := by
    obtain ⟨c, hc, hp⟩ := hv
    intro h
    have := List.dropWhile_eq_nil_iff.mp h c (List.mem_reverse.mpr hc)
    simp [hp] at this
  rw [trimEnd, List.reverse_append, List.dropWhile_append]
  simp [hne, trimEnd]

theorem dropWhile_append_of_exists (hu : ∃ c ∈ u, p c = false) :
    (u ++ v).dropWhile p = u.dropWhile p ++ v := by
  have hne : u.dropWhile p ≠ [] := by
    obtain ⟨c, hc, hp⟩ := hu
    intro h
    have := List.dropWhile_eq_nil_iff.mp h c hc
    simp [hp] at this
  rw [List.dropWhile_append]
  simp [hne]

theorem trimEnd_sub (p : Char → Bool) (text : List Char) :
    ∃ v, text = trimEnd p text ++ v ∧ ∀ c ∈ v, p c = true := by
  refine ⟨(text.reverse.takeWhile p).reverse, ?_, ?_⟩
  · have h := congrArg List.reverse (List.takeWhile_append_dropWhile (p := p) (l := text.reverse))
    rw [List.reverse_append, List.reverse_reverse] at h
    exact h.symm
  · intro c hc
    exact List.mem_takeWhile_imp (List.mem_reverse.mp hc)

/-- A text is its trimmed form between two pieces that are trimmed off. -/
theorem trim_sub (p : Char → Bool) (text : List Char) :
    ∃ u v, text = u ++ trim p text ++ v ∧ (∀ c ∈ u, p c = true) ∧ ∀ c ∈ v, p c = true := by
  obtain ⟨v, hv, hp⟩ := trimEnd_sub p (text.dropWhile p)
  refine ⟨text.takeWhile p, v, ?_, fun c hc => List.mem_takeWhile_imp hc, hp⟩
  rw [trim, List.append_assoc, ← hv, List.takeWhile_append_dropWhile]

/-- What is trimmed off makes no difference to the trimmed text. -/
theorem trim_append (hu : ∀ c ∈ u, p c = true) (hv : ∀ c ∈ v, p c = true) :
    trim p (u ++ w ++ v) = trim p w := by
  rw [List.append_assoc, trim, List.dropWhile_append_of_pos hu]
  by_cases h : ∃ c ∈ w, p c = false
  · rw [dropWhile_append_of_exists h, trimEnd_append_of_all hv, trim]
  · have hall : ∀ c ∈ w, p c = true := by simpa using h
    have hnil : ∀ {x : List Char}, (∀ c ∈ x, p c = true) → x.dropWhile p = [] :=
      fun hx => List.dropWhile_eq_nil_iff.mpr hx
    rw [hnil (List.forall_mem_append.mpr ⟨hall, hv⟩), trim, hnil hall]

theorem trim_eq_nil : trim p w = [] ↔ w.all p = true := by
  rw [List.all_eq_true]
  constructor
  · intro h
    obtain ⟨u, v, hw, hu, hv⟩ := trim_sub p w
    rw [h, List.append_nil] at hw
    rw [hw]
    exact List.forall_mem_append.mpr ⟨hu, hv⟩
  · intro h
    rw [trim, List.dropWhile_eq_nil_iff.mpr h]
    rfl

theorem trim_dropWhile (p : Char → Bool) (text : List Char) :
    trim p (text.dropWhile p) = trim p text := by
  have hu : ∀ c ∈ text.takeWhile p, p c = true := fun c hc => List.mem_takeWhile_imp hc
  have h := trim_append (v := []) (w := text.dropWhile p) hu (by simp)
  rw [List.append_nil, List.takeWhile_append_dropWhile] at h
  exact h.symm

theorem trim_trimEnd (p : Char → Bool) (text : List Char) :
    trim p (trimEnd p text) = trim p text := by
  obtain ⟨v, h, hv⟩ := trimEnd_sub p text
  have ht := trim_append (u := []) (w := trimEnd p text) (by simp) hv
  rw [List.nil_append, ← h] at ht
  exact ht.symm

theorem trim_of_ends (hf : w.head?.any (fun c => !p c) = true)
    (hl : w.getLast?.any (fun c => !p c) = true) : trim p w = w := by
  obtain ⟨c, hc, hp⟩ := (Option.any_eq_true _ _).mp hf
  obtain ⟨d, hd, hq⟩ := (Option.any_eq_true _ _).mp hl
  obtain ⟨rest, rfl⟩ := List.head?_eq_some_iff.mp hc
  rw [trim, List.dropWhile_cons_of_neg (by simpa using hp)]
  obtain ⟨initial, he⟩ := List.getLast?_eq_some_iff.mp hd
  rw [he, trimEnd, List.reverse_append, List.reverse_singleton, List.singleton_append,
    List.dropWhile_cons_of_neg (by simpa using hq)]
  simp

end Trim

end Formulary
