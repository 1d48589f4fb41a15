import Formulary.Proofs.Phrase
import Formulary.Shape

namespace Formulary

section Name

variable {name spaces text : List Char} {c : Char}

theorem isAlpha_iff (c : Char) :
    c.isAlpha = true ↔
      (65 ≤ c.toNat ∧ c.toNat ≤ 90) ∨ (97 ≤ c.toNat ∧ c.toNat ≤ 122) := by
  have hn : c.toNat = c.val.toNat := rfl
  show (decide ('A'.val ≤ c.val ∧ c.val ≤ 'Z'.val) ||
    (decide ('a'.val ≤ c.val) && decide (c.val ≤ 'z'.val))) = true ↔ _
  simp only [Bool.or_eq_true, Bool.and_eq_true, decide_eq_true_eq, UInt32.le_iff_toNat_le,
    Char.reduceVal, UInt32.reduceToNat, hn]

theorem isDigit_iff (c : Char) : c.isDigit = true ↔ 48 ≤ c.toNat ∧ c.toNat ≤ 57 := by
  have hn : c.toNat = c.val.toNat := rfl
  show (decide ('0'.val ≤ c.val) && decide (c.val ≤ '9'.val)) = true ↔ _
  simp only [Bool.and_eq_true, decide_eq_true_eq, UInt32.le_iff_toNat_le, Char.reduceVal,
    UInt32.reduceToNat, hn]

theorem isDigit_of_isAlpha (h : c.isAlpha = true) : c.isDigit = false := by
  have ha := (isAlpha_iff c).mp h
  by_contra hd
  have hdigit := (isDigit_iff c).mp (by simpa using hd)
  omega

theorem isName_chars (h : isName name = true) :
    ∀ c ∈ name, c.isAlphanum = true ∨ c = '_' := by
  intro c hc
  cases name with
  | nil => simp at hc
  | cons d rest =>
    simp only [isName, Bool.and_eq_true, Bool.or_eq_true, decide_eq_true_eq,
      List.all_eq_true] at h
    rcases List.mem_cons.mp hc with rfl | hm
    · exact h.1.imp_left fun ha => by simp [Char.isAlphanum, ha]
    · exact h.2 c hm

theorem isName_head (h : isName name = true) :
    ∃ c rest, name = c :: rest ∧ isMantissa c = false := by
  cases name with
  | nil => simp [isName] at h
  | cons c rest =>
    refine ⟨c, rest, rfl, ?_⟩
    simp only [isName, Bool.and_eq_true, Bool.or_eq_true, decide_eq_true_eq] at h
    rcases h.1 with ha | rfl
    · have hne : c ≠ '.' := by
        rintro rfl
        exact absurd ha (by decide)
      simp [isMantissa, isDigit_of_isAlpha ha, hne]
    · rfl

theorem isSpace_of_name (h : c.isAlphanum = true ∨ c = '_') : isSpace c = false := by
  rcases h with h | rfl
  · have hword : c.isAlpha = true ∨ c.isDigit = true := by
      simpa only [Char.isAlphanum, Bool.or_eq_true] using h
    rw [isAlpha_iff, isDigit_iff] at hword
    by_contra hs
    simp only [isSpace, Bool.not_eq_false, Bool.or_eq_true, Bool.and_eq_true,
      decide_eq_true_eq] at hs
    omega
  · rfl

theorem isBlank_of_name (h : c.isAlphanum = true ∨ c = '_') : isBlank c = false := by
  by_contra hb
  have := isSpace_of_isBlank (by simpa using hb)
  rw [isSpace_of_name h] at this
  simp at this

theorem plain_of_isSpace (h : isSpace c = true) : Plain c := by
  constructor
  · by_contra ho
    rcases isOpener_cases (by simpa using ho) with rfl | rfl | rfl | rfl | rfl | rfl | rfl <;>
      revert h <;> decide
  · rintro rfl
    revert h
    decide

theorem plain_of_name (h : c.isAlphanum = true ∨ c = '_') : Plain c := by
  constructor
  · by_contra ho
    rcases isOpener_cases (by simpa using ho) with rfl | rfl | rfl | rfl | rfl | rfl | rfl <;>
      revert h <;> decide
  · rintro rfl
    revert h
    decide

/-- A sign after a name is an operator, even after a name such as `e1e`. -/
theorem isExponentSign_name (h : isName name = true) : isExponentSign name.reverse = false := by
  obtain ⟨c, rest, rfl, hc⟩ := isName_head h
  have hword : ∀ d ∈ c :: rest, isWord d = true := by
    intro d hd
    rcases isName_chars h d hd with ha | rfl
    · simp [isWord, ha]
    · rfl
  rcases List.eq_nil_or_concat rest with rfl | ⟨middle, letter, rfl⟩
  · simp [isExponentSign]
  · have hmem : c ∈ (c :: middle).reverse := by simp
    have hne : (c :: middle).reverse.dropWhile isMantissa ≠ [] := by
      intro hnil
      have := List.dropWhile_eq_nil_iff.mp hnil c hmem
      simp [hc] at this
    obtain ⟨d, later, hd⟩ := List.exists_cons_of_ne_nil hne
    -- The digits before the last letter, if any, follow a character of the name.
    have hdw : isWord d = true := by
      refine hword d ?_
      have hsub : d ∈ (c :: middle).reverse :=
        (List.dropWhile_sublist isMantissa).subset (hd ▸ List.mem_cons_self)
      simp only [List.mem_reverse, List.mem_cons] at hsub
      rcases hsub with rfl | hm
      · simp
      · simp [hm]
    rw [List.concat_eq_append, ← List.cons_append, List.reverse_append, List.reverse_singleton,
      List.singleton_append, isExponentSign, hd]
    simp [hdw]

theorem isName_ends (h : isName name = true) :
    name.head?.any (fun c => !isBlank c) = true ∧
      name.getLast?.any (fun c => !isBlank c) = true := by
  have hink : ∀ c ∈ name, isBlank c = false := fun c hc => isBlank_of_name (isName_chars h c hc)
  rcases List.eq_nil_or_concat name with rfl | ⟨initial, last, hlast⟩
  · simp [isName] at h
  · obtain ⟨first, rest, hfirst, _⟩ := isName_head h
    constructor
    · simp [hfirst, hink first (by simp [hfirst])]
    · simp [hlast, hink last (by simp [hlast])]

theorem isName_plain (h : isName name = true) : ∀ c ∈ name, Plain c :=
  fun c hc => plain_of_name (isName_chars h c hc)

theorem Phrase.of_name (h : isName name = true) : Phrase .atom name := by
  have hchars := isName_chars h
  have hexp := isExponentSign_name h
  obtain ⟨c, rest, hname, _⟩ := isName_head h
  have hblank := isBlank_of_name (hchars c (by simp [hname]))
  refine .of_plain (isName_plain h) ?_ ⟨c, by simp [hname], hblank⟩
  cases hrev : name.reverse with
  | nil => simp [hname] at hrev
  | cons d before =>
    rw [hrev] at hexp
    have hd : d ∈ name := List.mem_reverse.mp (hrev ▸ List.mem_cons_self)
    exact isSignAfter_cons (isBlank_of_name (hchars d hd)) (isName_plain h d hd).1 hexp

theorem Phrase.of_call (h : isName name = true) (hs : ∀ c ∈ spaces, isSpace c = true)
    (hbal : Balanced text) : Phrase .atom (name ++ spaces ++ '(' :: (text ++ [')'])) := by
  refine .closed (List.forall_mem_append.mpr ⟨isName_plain h, ?_⟩) hbal
  exact fun c hc => plain_of_isSpace (hs c hc)

end Name

end Formulary
