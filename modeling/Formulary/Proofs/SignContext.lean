import Formulary.Proofs.Balance

namespace Formulary

/-- The characters after which an operand begins. -/
def isOpener (c : Char) : Bool := "+-*/^(,".toList.contains c

/-- A sign here would belong to an operand: the reversed text to the left is blank, or the last
character in it that is not blank opens an operand. -/
def OpensOperand (before : List Char) : Prop :=
  ∀ c, before.find? (fun c => !isBlank c) = some c → isOpener c = true

theorem isOpener_cases {c : Char} (h : isOpener c = true) :
    c = '+' ∨ c = '-' ∨ c = '*' ∨ c = '/' ∨ c = '^' ∨ c = '(' ∨ c = ',' := by
  simpa [isOpener] using h

theorem isBlank_cases {c : Char} (h : isBlank c = true) :
    c = ' ' ∨ c = '\t' ∨ c = '\n' ∨ c = '\x0c' ∨ c = '\r' := by
  simpa [isBlank, or_assoc] using h

theorem isMantissa_isWord {c : Char} (h : isMantissa c = true) : isWord c = true := by
  simp only [isMantissa, Bool.or_eq_true, decide_eq_true_eq] at h
  rcases h with h | rfl
  · simp [isWord, Char.isAlphanum, h]
  · rfl

theorem isWord_of_isOpener {c : Char} (h : isOpener c = true) : isWord c = false := by
  rcases isOpener_cases h with rfl | rfl | rfl | rfl | rfl | rfl | rfl <;> rfl

theorem isWord_of_isBlank {c : Char} (h : isBlank c = true) : isWord c = false := by
  rcases isBlank_cases h with rfl | rfl | rfl | rfl | rfl <;> rfl

theorem isBlank_of_isOpener {c : Char} (h : isOpener c = true) : isBlank c = false := by
  rcases isOpener_cases h with rfl | rfl | rfl | rfl | rfl | rfl | rfl <;> rfl

/-- A character that neither begins an operand nor ends a group. -/
def Plain (c : Char) : Prop := isOpener c = false ∧ c ≠ ')'

theorem Plain.ne_opener {c d : Char} (h : Plain c) (hd : isOpener d = true) : c ≠ d := by
  rintro rfl
  rw [h.1] at hd
  simp at hd

theorem plain_of_isBlank {c : Char} (h : isBlank c = true) : Plain c := by
  rcases isBlank_cases h with rfl | rfl | rfl | rfl | rfl <;> exact ⟨rfl, by decide⟩

theorem Balanced.of_plain {text : List Char} (h : ∀ c ∈ text, Plain c) : Balanced text :=
  .of_forall fun c hc => ⟨(h c hc).ne_opener rfl, (h c hc).2⟩

namespace OpensOperand

variable {before : List Char}

theorem nil : OpensOperand [] := by simp [OpensOperand]

theorem cons {c : Char} (h : isOpener c = true) : OpensOperand (c :: before) := by
  intro d hd
  rw [List.find?_cons_of_pos (by simp [isBlank_of_isOpener h])] at hd
  obtain rfl := Option.some.inj hd
  exact h

theorem blanks {blanks : List Char} (hb : ∀ c ∈ blanks, isBlank c = true)
    (h : OpensOperand before) : OpensOperand (blanks ++ before) := by
  intro c hc
  rw [List.find?_append, List.find?_eq_none.mpr (by simpa using hb)] at hc
  exact h c hc

theorem append {u : List Char} (hu : OpensOperand u) (h : OpensOperand before) :
    OpensOperand (u ++ before) := by
  intro c hc
  rw [List.find?_append] at hc
  rcases Option.or_eq_some_iff.mp hc with hleft | ⟨_, hright⟩
  · exact hu c hleft
  · exact h c hright

theorem isSignAfter (h : OpensOperand before) : isSignAfter before = true := by
  unfold Formulary.isSignAfter
  split
  · rfl
  next c hc =>
    have hopen := h c hc
    rw [isOpener] at hopen
    rw [hopen, Bool.true_or]

theorem isWord_head (h : OpensOperand before) {c : Char} (hc : before.head? = some c) :
    isWord c = false := by
  obtain ⟨rest, rfl⟩ := List.head?_eq_some_iff.mp hc
  by_cases hb : isBlank c = true
  · exact isWord_of_isBlank hb
  · exact isWord_of_isOpener (h c (List.find?_cons_of_pos (by simpa using hb)))

theorem isMantissa_head (h : OpensOperand before) {c : Char} (hc : before.head? = some c) :
    isMantissa c = false := by
  by_contra hm
  have hw := isMantissa_isWord (by simpa using hm)
  rw [h.isWord_head hc] at hw
  exact absurd hw (by simp)

theorem takeWhile_append (h : OpensOperand before) (u : List Char) :
    (u ++ before).takeWhile isMantissa = u.takeWhile isMantissa := by
  induction u with
  | nil =>
    cases before with
    | nil => rfl
    | cons c rest => simp [h.isMantissa_head rfl]
  | cons c rest ih => by_cases hm : isMantissa c = true <;> simp [hm, ih]

theorem dropWhile_append (h : OpensOperand before) (u : List Char) :
    ((u ++ before).dropWhile isMantissa).head?.all (fun c => !isWord c) =
      (u.dropWhile isMantissa).head?.all fun c => !isWord c := by
  induction u with
  | nil =>
    cases before with
    | nil => rfl
    | cons c rest => simp [h.isMantissa_head rfl, h.isWord_head rfl]
  | cons c rest ih => by_cases hm : isMantissa c = true <;> simp [hm, ih]

/-- Whether a sign is one is decided within the operand: what stands left of the operand makes no
difference. -/
theorem isSignAfter_append (h : OpensOperand before) (u : List Char) :
    Formulary.isSignAfter (u ++ before) = Formulary.isSignAfter u := by
  cases u with
  | nil => rw [List.nil_append, h.isSignAfter]; rfl
  | cons letter rest =>
    have hexp : isExponentSign (letter :: rest ++ before) = isExponentSign (letter :: rest) := by
      rw [List.cons_append, isExponentSign, isExponentSign, h.takeWhile_append,
        h.dropWhile_append]
    unfold Formulary.isSignAfter
    rw [List.find?_append, hexp]
    cases (letter :: rest).find? fun c => !isBlank c with
    | some c => rfl
    | none =>
      have hs := h.isSignAfter
      unfold Formulary.isSignAfter at hs
      rw [Option.none_or]
      cases hb : before.find? fun c => !isBlank c with
      | none => rfl
      | some c =>
        have hopen := h c hb
        rw [isOpener] at hopen
        simp only [hopen, Bool.true_or]

end OpensOperand

end Formulary
