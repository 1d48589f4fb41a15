import Formulary.Proofs.Literal
import Formulary.Proofs.Phrase

namespace Formulary

variable {text m ds x : List Char} {places : Nat} {e : Int} {d : Decimal} {c : Char}

theorem isMantissa_of_isDigit (h : c.isDigit = true) : isMantissa c = true := by
  simp [isMantissa, h]

theorem isBlank_of_isMantissa (h : isMantissa c = true) : isBlank c = false := by
  by_contra hb
  have hw := isMantissa_isWord h
  rw [isWord_of_isBlank (by simpa using hb)] at hw
  simp at hw

theorem plain_of_isMantissa (h : isMantissa c = true) : Plain c := by
  constructor
  · by_contra ho
    have hw := isMantissa_isWord h
    rw [isWord_of_isOpener (by simpa using ho)] at hw
    simp at hw
  · rintro rfl
    exact absurd h (by decide)

theorem plain_of_exponentLetter (h : c = 'e' ∨ c = 'E') : Plain c := by
  rcases h with rfl | rfl <;> exact ⟨rfl, by decide⟩

theorem Digits.isMantissa (h : Digits ds) : ∀ c ∈ ds, isMantissa c = true :=
  fun c hc => isMantissa_of_isDigit (h.2 c hc)

theorem Mantissa.chars (h : Mantissa m ds places) :
    (∀ c ∈ m, isMantissa c = true) ∧ ∃ c ∈ m, c.isDigit = true := by
  have some_digit : ∀ {ds : List Char}, Digits ds → ∃ c ∈ ds, c.isDigit = true := by
    intro ds hds
    obtain ⟨c, rest, rfl⟩ := List.exists_cons_of_ne_nil hds.1
    exact ⟨c, List.mem_cons_self, hds.2 c List.mem_cons_self⟩
  cases h with
  | whole hds => exact ⟨hds.isMantissa, some_digit hds⟩
  | point hds hfs =>
    obtain ⟨c, hc, hd⟩ := some_digit hds
    refine ⟨List.forall_mem_append.mpr ⟨hds.isMantissa, ?_⟩, c, List.mem_append_left _ hc, hd⟩
    exact List.forall_mem_cons.mpr ⟨rfl, fun c hc => isMantissa_of_isDigit (hfs c hc)⟩
  | fraction hfs =>
    obtain ⟨c, hc, hd⟩ := some_digit hfs
    exact ⟨List.forall_mem_cons.mpr ⟨rfl, hfs.isMantissa⟩, c, List.mem_cons_of_mem _ hc, hd⟩

theorem Exponent.text_cases (h : Exponent x e) :
    x = [] ∨ ∃ letter sign ds, x = letter :: (sign ++ ds) ∧ (letter = 'e' ∨ letter = 'E') ∧
      (sign = [] ∨ ∃ c, sign = [c] ∧ isPlusMinus c = true) ∧ Digits ds := by
  cases h with
  | none => exact Or.inl rfl
  | @plain letter ds hletter hds =>
    exact Or.inr ⟨letter, [], ds, rfl, hletter, Or.inl rfl, hds⟩
  | @plus letter ds hletter hds =>
    exact Or.inr ⟨letter, ['+'], ds, rfl, hletter, Or.inr ⟨'+', rfl, rfl⟩, hds⟩
  | @minus letter ds hletter hds =>
    exact Or.inr ⟨letter, ['-'], ds, rfl, hletter, Or.inr ⟨'-', rfl, rfl⟩, hds⟩

theorem Literal.balanced (h : Literal text d) : Balanced text := by
  obtain ⟨hm, hx⟩ := h
  have hmantissa : Balanced _ := .of_plain fun c hc => plain_of_isMantissa (hm.chars.1 c hc)
  refine hmantissa.append ?_
  rcases hx.text_cases with rfl | ⟨letter, sign, ds, rfl, hletter, hsign, hds⟩
  · exact .nil
  · have hdigits : Balanced ds := .of_plain fun c hc => plain_of_isMantissa (hds.isMantissa c hc)
    have hl := plain_of_exponentLetter hletter
    refine .char (hl.ne_opener rfl) hl.2 ?_
    rcases hsign with rfl | ⟨c, rfl, hc⟩
    · exact hdigits
    · rcases isPlusMinus_cases hc with rfl | rfl
      · exact .char (by decide) (by decide) hdigits
      · exact .char (by decide) (by decide) hdigits

theorem Literal.head (h : Literal text d) :
    ∃ c rest, text = c :: rest ∧ isMantissa c = true := by
  cases h with
  | @mk m ds x places e hm hx =>
    obtain ⟨hchars, digit, hdigit, _⟩ := hm.chars
    obtain ⟨c, rest, rfl⟩ := List.exists_cons_of_ne_nil (List.ne_nil_of_mem hdigit)
    exact ⟨c, rest ++ x, rfl, hchars c List.mem_cons_self⟩

theorem Literal.last (h : Literal text d) :
    ∃ initial c, text = initial ++ [c] ∧ isMantissa c = true := by
  have ends : ∀ {u v : List Char}, v ≠ [] → (∀ c ∈ v, isMantissa c = true) →
      ∃ initial c, u ++ v = initial ++ [c] ∧ isMantissa c = true := by
    intro u v hne hv
    rcases List.eq_nil_or_concat v with rfl | ⟨middle, c, rfl⟩
    · exact absurd rfl hne
    · exact ⟨u ++ middle, c, by simp, hv c (by simp)⟩
  obtain ⟨hm, hx⟩ := h
  rcases hx.text_cases with rfl | ⟨letter, sign, ds, rfl, _, _, hds⟩
  · obtain ⟨hchars, digit, hdigit, _⟩ := hm.chars
    rw [List.append_nil]
    exact ends (u := []) (List.ne_nil_of_mem hdigit) hchars
  · rw [← List.cons_append, ← List.append_assoc]
    exact ends hds.1 hds.isMantissa

theorem Literal.ends (h : Literal text d) :
    text.head?.any (fun c => !isBlank c) = true ∧
      text.getLast?.any (fun c => !isBlank c) = true := by
  obtain ⟨first, later, hfirst, hf⟩ := h.head
  obtain ⟨initial, last, hlast, hl⟩ := h.last
  constructor
  · simp [hfirst, isBlank_of_isMantissa hf]
  · simp [hlast, isBlank_of_isMantissa hl]

theorem Mantissa.isSignAfter_exponent (h : Mantissa m ds places) {letter : Char}
    (hletter : letter = 'e' ∨ letter = 'E') : isSignAfter (m ++ [letter]).reverse = true := by
  obtain ⟨hchars, digit, hdigit, hd⟩ := h.chars
  have hrev : ∀ c ∈ m.reverse, isMantissa c = true := fun c hc => hchars c (List.mem_reverse.mp hc)
  have htake : m.reverse.takeWhile isMantissa = m.reverse := List.takeWhile_eq_self_iff.mpr hrev
  have hdrop : m.reverse.dropWhile isMantissa = [] := List.dropWhile_eq_nil_iff.mpr hrev
  have hany : m.reverse.any Char.isDigit = true :=
    List.any_eq_true.mpr ⟨digit, List.mem_reverse.mpr hdigit, hd⟩
  have hexp : isExponentSign (letter :: m.reverse) = true := by
    rw [isExponentSign, htake, hdrop, hany]
    simp [hletter]
  have hb : isBlank letter = false := by
    rcases hletter with rfl | rfl <;> rfl
  rw [List.reverse_append, List.reverse_singleton, List.singleton_append, isSignAfter,
    List.find?_cons_of_pos (by simp [hb]), hexp]
  simp only [Bool.or_true]

/-- The sign of an exponent does not show. -/
theorem Mantissa.not_mem_mask_sign (h : Mantissa m ds places) {letter sign : Char}
    {later : List Char} (hletter : letter = 'e' ∨ letter = 'E') (hsign : isPlusMinus sign = true)
    (hlater : ∀ c ∈ later, Plain c) (ho : isOpener c = true) :
    some c ∉ mask (m ++ letter :: sign :: later) := by
  intro hc
  have hplain : ∀ d ∈ m ++ [letter], Plain d := by
    refine List.forall_mem_append.mpr ⟨fun d hd => plain_of_isMantissa (h.chars.1 d hd), ?_⟩
    simpa using plain_of_exponentLetter hletter
  rw [← List.singleton_append, ← List.append_assoc, mask, maskFrom_append,
    (Balanced.of_plain hplain).depthBehind_eq, List.append_nil, maskFrom,
    if_pos (Or.inr (Or.inr ⟨hsign, h.isSignAfter_exponent hletter⟩))] at hc
  rcases List.mem_append.mp hc with hl | hr
  · exact not_mem_maskFrom_of_plain hplain ho hl
  · exact not_mem_maskFrom_of_plain hlater ho (by simpa using hr)

theorem Literal.not_mem_mask (h : Literal text d) (ho : isOpener c = true) :
    some c ∉ mask text := by
  obtain ⟨hm, hx⟩ := h
  have hmantissa := fun c hc => plain_of_isMantissa (hm.chars.1 c hc)
  rcases hx.text_cases with rfl | ⟨letter, sign, ds, rfl, hletter, hsign, hds⟩
  · rw [List.append_nil]
    exact not_mem_maskFrom_of_plain hmantissa ho
  · have hdigits := fun c hc => plain_of_isMantissa (hds.isMantissa c hc)
    rcases hsign with rfl | ⟨sign, rfl, hsign⟩
    · refine not_mem_maskFrom_of_plain (List.forall_mem_append.mpr ⟨hmantissa, ?_⟩) ho
      exact List.forall_mem_cons.mpr ⟨plain_of_exponentLetter hletter, hdigits⟩
    · exact hm.not_mem_mask_sign hletter hsign hdigits ho

theorem Phrase.of_literal (h : Literal text d) : Phrase .atom text := by
  obtain ⟨initial, c, htext, hc⟩ := h.last
  have hexp : ∀ before, isExponentSign (c :: before) = false := by
    intro before
    refine isExponentSign_cons ?_ ?_
    · rintro rfl
      exact absurd hc (by decide)
    · rintro rfl
      exact absurd hc (by decide)
  refine .atom h.balanced (fun _ hd => h.not_mem_mask hd) ?_
    ⟨c, by simp [htext], isBlank_of_isMantissa hc⟩
  rw [htext, List.reverse_append, List.reverse_singleton, List.singleton_append]
  exact isSignAfter_cons (isBlank_of_isMantissa hc) (plain_of_isMantissa hc).1 (hexp _)

theorem Numeral.read?_of_literal (h : Literal text d) :
    Numeral.read? text = some ⟨false, d⟩ := by
  obtain ⟨c, rest, htext, hc⟩ := h.head
  have hplain := plain_of_isMantissa hc
  have hhead : text.head? = some c := by rw [htext, List.head?_cons]
  have hsign := splitSign_of_head hhead (hplain.ne_opener rfl) (hplain.ne_opener rfl)
  rw [Numeral.read?_eq, hsign, readDecimal?_eq_some.mpr h]
  rfl

theorem Numeral.read?_signed {negative : Bool} {n : Numeral} {rest : List Char}
    (hs : splitSign text = (negative, rest)) (h : Numeral.read? text = some n) :
    ∃ d, n = ⟨negative, d⟩ ∧ Literal rest d := by
  rw [Numeral.read?_eq, hs] at h
  obtain ⟨d, hd, rfl⟩ := Option.map_eq_some_iff.mp h
  exact ⟨d, rfl, readDecimal?_eq_some.mp hd⟩

theorem Numeral.read?_eq_none {rest : List Char} (ht : text = c :: rest)
    (hc : isMantissa c = false) (hplain : Plain c) : Numeral.read? text = none := by
  have hhead : text.head? = some c := by rw [ht, List.head?_cons]
  have hsign := splitSign_of_head hhead (hplain.ne_opener rfl) (hplain.ne_opener rfl)
  cases hread : Numeral.read? text with
  | none => rfl
  | some n =>
    obtain ⟨d, _, hlit⟩ := Numeral.read?_signed hsign hread
    obtain ⟨first, later, htext, hfirst⟩ := hlit.head
    obtain rfl : c = first := (List.cons.inj (ht.symm.trans htext)).1
    rw [hc] at hfirst
    simp at hfirst

end Formulary
