import Mathlib.Data.List.TakeWhile
import Formulary.Numeral

namespace Formulary

def Digits (text : List Char) : Prop := text ≠ [] ∧ ∀ c ∈ text, c.isDigit = true

/-- The part of a literal before its exponent, with all its digits and the number of those that
stand after the point. -/
inductive Mantissa : List Char → List Char → Nat → Prop
  | whole {ds : List Char} : Digits ds → Mantissa ds ds 0
  | point {ds fs : List Char} : Digits ds → (∀ c ∈ fs, c.isDigit = true) →
    Mantissa (ds ++ '.' :: fs) (ds ++ fs) fs.length
  | fraction {fs : List Char} : Digits fs → Mantissa ('.' :: fs) fs fs.length

inductive Exponent : List Char → Int → Prop
  | none : Exponent [] 0
  | plain {letter : Char} {ds : List Char} : letter = 'e' ∨ letter = 'E' → Digits ds →
    Exponent (letter :: ds) (Nat.ofDigitChars 10 ds 0)
  | plus {letter : Char} {ds : List Char} : letter = 'e' ∨ letter = 'E' → Digits ds →
    Exponent (letter :: '+' :: ds) (Nat.ofDigitChars 10 ds 0)
  | minus {letter : Char} {ds : List Char} : letter = 'e' ∨ letter = 'E' → Digits ds →
    Exponent (letter :: '-' :: ds) (-(Nat.ofDigitChars 10 ds 0 : Int))

/-- A number without a sign and the decimal that it denotes. -/
inductive Literal : List Char → Decimal → Prop
  | mk {m ds x : List Char} {places : Nat} {e : Int} : Mantissa m ds places → Exponent x e →
    Literal (m ++ x) ⟨Nat.ofDigitChars 10 ds 0, e - places⟩

section Read

variable {text x ds : List Char} {e : Int} {d : Decimal}

theorem splitSign_cases (text : List Char) :
    (∃ rest, text = '-' :: rest ∧ splitSign text = (true, rest)) ∨
    (∃ rest, text = '+' :: rest ∧ splitSign text = (false, rest)) ∨
    splitSign text = (false, text) := by
  unfold splitSign
  split
  next rest => exact Or.inl ⟨rest, rfl, rfl⟩
  next rest => exact Or.inr (Or.inl ⟨rest, rfl, rfl⟩)
  next => exact Or.inr (Or.inr rfl)

theorem splitSign_of_head {c : Char} (hc : text.head? = some c) (hm : c ≠ '-') (hp : c ≠ '+') :
    splitSign text = (false, text) := by
  obtain ⟨rest, rfl⟩ := List.head?_eq_some_iff.mp hc
  unfold splitSign
  split
  next h => exact absurd (List.cons.inj h).1 hm
  next h => exact absurd (List.cons.inj h).1 hp
  next => rfl

theorem splitSign_of_digits (h : Digits ds) : splitSign ds = (false, ds) := by
  obtain ⟨hne, hd⟩ := h
  obtain ⟨c, rest, rfl⟩ := List.exists_cons_of_ne_nil hne
  have hc : c.isDigit = true := hd c (by simp)
  refine splitSign_of_head rfl ?_ ?_
  · intro he
    rw [he] at hc
    exact absurd hc (by decide)
  · intro he
    rw [he] at hc
    exact absurd hc (by decide)

theorem readExponent?_eq_some : readExponent? x = some e ↔ Exponent x e := by
  constructor
  · intro h
    cases x with
    | nil =>
      obtain rfl := Option.some.inj h
      exact .none
    | cons letter rest =>
      simp only [readExponent?] at h
      split at h
      next hx =>
        obtain ⟨hletter, hne, hall⟩ := hx
        have hdigits : Digits (splitSign rest).2 := ⟨hne, List.all_eq_true.mp hall⟩
        have he := Option.some.inj h
        rcases splitSign_cases rest with ⟨ds, rfl, hs⟩ | ⟨ds, rfl, hs⟩ | hs
        · rw [hs] at hdigits he
          rw [← he]
          exact .minus hletter hdigits
        · rw [hs] at hdigits he
          rw [← he]
          exact .plus hletter hdigits
        · rw [hs] at hdigits he
          rw [← he]
          exact .plain hletter hdigits
      next => simp at h
  · intro h
    cases h with
    | none => rfl
    | plain hletter hdigits =>
      have hall := List.all_eq_true.mpr hdigits.2
      simp [readExponent?, splitSign_of_digits hdigits, hletter, hdigits.1, hall]
    | plus hletter hdigits =>
      have hall := List.all_eq_true.mpr hdigits.2
      simp [readExponent?, splitSign, hletter, hdigits.1, hall]
    | minus hletter hdigits =>
      have hall := List.all_eq_true.mpr hdigits.2
      simp [readExponent?, splitSign, hletter, hdigits.1, hall]

theorem Exponent.head (h : Exponent x e) {c : Char} (hc : x.head? = some c) :
    c = 'e' ∨ c = 'E' := by
  cases h with
  | none => simp at hc
  | plain hletter => exact Option.some.inj hc ▸ hletter
  | plus hletter => exact Option.some.inj hc ▸ hletter
  | minus hletter => exact Option.some.inj hc ▸ hletter

theorem takeWhile_digits (hds : ∀ c ∈ ds, c.isDigit = true)
    (hx : ∀ c, x.head? = some c → c.isDigit = false) :
    (ds ++ x).takeWhile Char.isDigit = ds ∧ (ds ++ x).dropWhile Char.isDigit = x := by
  rw [List.takeWhile_append_of_pos hds, List.dropWhile_append_of_pos hds]
  cases x with
  | nil => simp
  | cons c rest =>
    have hc := hx c rfl
    simp [hc]

/-- The value of a numeral without a sign. -/
def readDecimal? (text : List Char) : Option Decimal :=
  let whole := text.takeWhile Char.isDigit
  let (fraction, rest) := splitFraction (text.dropWhile Char.isDigit)
  if whole ++ fraction = [] then none
  else (readExponent? rest).map fun exponent =>
    ⟨Nat.ofDigitChars 10 (whole ++ fraction) 0, exponent - fraction.length⟩

theorem Numeral.read?_eq (text : List Char) :
    Numeral.read? text =
      (readDecimal? (splitSign text).2).map fun d => ⟨(splitSign text).1, d⟩ := by
  simp only [Numeral.read?, readDecimal?]
  split
  · rfl
  · rw [Option.map_map]
    rfl

theorem splitFraction_of_exponent (h : Exponent x e) : splitFraction x = ([], x) := by
  unfold splitFraction
  split
  next => rcases h.head rfl with hc | hc <;> simp at hc
  next => rfl

theorem readDecimal?_of_literal (h : Literal text d) : readDecimal? text = some d := by
  cases h with
  | @mk m ds x places e hm hx =>
    have hstop : ∀ c, x.head? = some c → c.isDigit = false := by
      intro c hc
      rcases hx.head hc with rfl | rfl <;> rfl
    have hread := readExponent?_eq_some.mpr hx
    cases hm with
    | whole hd =>
      obtain ⟨htake, hdrop⟩ := takeWhile_digits hd.2 hstop
      simp [readDecimal?, htake, hdrop, splitFraction_of_exponent hx, hd.1, hread]
    | @point ds fs hd hf =>
      obtain ⟨htake, hdrop⟩ := takeWhile_digits (x := '.' :: (fs ++ x)) hd.2 (by simp)
      obtain ⟨hftake, hfdrop⟩ := takeWhile_digits hf hstop
      rw [List.append_assoc, List.cons_append, readDecimal?, htake, hdrop]
      simp [splitFraction, hftake, hfdrop, hd.1, hread]
    | fraction hf =>
      obtain ⟨hftake, hfdrop⟩ := takeWhile_digits hf.2 hstop
      simp [readDecimal?, splitFraction, hftake, hfdrop, hf.1, hread]

theorem splitFraction_cases (text : List Char) :
    (∃ rest, text = '.' :: rest ∧
      splitFraction text = (rest.takeWhile Char.isDigit, rest.dropWhile Char.isDigit)) ∨
    splitFraction text = ([], text) := by
  unfold splitFraction
  split
  next rest => exact Or.inl ⟨rest, rfl, rfl⟩
  next => exact Or.inr rfl

theorem literal_of_readDecimal? (h : readDecimal? text = some d) : Literal text d := by
  have hds : ∀ c ∈ text.takeWhile Char.isDigit, c.isDigit = true :=
    fun c hc => List.mem_takeWhile_imp hc
  have htext := List.takeWhile_append_dropWhile (p := Char.isDigit) (l := text)
  simp only [readDecimal?] at h
  split at h
  next => simp at h
  next hne =>
    obtain ⟨e, he, rfl⟩ := Option.map_eq_some_iff.mp h
    have hx := readExponent?_eq_some.mp he
    rcases splitFraction_cases (text.dropWhile Char.isDigit) with ⟨rest, hrest, hs⟩ | hs
    · rw [hs] at hne hx
      rw [hs]
      have hfs : ∀ c ∈ rest.takeWhile Char.isDigit, c.isDigit = true :=
        fun c hc => List.mem_takeWhile_imp hc
      have hsplit := List.takeWhile_append_dropWhile (p := Char.isDigit) (l := rest)
      by_cases hwhole : text.takeWhile Char.isDigit = []
      · rw [hwhole, List.nil_append] at hne htext
        have hlit := Literal.mk (.fraction ⟨hne, hfs⟩) hx
        rw [List.cons_append, hsplit, ← hrest, htext] at hlit
        rw [hwhole]
        exact hlit
      · have hlit := Literal.mk (.point ⟨hwhole, hds⟩ hfs) hx
        rw [List.append_assoc, List.cons_append, hsplit, ← hrest, htext] at hlit
        exact hlit
    · rw [hs, List.append_nil] at hne
      rw [hs] at hx
      have hlit := Literal.mk (.whole ⟨hne, hds⟩) hx
      rw [htext] at hlit
      rw [hs, List.append_nil]
      exact hlit

theorem readDecimal?_eq_some : readDecimal? text = some d ↔ Literal text d :=
  ⟨literal_of_readDecimal?, readDecimal?_of_literal⟩

end Read

end Formulary
