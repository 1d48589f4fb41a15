import Formulary.ByteScan
import Formulary.Proofs.BalanceDepth

namespace Formulary

/-- The bytes of a character, each as the character that has its number. -/
def unitsOf (c : Char) : List Char := (String.utf8EncodeChar c).map Char.ofUInt8

def codeUnits (text : List Char) : List Char := text.flatMap unitsOf

theorem bytesOf_eq (source : String) : bytesOf source = codeUnits source.toList := by
  rw [bytesOf, ← String.utf8Encode_toList, List.utf8Encode, List.data_toByteArray]
  simp only [codeUnits, List.map_flatMap]
  rfl

/-- A character beyond ASCII. None of them means anything to the scanner. -/
def Wide (c : Char) : Prop := 127 < c.toNat

instance (c : Char) : Decidable (Wide c) := inferInstanceAs (Decidable (127 < c.toNat))

section Wide

variable {c d : Char}

theorem Wide.ne (h : Wide c) (hd : ¬Wide d) : c ≠ d := by
  rintro rfl
  exact hd h

theorem Wide.isDigit_eq_false (h : Wide c) : c.isDigit = false := by
  rw [Bool.eq_false_iff, ne_eq, isDigit_iff]
  unfold Wide at h
  omega

theorem Wide.isAlpha_eq_false (h : Wide c) : c.isAlpha = false := by
  rw [Bool.eq_false_iff, ne_eq, isAlpha_iff]
  unfold Wide at h
  omega

theorem Wide.isWord_eq_false (h : Wide c) : isWord c = false := by
  have hpoint : c ≠ '.' := h.ne (by decide)
  have hline : c ≠ '_' := h.ne (by decide)
  simp [isWord, Char.isAlphanum, h.isAlpha_eq_false, h.isDigit_eq_false, hpoint, hline]

theorem Wide.isMantissa_eq_false (h : Wide c) : isMantissa c = false := by
  by_contra hm
  have := isMantissa_isWord (by simpa using hm)
  simp [h.isWord_eq_false] at this

theorem Wide.isBlank_eq_false (h : Wide c) : isBlank c = false := by
  by_contra hb
  rcases isBlank_cases (by simpa using hb) with rfl | rfl | rfl | rfl | rfl <;>
    exact absurd h (by decide)

theorem Wide.not_mem (h : Wide c) {cs : List Char} (hcs : ∀ d ∈ cs, ¬Wide d) :
    cs.contains c = false := by
  simpa using fun hm => hcs c hm h

end Wide

theorem toNat_ofUInt8 (b : UInt8) : (Char.ofUInt8 b).toNat = b.toNat :=
  UInt8.toNat_toUInt32 b

theorem unitsOf_of_not_wide {c : Char} (h : ¬Wide c) : unitsOf c = [c] := by
  have hc : c.val.toNat ≤ 127 := Nat.not_lt.mp h
  have hsize : c.utf8Size = 1 := Char.utf8Size_eq_one_iff.mpr (UInt32.le_iff_toNat_le.mpr hc)
  have hval : Char.ofUInt8 c.val.toUInt8 = c := by
    apply Char.ext
    apply UInt32.toNat_inj.mp
    show c.val.toUInt8.toUInt32.toNat = c.val.toNat
    rw [UInt8.toNat_toUInt32, UInt32.toNat_toUInt8]
    omega
  rw [unitsOf, String.utf8EncodeChar_eq_singleton hsize, List.map_singleton, hval]

/-- All bytes of a character beyond ASCII are beyond ASCII. -/
theorem wide_of_mem_unitsOf {c d : Char} (h : Wide c) (hd : d ∈ unitsOf c) : Wide d := by
  have byte : ∀ n : Nat, 127 < n → n < 256 → 127 < (UInt8.ofNat n).toNat := by
    intro n hn hsize
    rwa [UInt8.toNat_ofNat_of_lt' hsize]
  obtain ⟨b, hb, rfl⟩ := List.mem_map.mp hd
  rw [Wide, toNat_ofUInt8]
  have hc : ¬c.val.toNat ≤ 127 := Nat.not_le.mpr h
  simp only [String.utf8EncodeChar, hc, if_false] at hb
  split at hb
  · simp only [List.mem_cons, List.not_mem_nil, or_false] at hb
    rcases hb with rfl | rfl <;> apply byte <;> omega
  · split at hb
    · simp only [List.mem_cons, List.not_mem_nil, or_false] at hb
      rcases hb with rfl | rfl | rfl <;> apply byte <;> omega
    · simp only [List.mem_cons, List.not_mem_nil, or_false] at hb
      rcases hb with rfl | rfl | rfl | rfl <;> apply byte <;> omega

/-- A byte is that of a character of ASCII only if it is this character. -/
theorem eq_iff_of_mem_unitsOf {c d x : Char} (hd : d ∈ unitsOf c) (hx : ¬Wide x) :
    d = x ↔ c = x := by
  by_cases hc : Wide c
  · exact iff_of_false ((wide_of_mem_unitsOf hc hd).ne hx) (hc.ne hx)
  · rw [unitsOf_of_not_wide hc, List.mem_singleton] at hd
    rw [hd]

theorem unitsOf_length (c : Char) : (unitsOf c).length = c.utf8Size := by
  rw [unitsOf, List.length_map, String.length_utf8EncodeChar]

theorem unitsOf_ne_nil (c : Char) : unitsOf c ≠ [] := by
  intro hnil
  have hlen := unitsOf_length c
  rw [hnil, List.length_nil] at hlen
  exact absurd c.utf8Size_pos (by omega)

theorem codeUnits_cons (c : Char) (text : List Char) :
    codeUnits (c :: text) = unitsOf c ++ codeUnits text := List.flatMap_cons

theorem codeUnits_append (u v : List Char) : codeUnits (u ++ v) = codeUnits u ++ codeUnits v :=
  List.flatMap_append

theorem codeUnits_length (text : List Char) : (codeUnits text).length = textSize text := by
  induction text with
  | nil => rfl
  | cons c rest ih => rw [codeUnits_cons, List.length_append, unitsOf_length, ih, textSize]

theorem codeUnits_of_not_wide {text : List Char} (h : ∀ c ∈ text, ¬Wide c) :
    codeUnits text = text := by
  induction text with
  | nil => rfl
  | cons c rest ih =>
    obtain ⟨hc, hrest⟩ := List.forall_mem_cons.mp h
    rw [codeUnits_cons, unitsOf_of_not_wide hc, ih hrest]
    rfl

/-- A way to write characters: those of ASCII as they are, all others as characters beyond ASCII.
Both the bytes of a text and the bytes from right to left are written so. -/
structure Widens (e : Char → List Char) : Prop where
  narrow : ∀ {c : Char}, ¬Wide c → e c = [c]
  wide : ∀ {c : Char}, Wide c → e c ≠ [] ∧ ∀ d ∈ e c, Wide d

theorem unitsOf_widens : Widens unitsOf where
  narrow := unitsOf_of_not_wide
  wide {c} h := ⟨unitsOf_ne_nil c, fun _ => wide_of_mem_unitsOf h⟩

theorem codeUnits_reverse (text : List Char) :
    (codeUnits text).reverse = text.reverse.flatMap (List.reverse ∘ unitsOf) :=
  List.reverse_flatMap

theorem find?_not_isBlank (text : List Char) :
    text.find? (fun c => !isBlank c) = (text.dropWhile isBlank).head? := by
  rw [List.find?_eq_head?_dropWhile_not]
  simp only [Bool.not_not]

namespace Widens

variable {e : Char → List Char} {p : Char → Bool} {text : List Char}

theorem reverse (h : Widens e) : Widens (List.reverse ∘ e) where
  narrow hc := by simp [h.narrow hc]
  wide hc := by simpa using h.wide hc

theorem takeWhile (h : Widens e) (hp : ∀ c, Wide c → p c = false) :
    (text.flatMap e).takeWhile p = text.takeWhile p := by
  induction text with
  | nil => rfl
  | cons c rest ih =>
    rw [List.flatMap_cons]
    by_cases hc : Wide c
    · obtain ⟨hne, hall⟩ := h.wide hc
      obtain ⟨d, more, hd⟩ := List.exists_cons_of_ne_nil hne
      have hwide := hp d (hall d (by simp [hd]))
      simp [hd, hwide, hp c hc]
    · rw [h.narrow hc, List.singleton_append, List.takeWhile_cons, List.takeWhile_cons, ih]

theorem dropWhile (h : Widens e) (hp : ∀ c, Wide c → p c = false) :
    (text.flatMap e).dropWhile p = (text.dropWhile p).flatMap e := by
  induction text with
  | nil => rfl
  | cons c rest ih =>
    rw [List.flatMap_cons]
    by_cases hc : Wide c
    · obtain ⟨hne, hall⟩ := h.wide hc
      obtain ⟨d, more, hd⟩ := List.exists_cons_of_ne_nil hne
      have hwide := hp d (hall d (by simp [hd]))
      simp [hd, hwide, hp c hc]
    · rw [h.narrow hc, List.singleton_append, List.dropWhile_cons, List.dropWhile_cons, ih]
      split
      · rfl
      · rw [List.flatMap_cons, h.narrow hc, List.singleton_append]

/-- The first character is the same, or both are beyond ASCII. -/
theorem head? (h : Widens e) (text : List Char) :
    (text.flatMap e).head? = text.head? ∨
      ∃ c d, text.head? = some c ∧ (text.flatMap e).head? = some d ∧ Wide c ∧ Wide d := by
  cases text with
  | nil => exact Or.inl rfl
  | cons c rest =>
    rw [List.flatMap_cons]
    by_cases hc : Wide c
    · obtain ⟨hne, hall⟩ := h.wide hc
      obtain ⟨d, more, hd⟩ := List.exists_cons_of_ne_nil hne
      exact Or.inr ⟨c, d, rfl, by simp [hd], hc, hall d (by simp [hd])⟩
    · exact Or.inl (by rw [h.narrow hc]; rfl)

theorem isExponentSign (h : Widens e) :
    Formulary.isExponentSign (text.flatMap e) = Formulary.isExponentSign text := by
  cases text with
  | nil => rfl
  | cons letter before =>
    rw [List.flatMap_cons]
    by_cases hc : Wide letter
    · obtain ⟨hne, hall⟩ := h.wide hc
      obtain ⟨d, more, hd⟩ := List.exists_cons_of_ne_nil hne
      have hwide : Wide d := hall d (by simp [hd])
      have hletter : ∀ {c : Char}, Wide c → c ≠ 'e' ∧ c ≠ 'E' :=
        fun hc => ⟨hc.ne (by decide), hc.ne (by decide)⟩
      simp [hd, Formulary.isExponentSign, hletter hc, hletter hwide]
    · rw [h.narrow hc, List.singleton_append, Formulary.isExponentSign, Formulary.isExponentSign,
        h.takeWhile fun _ => Wide.isMantissa_eq_false,
        h.dropWhile fun _ => Wide.isMantissa_eq_false]
      congr 1
      rcases h.head? (before.dropWhile isMantissa) with hh | ⟨c, d, hc, hd, hcw, hdw⟩
      · rw [hh]
      · rw [hc, hd]
        simp [hcw.isWord_eq_false, hdw.isWord_eq_false]

/-- Whether a sign is one is read off the bytes as off the characters. -/
theorem isSignAfter (h : Widens e) :
    Formulary.isSignAfter (text.flatMap e) = Formulary.isSignAfter text := by
  unfold Formulary.isSignAfter
  rw [find?_not_isBlank, find?_not_isBlank, h.dropWhile fun _ => Wide.isBlank_eq_false,
    h.isExponentSign]
  rcases h.head? (text.dropWhile isBlank) with hh | ⟨c, d, hc, hd, hcw, hdw⟩
  · rw [hh]
  · have hopener : ∀ c ∈ "+-*/^(,".toList, ¬Wide c := by simp [Wide]
    simp only [hc, hd, hcw.not_mem hopener, hdw.not_mem hopener]

theorem opensOperand (h : Widens e) (ht : OpensOperand text) : OpensOperand (text.flatMap e) := by
  intro d hd
  rw [find?_not_isBlank, h.dropWhile fun _ => Wide.isBlank_eq_false] at hd
  rcases h.head? (text.dropWhile isBlank) with hh | ⟨c, _, hc, _, hcw, _⟩
  · rw [hh, ← find?_not_isBlank] at hd
    exact ht d hd
  · have hopen := ht c (by rw [find?_not_isBlank, hc])
    rcases isOpener_cases hopen with rfl | rfl | rfl | rfl | rfl | rfl | rfl <;>
      exact absurd hcw (by decide)

end Widens

end Formulary
