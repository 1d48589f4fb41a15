import Formulary.Shortest
import Formulary.Proofs.LiteralText
import Formulary.Proofs.NameText
import Formulary.Proofs.RankRounding
import Formulary.Proofs.TrimmedText

namespace Formulary

section Digits

variable {ds : List Char}

theorem isDigit_of_mem_zeros {count : Int} : ∀ c ∈ zeros count, c.isDigit = true := by
  intro c hc
  rw [List.eq_of_mem_replicate hc]
  rfl

theorem decimalDigits_digits (n : Nat) : Digits (decimalDigits n) :=
  ⟨Nat.toDigits_ne_nil, fun _ hc => Nat.isDigit_of_mem_toDigits (by decide) (by decide) hc⟩

theorem digits_zero : Digits ['0'] := ⟨by simp, List.forall_mem_singleton.mpr rfl⟩

theorem ofDigitChars_zeros (ds : List Char) (count : Int) :
    Nat.ofDigitChars 10 (ds ++ zeros count) 0 = Nat.ofDigitChars 10 ds 0 * 10 ^ count.toNat := by
  rw [Nat.ofDigitChars_append, zeros, Nat.ofDigitChars_replicate_zero, Nat.mul_comm]

/-- Digits and a point denote one number, wherever the point stands and whatever zeros that asks
for. -/
theorem positionalText_mantissa (h : Digits ds) (point : Int) : ∃ all places,
    Mantissa (positionalText false ds point) all places ∧
      Decimal.rank ⟨Nat.ofDigitChars 10 all 0, 0 - places⟩ =
        Decimal.rank ⟨Nat.ofDigitChars 10 ds 0, point - ds.length⟩ := by
  unfold positionalText
  by_cases hbefore : point ≤ 0
  · have hzeros : ∀ c ∈ zeros (-point) ++ ds, c.isDigit = true :=
      List.forall_mem_append.mpr ⟨isDigit_of_mem_zeros, h.2⟩
    have hvalue : Nat.ofDigitChars 10 (['0'] ++ (zeros (-point) ++ ds)) 0 =
        Nat.ofDigitChars 10 ds 0 := by
      have hnone := ofDigitChars_zeros ['0'] (-point)
      rw [← List.append_assoc, Nat.ofDigitChars_append, hnone]
      show Nat.ofDigitChars 10 ds (0 * _) = _
      rw [Nat.zero_mul]
    have hplaces : (0 : Int) - (zeros (-point) ++ ds).length = point - ds.length := by
      rw [List.length_append, zeros, List.length_replicate]
      omega
    rw [if_pos hbefore]
    refine ⟨['0'] ++ (zeros (-point) ++ ds), (zeros (-point) ++ ds).length, ?_, ?_⟩
    · exact .point digits_zero hzeros
    · rw [hvalue, hplaces]
  rw [if_neg hbefore]
  by_cases hafter : ds.length ≤ point
  · have hall : Digits (ds ++ zeros (point - ds.length)) :=
      ⟨by simp [h.1], List.forall_mem_append.mpr ⟨h.2, isDigit_of_mem_zeros⟩⟩
    have hcount : (0 : Int) - (0 : Nat) + (point - ds.length).toNat = point - ds.length := by omega
    rw [if_pos hafter]
    refine ⟨ds ++ zeros (point - ds.length), 0, ?_, ?_⟩
    · show Mantissa (ds ++ zeros (point - ds.length) ++ []) _ 0
      rw [List.append_nil]
      exact .whole hall
    · rw [ofDigitChars_zeros, Decimal.rank_shift, hcount]
  · have htake : Digits (ds.take point.toNat) := by
      refine ⟨fun hnil => ?_, fun c hc => h.2 c (List.mem_of_mem_take hc)⟩
      rcases List.take_eq_nil_iff.mp hnil with hzero | hempty
      · omega
      · exact h.1 hempty
    have hdrop : ∀ c ∈ ds.drop point.toNat, c.isDigit = true :=
      fun c hc => h.2 c (List.mem_of_mem_drop hc)
    have hplaces : (0 : Int) - (ds.drop point.toNat).length = point - ds.length := by
      rw [List.length_drop]
      omega
    rw [if_neg hafter]
    refine ⟨_, _, .point htake hdrop, ?_⟩
    rw [List.take_append_drop, hplaces]

/-- The digits of a decimal other than zero, without the zeros at their end. -/
theorem decimalText_mantissa {d : Decimal} (h : d.digits ≠ 0) : ∃ all places,
    Mantissa (Layout.plain.decimalText d) all places ∧
      Decimal.rank ⟨Nat.ofDigitChars 10 all 0, 0 - places⟩ = d.rank := by
  obtain ⟨ending, hall, hzeros⟩ := trimEnd_sub (fun c => c = '0') (decimalDigits d.digits)
  have hdigits := decimalDigits_digits d.digits
  have hvalue : Nat.ofDigitChars 10 (decimalDigits d.digits) 0 = d.digits :=
    Nat.ofDigitChars_ten_toDigits
  show ∃ all places, Mantissa (positionalText false
    (trimEnd (fun c => c = '0') (decimalDigits d.digits))
    ((decimalDigits d.digits).length + d.exponent)) all places ∧ _
  generalize trimEnd (fun c => decide (c = '0')) (decimalDigits d.digits) = ds at hall ⊢
  obtain ⟨k, rfl⟩ : ∃ k : Nat, ending = zeros k :=
    ⟨ending.length, List.eq_replicate_of_mem fun c hc => of_decide_eq_true (hzeros c hc)⟩
  rw [hall] at hdigits hvalue ⊢
  rw [ofDigitChars_zeros] at hvalue
  have hds : Digits ds := by
    refine ⟨?_, fun c hc => hdigits.2 c (List.mem_append_left _ hc)⟩
    rintro rfl
    exact h (hvalue.symm.trans (Nat.zero_mul _))
  obtain ⟨all, places, hmantissa, hrank⟩ :=
    positionalText_mantissa hds ((ds ++ zeros k).length + d.exponent)
  refine ⟨all, places, hmantissa, hrank.trans ?_⟩
  have hexponent : ((ds ++ zeros k).length + d.exponent : Int) - ds.length = d.exponent + k := by
    rw [List.length_append, zeros, List.length_replicate]
    omega
  rw [hexponent, ← Decimal.rank_shift]
  exact congrArg (fun digits => Decimal.rank ⟨digits, d.exponent⟩) hvalue

end Digits

/-- What a search finds passes its test, and so does the default that is taken in its place. -/
theorem of_findSome?_getD {α β : Type} {p : β → Prop} [DecidablePred p] {default : β}
    (h : p default) (candidates : α → List β) (places : List α) :
    p ((places.findSome? fun a => (candidates a).find? fun b => p b).getD default) := by
  cases hfound : places.findSome? fun a => (candidates a).find? fun b => p b with
  | none => exact h
  | some b =>
    obtain ⟨a, _, hb⟩ := List.exists_of_findSome?_eq_some hfound
    have hp := List.find?_some hb
    exact of_decide_eq_true hp

/-- The decimal that is written for a finite rank reads back. -/
theorem Decimal.rank_shortest {rank : Nat} (h : rank < infiniteRank) :
    (Decimal.shortest rank).rank = rank := by
  have hexact := Decimal.rank_ofRank h
  unfold Decimal.shortest
  generalize Decimal.ofRank rank = exact at hexact ⊢
  exact of_findSome?_getD (p := fun d : Decimal => d.rank = rank) hexact _ _

/-- The text of a number without a sign, and the rank of the number. -/
inductive Magnitude : List Char → Nat → Prop
  | infinite : Magnitude ['i', 'n', 'f'] infiniteRank
  | finite {m ds : List Char} {places : Nat} : Mantissa m ds places →
    Magnitude m (Decimal.rank ⟨Nat.ofDigitChars 10 ds 0, 0 - places⟩)

def signText (negative : Bool) : List Char := if negative then ['-'] else []

section Magnitude

variable {m : List Char} {rank : Nat}

theorem Magnitude.read (h : Magnitude m rank) (negative : Bool) :
    readNumber? (signText negative ++ m) =
      some (if negative then -floatOfRank rank else floatOfRank rank) := by
  cases h with
  | infinite => cases negative <;> rfl
  | @finite m ds places hm =>
    have hliteral := Literal.mk hm .none
    rw [List.append_nil] at hliteral
    have hread : Numeral.read? (signText negative ++ m) =
        some ⟨negative, ⟨Nat.ofDigitChars 10 ds 0, 0 - places⟩⟩ := by
      cases negative with
      | false => exact Numeral.read?_of_literal hliteral
      | true =>
        rw [Numeral.read?_eq]
        show (readDecimal? m).map _ = _
        rw [readDecimal?_of_literal hliteral]
        rfl
    rw [readNumber?, hread]
    rfl

theorem isSpace_of_isMantissa {c : Char} (h : isMantissa c = true) : isSpace c = false := by
  simp only [isMantissa, Bool.or_eq_true, decide_eq_true_eq] at h
  rcases h with hdigit | rfl
  · exact isSpace_of_name (Or.inl (by simp [Char.isAlphanum, hdigit]))
  · rfl

theorem Magnitude.word (h : Magnitude m rank) : m ≠ [] ∧ ∀ c ∈ m, isSpace c = false := by
  cases h with
  | infinite =>
    exact ⟨by simp, List.forall_mem_cons.mpr ⟨rfl, List.forall_mem_cons.mpr
      ⟨rfl, List.forall_mem_singleton.mpr rfl⟩⟩⟩
  | finite hm =>
    obtain ⟨hchars, c, hc, _⟩ := hm.chars
    exact ⟨List.ne_nil_of_mem hc, fun c hc => isSpace_of_isMantissa (hchars c hc)⟩

end Magnitude

section Written

variable {x : Float}

theorem write_plain (h : x.isNaN = false) : ∃ m, Magnitude m (rankOfFloat x) ∧
    Layout.plain.write x = signText (isNegative x) ++ m := by
  have hle := rankOfFloat_le h
  rw [Layout.write]
  generalize rankOfFloat x = rank at hle ⊢
  dsimp only
  rw [if_neg (Nat.not_lt.mpr hle)]
  refine ⟨_, ?_, rfl⟩
  by_cases hinfinite : rank = infiniteRank
  · rw [if_pos hinfinite, hinfinite]
    exact .infinite
  rw [if_neg hinfinite]
  by_cases hzero : rank = 0
  · rw [if_pos hzero, hzero]
    exact .finite (.whole digits_zero)
  · have hrank := Decimal.rank_shortest (Nat.lt_of_le_of_ne hle hinfinite)
    generalize Decimal.shortest rank = d at hrank ⊢
    have hdigits : d.digits ≠ 0 := fun hnone => hzero (hrank.symm.trans (if_pos hnone))
    obtain ⟨all, places, hmantissa, hvalue⟩ := decimalText_mantissa hdigits
    rw [if_neg hzero, ← hrank, ← hvalue]
    exact .finite hmantissa

/-- The text of a number is a word that reads as the number. -/
theorem readNumber?_plainNumber (h : x.isNaN = false) :
    readNumber? (plainNumber x).toList = some x := by
  obtain ⟨m, hm, hwrite⟩ := write_plain h
  rw [plainNumber, String.toList_ofList, hwrite, hm.read, signed_floatOfRank h]

theorem plainNumber_word (h : x.isNaN = false) :
    (plainNumber x).toList ≠ [] ∧ ∀ c ∈ (plainNumber x).toList, isSpace c = false := by
  obtain ⟨m, hm, hwrite⟩ := write_plain h
  obtain ⟨hne, hchars⟩ := hm.word
  have hsign : ∀ c ∈ signText (isNegative x), isSpace c = false := by
    cases isNegative x with
    | false => simp [signText]
    | true => exact List.forall_mem_singleton.mpr rfl
  rw [plainNumber, String.toList_ofList, hwrite]
  exact ⟨List.append_ne_nil_of_right_ne_nil _ hne, List.forall_mem_append.mpr ⟨hsign, hchars⟩⟩

end Written

end Formulary
