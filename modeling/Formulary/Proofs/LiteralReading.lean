import Formulary.Reading
import Formulary.Proofs.FiniteNumber
import Formulary.Proofs.FiniteRange
import Formulary.Proofs.LiteralText
import Formulary.Proofs.NameText

namespace Formulary

/-- A number as it is written, `[+-]? (d+ (. d*)? | . d+) ([eE] [+-]? d+)?`, and what it denotes. -/
inductive SignedLiteral : List Char → Numeral → Prop
  | unsigned {text : List Char} {d : Decimal} : Literal text d → SignedLiteral text ⟨false, d⟩
  | plus {text : List Char} {d : Decimal} : Literal text d → SignedLiteral ('+' :: text) ⟨false, d⟩
  | minus {text : List Char} {d : Decimal} : Literal text d → SignedLiteral ('-' :: text) ⟨true, d⟩

section Read

variable {text rest : List Char} {n : Numeral} {d : Decimal} {c : Char}

theorem Numeral.read?_eq_some : Numeral.read? text = some n ↔ SignedLiteral text n := by
  constructor
  · intro h
    rcases splitSign_cases text with ⟨rest, rfl, hs⟩ | ⟨rest, rfl, hs⟩ | hs
    · obtain ⟨d, rfl, hlit⟩ := Numeral.read?_signed hs h
      exact .minus hlit
    · obtain ⟨d, rfl, hlit⟩ := Numeral.read?_signed hs h
      exact .plus hlit
    · obtain ⟨d, rfl, hlit⟩ := Numeral.read?_signed hs h
      exact .unsigned hlit
  · intro h
    cases h with
    | unsigned hlit => exact Numeral.read?_of_literal hlit
    | plus hlit | minus hlit =>
      rw [Numeral.read?_eq, splitSign, readDecimal?_eq_some.mpr hlit]
      rfl

theorem isLiteralChar_of_isMantissa (h : isMantissa c = true) : isLiteralChar c = true := by
  simp only [isMantissa, Bool.or_eq_true] at h
  rcases h with h | h <;> simp [isLiteralChar, h]

theorem Exponent.isLiteralChar {x : List Char} {e : Int} (h : Exponent x e) :
    ∀ c ∈ x, isLiteralChar c = true := by
  rcases h.text_cases with rfl | ⟨letter, sign, ds, rfl, hletter, hsign, hds⟩
  · exact fun c hc => nomatch hc
  have hdigits : ∀ c ∈ ds, Formulary.isLiteralChar c = true :=
    fun c hc => isLiteralChar_of_isMantissa (hds.isMantissa c hc)
  refine List.forall_mem_cons.mpr ⟨?_, List.forall_mem_append.mpr ⟨?_, hdigits⟩⟩
  · rcases hletter with rfl | rfl <;> rfl
  · rcases hsign with rfl | ⟨c, rfl, hc⟩
    · exact fun c hc => nomatch hc
    · rcases isPlusMinus_cases hc with rfl | rfl <;> exact List.forall_mem_singleton.mpr rfl

theorem Literal.chars (h : Literal text d) :
    (∀ c ∈ text, isLiteralChar c = true) ∧ ∃ c ∈ text, c.isDigit = true := by
  obtain ⟨hm, hx⟩ := h
  obtain ⟨hchars, digit, hdigit, hd⟩ := hm.chars
  refine ⟨List.forall_mem_append.mpr ⟨?_, hx.isLiteralChar⟩, digit, by simp [hdigit], hd⟩
  exact fun c hc => isLiteralChar_of_isMantissa (hchars c hc)

/-- A literal passes the tests of its characters. -/
theorem SignedLiteral.chars (h : SignedLiteral text n) :
    (∀ c ∈ text, isLiteralChar c = true) ∧ ∃ c ∈ text, c.isDigit = true := by
  cases h with
  | unsigned hlit => exact hlit.chars
  | plus hlit | minus hlit =>
    obtain ⟨hchars, digit, hdigit, hd⟩ := hlit.chars
    exact ⟨List.forall_mem_cons.mpr ⟨rfl, hchars⟩, digit, List.mem_cons_of_mem _ hdigit, hd⟩

theorem toLower_of_isDigit (h : c.isDigit = true) : c.toLower = c := by
  have hdigit := (isDigit_iff c).mp h
  rw [Char.toLower, dif_neg]
  intro hupper
  have hletter : 65 ≤ c.toNat := UInt32.le_iff_toNat_le.mp hupper.1
  omega

/-- The first letters of the words that stand for values are in no literal. -/
theorem isLiteralChar_toLower (h : isLiteralChar c = true) : c.toLower ≠ 'i' ∧ c.toLower ≠ 'n' := by
  simp only [isLiteralChar, Bool.or_eq_true, decide_eq_true_eq] at h
  rcases h with ((((hdigit | rfl) | rfl) | rfl) | rfl) | rfl
  · rw [toLower_of_isDigit hdigit]
    constructor <;> (rintro rfl; exact absurd hdigit (by decide))
  all_goals decide

/-- Without a numeral only a word is left to be read. -/
theorem readNumber?_eq_none (hchars : ∀ c ∈ text, isLiteralChar c = true)
    (h : Numeral.read? text = none) : readNumber? text = none := by
  have hword : ∀ c ∈ (splitSign text).2, isLiteralChar c = true := by
    rcases splitSign_cases text with ⟨rest, rfl, hs⟩ | ⟨rest, rfl, hs⟩ | hs
    · rw [hs]
      exact (List.forall_mem_cons.mp hchars).2
    · rw [hs]
      exact (List.forall_mem_cons.mp hchars).2
    · rwa [hs]
  have hnone : ∀ (c : Char) (rest : List Char), c = 'i' ∨ c = 'n' →
      String.ofList ((splitSign text).2.map Char.toLower) ≠ String.ofList (c :: rest) := by
    intro c rest hc hsame
    have hlist := congrArg String.toList hsame
    rw [String.toList_ofList, String.toList_ofList] at hlist
    obtain ⟨d, later, hd, hlower, _⟩ := List.map_eq_cons_iff.mp hlist
    have hletter := isLiteralChar_toLower (hword d (by rw [hd]; exact List.mem_cons_self))
    rcases hc with rfl | rfl
    · exact hletter.1 hlower
    · exact hletter.2 hlower
  unfold readNumber?
  rw [h]
  simp only
  split
  next hinf => exact absurd hinf (hnone 'i' "nf".toList (Or.inl rfl))
  next hinfinity => exact absurd hinfinity (hnone 'i' "nfinity".toList (Or.inl rfl))
  next hnan => exact absurd hnan (hnone 'n' "an".toList (Or.inr rfl))
  next => rfl

theorem Decimal.rank_le (d : Decimal) : d.rank ≤ infiniteRank := by
  obtain ⟨digits, e⟩ := d
  by_cases hzero : digits = 0
  · rw [hzero, Decimal.rank_zero]
    exact Nat.zero_le _
  · rw [Decimal.rank_eq hzero, unitsRank]
    exact Nat.min_le_right _ _

/-- Out of range, the nearest value is an infinity. -/
theorem Numeral.isFinite_iff (n : Numeral) : n.value.isFinite = n.inRange := by
  cases hrange : n.inRange with
  | true => exact Numeral.isFinite_value hrange
  | false =>
    have hrank : n.decimal.rank = infiniteRank :=
      Nat.le_antisymm n.decimal.rank_le (Nat.le_of_not_lt (of_decide_eq_false hrange))
    have hpositive : infinity.isFinite = false := by decide +kernel
    have hnegative : (-infinity).isFinite = false := by decide +kernel
    rw [Numeral.value, hrank]
    cases n.negative
    · exact hpositive
    · exact hnegative

/-- What a numeral is as a literal. -/
def Numeral.reading (n : Numeral) : Reading :=
  if n.inRange then .number n.value else .outOfRange

theorem Numeral.reading_ne (n : Numeral) : n.reading ≠ .notALiteral := by
  unfold Numeral.reading
  split <;> exact Reading.noConfusion

/-- The tests of the characters let all numerals pass, and of the other texts only such that the
reader of numbers rejects. -/
theorem readLiteral_eq (text : List Char) :
    readLiteral text = ((Numeral.read? text).map Numeral.reading).getD .notALiteral := by
  rw [readLiteral]
  cases hread : Numeral.read? text with
  | some n =>
    obtain ⟨hchars, digit, hdigit, hd⟩ := (Numeral.read?_eq_some.mp hread).chars
    have hnumber : readNumber? text = some n.value := by rw [readNumber?, hread]
    have hne : text ≠ [] := List.ne_nil_of_mem hdigit
    have hall : text.all isLiteralChar = true := List.all_eq_true.mpr hchars
    have hany : text.any Char.isDigit = true := List.any_eq_true.mpr ⟨digit, hdigit, hd⟩
    simp [hne, hall, hany, hnumber, n.isFinite_iff, Numeral.reading]
  | none =>
    split
    next => rfl
    next htests =>
      simp only [Bool.or_eq_true, not_or, Bool.not_eq_true, Bool.not_eq_false'] at htests
      rw [readNumber?_eq_none (List.all_eq_true.mp htests.1.2) hread]
      rfl

theorem SignedLiteral.readLiteral_eq (h : SignedLiteral text n) : readLiteral text = n.reading := by
  rw [Formulary.readLiteral_eq, Numeral.read?_eq_some.mpr h]
  rfl

theorem readLiteral_of_not_literal (h : Numeral.read? text = none) :
    readLiteral text = .notALiteral := by
  rw [readLiteral_eq, h]
  rfl

theorem readLiteral_eq_notALiteral :
    readLiteral text = .notALiteral ↔ ∀ n, ¬SignedLiteral text n := by
  constructor
  · intro h n hlit
    rw [hlit.readLiteral_eq] at h
    exact n.reading_ne h
  · intro h
    refine readLiteral_of_not_literal (Option.eq_none_iff_forall_not_mem.mpr fun n hn => ?_)
    exact h n (Numeral.read?_eq_some.mp hn)

/-- A literal is out of range when its decimal is rounded to an infinity. -/
theorem SignedLiteral.outOfRange_iff (h : SignedLiteral text n) : readLiteral text = .outOfRange ↔
    2 ^ 1024 - 2 ^ 970 ≤ (n.decimal.digits : ℚ) * 10 ^ n.decimal.exponent := by
  rw [h.readLiteral_eq, Numeral.reading, ← not_lt, ← Decimal.rank_lt_iff]
  have hrange : n.inRange = true ↔ n.decimal.rank < infiniteRank := decide_eq_true_iff
  rw [← hrange]
  split
  next hin => exact iff_of_false Reading.noConfusion (not_not.mpr hin)
  next hout => exact iff_of_true rfl hout

/-- What the running shape of an operand does with a literal. -/
theorem Fragment.operandShape_eq (f : Fragment) : f.operandShape =
    match readLiteral f.text with
    | .number value => .number value
    | .outOfRange => .fault .literalOutOfRange f
    | .notALiteral => f.unreadShape := by
  rw [readLiteral_eq, Fragment.operandShape]
  cases Numeral.read? f.text with
  | some n =>
    simp only [Option.map_some, Option.getD_some, Numeral.reading]
    cases n.inRange <;> rfl
  | none => rfl

/-- A sign in front of what has none itself. -/
theorem readLiteral_sign (h : ∀ c, rest.head? = some c → isPlusMinus c = false) :
    readLiteral ('-' :: rest) = (readLiteral rest).negate ∧
      readLiteral ('+' :: rest) = readLiteral rest := by
  have hplain : splitSign rest = (false, rest) := by
    rcases splitSign_cases rest with ⟨later, rfl, _⟩ | ⟨later, rfl, _⟩ | hs
    · cases h '-' rfl
    · cases h '+' rfl
    · exact hs
  have hminus : Numeral.read? ('-' :: rest) = (readDecimal? rest).map fun d => ⟨true, d⟩ :=
    Numeral.read?_eq _
  have hplus : Numeral.read? ('+' :: rest) = (readDecimal? rest).map fun d => ⟨false, d⟩ :=
    Numeral.read?_eq _
  have hnone : Numeral.read? rest = (readDecimal? rest).map fun d => ⟨false, d⟩ := by
    rw [Numeral.read?_eq, hplain]
  rw [readLiteral_eq, readLiteral_eq ('+' :: rest), readLiteral_eq rest, hminus, hplus, hnone]
  refine ⟨?_, rfl⟩
  cases readDecimal? rest with
  | none => rfl
  | some d =>
    simp only [Option.map_some, Option.getD_some, Numeral.reading, Numeral.inRange, Numeral.value]
    split <;> rfl

/-- No name is a literal. -/
theorem readLiteral_of_isName (h : isName text = true) : readLiteral text = .notALiteral := by
  obtain ⟨c, rest, ht, hc⟩ := isName_head h
  exact readLiteral_of_not_literal
    (Numeral.read?_eq_none ht hc (isName_plain h c (by simp [ht])))

end Read

end Formulary
