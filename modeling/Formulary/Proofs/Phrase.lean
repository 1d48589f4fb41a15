import Formulary.Proofs.Precedence

namespace Formulary

/-- A text that can stand between operators or commas without changing what they are: it shows no
operator that would bind later than its level, no comma, and no sign can follow it. -/
structure Phrase (level : Level) (text : List Char) : Prop where
  balanced : Balanced text
  shows : ShowsUpTo level (mask text)
  onePiece : some ',' ∉ mask text
  ends : isSignAfter text.reverse = false
  inhabited : ∃ c ∈ text, isBlank c = false

theorem Operator.isOpener_symbol (op : Operator) : isOpener op.symbol = true := by
  cases op <;> rfl

theorem Operator.symbol_ne (op : Operator) :
    op.symbol ≠ '(' ∧ op.symbol ≠ ')' ∧ op.symbol ≠ ',' := by
  cases op <;> decide

theorem Operator.symbol_inj {op o : Operator} (h : op.symbol = o.symbol) : op = o := by
  have hs := Operator.ofSymbol?_symbol op
  rw [h, Operator.ofSymbol?_symbol] at hs
  exact (Option.some.inj hs).symm

theorem Operator.leftLevel_le (op : Operator) : op.leftLevel.rank ≤ op.level.rank := by
  cases op <;> decide

theorem Operator.rightLevel_le (op : Operator) : op.rightLevel.rank ≤ op.level.rank := by
  cases op <;> decide

theorem isPlusMinus_cases {c : Char} (h : isPlusMinus c = true) : c = '+' ∨ c = '-' := by
  simpa [isPlusMinus] using h

theorem ShowsUpTo.mono {level looser : Level} {shown : List (Option Char)}
    (h : ShowsUpTo level shown) (hle : level.rank ≤ looser.rank) : ShowsUpTo looser shown :=
  fun op hop => (h op hop).trans hle

theorem ShowsUpTo.of_forall {level : Level} {shown : List (Option Char)}
    (h : ∀ op : Operator, some op.symbol ∉ shown) : ShowsUpTo level shown :=
  fun op hop => absurd hop (h op)

theorem ShowsUpTo.not_mem {level : Level} {shown : List (Option Char)} (h : ShowsUpTo level shown)
    (hl : level.rank ≤ Level.signed.rank) (op : Operator) : some op.symbol ∉ shown := by
  intro hop
  have hle := (h op hop).trans hl
  revert hle
  cases op <;> decide

theorem isSignAfter_cons {c : Char} {before : List Char} (hb : isBlank c = false)
    (ho : isOpener c = false) (he : isExponentSign (c :: before) = false) :
    isSignAfter (c :: before) = false := by
  rw [isOpener] at ho
  unfold isSignAfter
  rw [List.find?_cons_of_pos (by simp [hb]), he]
  simp only [ho, Bool.or_false]

theorem isExponentSign_cons {c : Char} {before : List Char} (he : c ≠ 'e') (hE : c ≠ 'E') :
    isExponentSign (c :: before) = false := by
  simp [isExponentSign, he, hE]

/-- Blanks before a sign keep it from being one, but do not make it one. -/
theorem isSignAfter_blanks {blanks before : List Char} (hb : ∀ c ∈ blanks, isBlank c = true)
    (h : isSignAfter before = false) : isSignAfter (blanks ++ before) = false := by
  cases blanks with
  | nil => exact h
  | cons d rest =>
    have hd := isBlank_cases (hb d List.mem_cons_self)
    have hexp : isExponentSign (d :: rest ++ before) = false := by
      rcases hd with rfl | rfl | rfl | rfl | rfl <;>
        exact isExponentSign_cons (by decide) (by decide)
    unfold isSignAfter at h ⊢
    rw [List.find?_append, List.find?_eq_none.mpr (by simpa using hb), Option.none_or, hexp]
    split at h
    next => simp at h
    next =>
      rw [(Bool.or_eq_false_iff.mp h).1]
      rfl

namespace Phrase

variable {level looser : Level} {text u v ws : List Char}

theorem loosen (h : Phrase level text) (hle : level.rank ≤ looser.rank) : Phrase looser text :=
  ⟨h.balanced, h.shows.mono hle, h.onePiece, h.ends, h.inhabited⟩

/-- An operator stands between what shows on its left and what shows on its right. -/
theorem mask_binary (h : Phrase level u) (op : Operator) (v : List Char) :
    mask (u ++ op.symbol :: v) = mask u ++ some op.symbol :: mask v :=
  mask_append_opener (h.balanced.depthBehind_eq 0) op.isOpener_symbol op.symbol_ne.1
    (by simp [h.ends])

theorem binary {op : Operator} (hu : Phrase op.leftLevel u) (hv : Phrase op.rightLevel v) :
    Phrase op.level (u ++ op.symbol :: v) := by
  have hmask := hu.mask_binary op v
  refine ⟨?_, ?_, ?_, ?_, ?_⟩
  · exact hu.balanced.append (.char op.symbol_ne.1 op.symbol_ne.2.1 hv.balanced)
  · intro o ho
    rw [hmask] at ho
    rcases List.mem_append.mp ho with hl | hr
    · exact (hu.shows o hl).trans op.leftLevel_le
    · rcases List.mem_cons.mp hr with he | hr
      · rw [Operator.symbol_inj (Option.some.inj he)]
      · exact (hv.shows o hr).trans op.rightLevel_le
  · rw [hmask]
    intro hc
    rcases List.mem_append.mp hc with hl | hr
    · exact hu.onePiece hl
    · rcases List.mem_cons.mp hr with he | hr
      · exact op.symbol_ne.2.2 (Option.some.inj he).symm
      · exact hv.onePiece hr
  · -- The right part follows an operator, so nothing left of it decides about its signs.
    have hopens : OpensOperand (op.symbol :: u.reverse) := .cons op.isOpener_symbol
    rw [List.reverse_append, List.reverse_cons, List.append_assoc, List.singleton_append,
      hopens.isSignAfter_append]
    exact hv.ends
  · obtain ⟨c, hc, hb⟩ := hu.inhabited
    exact ⟨c, List.mem_append_left _ hc, hb⟩

theorem balanced_blanks (hb : ∀ c ∈ ws, isBlank c = true) : Balanced ws :=
  .of_plain fun c hc => plain_of_isBlank (hb c hc)

theorem pad (h : Phrase level text) (hu : ∀ c ∈ u, isBlank c = true)
    (hv : ∀ c ∈ v, isBlank c = true) : Phrase level (u ++ text ++ v) := by
  have hup : ∀ c ∈ u, Plain c := fun c hc => plain_of_isBlank (hu c hc)
  have hvp : ∀ c ∈ v, Plain c := fun c hc => plain_of_isBlank (hv c hc)
  have mem_mask : ∀ c, isOpener c = true → some c ∈ mask (u ++ text ++ v) →
      some c ∈ mask text := by
    intro c hc hm
    rw [List.append_assoc, mask_blanks hu, mask, mask, maskFrom_append] at hm
    rcases List.mem_append.mp hm with hm | hm
    · exact absurd hm (not_mem_maskFrom_of_plain hup hc)
    · rcases List.mem_append.mp hm with hm | hm
      · exact hm
      · exact absurd hm (not_mem_maskFrom_of_plain hvp hc)
  refine ⟨?_, ?_, ?_, ?_, ?_⟩
  · exact ((Balanced.of_plain hup).append h.balanced).append (.of_plain hvp)
  · intro op hop
    exact h.shows op (mem_mask _ op.isOpener_symbol hop)
  · intro hc
    exact h.onePiece (mem_mask _ rfl hc)
  · have hopens : OpensOperand (u.reverse ++ []) :=
      OpensOperand.nil.blanks fun c hc => hu c (List.mem_reverse.mp hc)
    rw [List.append_nil] at hopens
    rw [List.reverse_append, List.reverse_append, ← List.append_assoc, hopens.isSignAfter_append]
    exact isSignAfter_blanks (fun c hc => hv c (List.mem_reverse.mp hc)) h.ends
  · obtain ⟨c, hc, hb⟩ := h.inhabited
    exact ⟨c, by simp [hc], hb⟩

theorem sign {c : Char} (hc : isPlusMinus c = true) (h : Phrase .signed text) :
    Phrase .signed (c :: text) := by
  have hmask := mask_sign (v := text) hc
  have hopener : isOpener c = true := by
    rcases isPlusMinus_cases hc with rfl | rfl <;> rfl
  refine ⟨?_, ?_, ?_, ?_, ?_⟩
  · rcases isPlusMinus_cases hc with rfl | rfl
    · exact .char (by decide) (by decide) h.balanced
    · exact .char (by decide) (by decide) h.balanced
  · intro op hop
    rw [hmask] at hop
    exact h.shows op (by simpa using hop)
  · rw [hmask]
    simpa using h.onePiece
  · have hopens : OpensOperand [c] := .cons hopener
    rw [List.reverse_cons, hopens.isSignAfter_append]
    exact h.ends
  · obtain ⟨d, hd, hb⟩ := h.inhabited
    exact ⟨d, List.mem_cons_of_mem _ hd, hb⟩

/-- A text that shows nothing after which an operand could begin is an atom. -/
theorem atom (hbal : Balanced text) (hshow : ∀ c, isOpener c = true → some c ∉ mask text)
    (hends : isSignAfter text.reverse = false) (hne : ∃ c ∈ text, isBlank c = false) :
    Phrase .atom text :=
  ⟨hbal, .of_forall fun op => hshow _ op.isOpener_symbol, hshow _ rfl, hends, hne⟩

theorem closed (hu : ∀ c ∈ u, Plain c) (hbal : Balanced text) :
    Phrase .atom (u ++ '(' :: (text ++ [')'])) := by
  have hub : Balanced u := .of_plain hu
  refine atom ?_ ?_ ?_ ⟨'(', by simp, rfl⟩
  · exact hub.append (by simpa using Balanced.group hbal .nil)
  · intro c hc hm
    rw [mask, maskFrom_append, hub.depthBehind_eq] at hm
    rcases List.mem_append.mp hm with hm | hm
    · exact not_mem_maskFrom_of_plain hu hc hm
    · rw [maskFrom, depthAfter_open, maskFrom_append, hbal.depthBehind_eq] at hm
      simp [hbal.not_mem_maskFrom, maskFrom] at hm
  · rw [List.reverse_append, List.reverse_cons, List.reverse_append]
    exact isSignAfter_cons rfl rfl (isExponentSign_cons (by decide) (by decide))

/-- A text of plain characters is an atom if no sign can follow it. -/
theorem of_plain (h : ∀ c ∈ text, Plain c) (hends : isSignAfter text.reverse = false)
    (hne : ∃ c ∈ text, isBlank c = false) : Phrase .atom text :=
  atom (.of_plain h) (fun _ hc => not_mem_maskFrom_of_plain h hc) hends hne

end Phrase

end Formulary
