import Formulary.Proofs.ArgumentPieces
import Formulary.Proofs.BuildRun
import Formulary.Proofs.FragmentShape

namespace Formulary

/-- Texts that differ only in the blanks around them. -/
def Alike (u v : List Char) : Prop := trim isBlank u = trim isBlank v

section Binary

variable {level : Level} {op : Operator} {u v : List Char}

theorem trim_binary (hu : Phrase op.leftLevel u) (hv : Phrase op.rightLevel v) :
    trim isBlank (u ++ op.symbol :: v) =
      u.dropWhile isBlank ++ op.symbol :: trimEnd isBlank v := by
  have hright : ∃ c ∈ op.symbol :: v, isBlank c = false := by
    obtain ⟨c, hc, hb⟩ := hv.inhabited
    exact ⟨c, List.mem_cons_of_mem _ hc, hb⟩
  rw [trim, dropWhile_append_of_exists hu.inhabited, trimEnd_append_of_exists hright,
    ← List.singleton_append, trimEnd_append_of_exists hv.inhabited, List.singleton_append]

/-- The operator between two phrases is the one that a search in the trimmed text finds. -/
theorem topOperator?_binary (hu : Phrase op.leftLevel u) (hv : Phrase op.rightLevel v) :
    topOperator? (trim isBlank (u ++ op.symbol :: v)) =
      some ((u.dropWhile isBlank).length, op) := by
  have hws : ∀ c ∈ u.takeWhile isBlank, isBlank c = true := fun c hc => List.mem_takeWhile_imp hc
  have hsplit := List.takeWhile_append_dropWhile (p := isBlank) (l := u)
  obtain ⟨later, hlater, _⟩ := trimEnd_sub isBlank v
  have hdepth : depthBehind 0 (u.dropWhile isBlank) = 0 := by
    have h := hu.balanced.depthBehind_eq 0
    rw [← hsplit, depthBehind_append, (Phrase.balanced_blanks hws).depthBehind_eq] at h
    exact h
  have hends : isSignAfter (u.dropWhile isBlank).reverse = false := by
    have hopens : OpensOperand ((u.takeWhile isBlank).reverse ++ []) :=
      OpensOperand.nil.blanks fun c hc => hws c (List.mem_reverse.mp hc)
    have h := hu.ends
    rw [← hsplit, List.reverse_append, ← List.append_nil (u.takeWhile isBlank).reverse,
      hopens.isSignAfter_append] at h
    exact h
  have hleft : ShowsUpTo op.leftLevel (mask (u.dropWhile isBlank)) := by
    intro o ho
    refine hu.shows o ?_
    rw [← hsplit, mask_blanks hws]
    exact List.mem_append_right _ ho
  have hright : ShowsUpTo op.rightLevel (mask (trimEnd isBlank v)) := by
    intro o ho
    refine hv.shows o ?_
    rw [hlater, mask, maskFrom_append]
    exact List.mem_append_left _ ho
  rw [trim_binary hu hv]
  exact topOperator?_append hdepth hends hleft hright

end Binary

namespace Fragment

variable {f : Fragment} {level : Level}

theorem outline_binary {op : Operator} {u v : List Char} (hu : Phrase op.leftLevel u)
    (hv : Phrase op.rightLevel v) (hf : Alike f.text (u ++ op.symbol :: v)) :
    ∃ l r : Fragment, f.outline = .binary op l.outline r.outline ∧
      Alike l.text u ∧ Alike r.text v := by
  have htop := topOperator?_binary hu hv
  rw [← show f.trim.text = _ from hf] at htop
  obtain ⟨_, _, _, _, _, hshown, _⟩ := topOperator?_split htop
  have htext : f.trim.text = u.dropWhile isBlank ++ op.symbol :: trimEnd isBlank v :=
    hf.trans (trim_binary hu hv)
  have hs : f.strip = f.trim := strip_of_shown hshown
  refine ⟨f.trim.before (u.dropWhile isBlank).length, f.trim.after (u.dropWhile isBlank).length,
    ?_, ?_, ?_⟩
  · rw [outline_eq, shape_of_operator hs htop, Shape.outline]
  · rw [Fragment.before, htext, List.take_left]
    exact trim_dropWhile isBlank u
  · have hdrop : f.trim.text.drop ((u.dropWhile isBlank).length + 1) = trimEnd isBlank v := by
      rw [htext, List.drop_append]
      simp
    rw [Fragment.after, hdrop]
    exact trim_trimEnd isBlank v

theorem outline_group {text : List Char} (hbal : Balanced text)
    (ht : f.trim.text = '(' :: (text ++ [')'])) :
    f.outline = (⟨f.trim.offset + 1, text⟩ : Fragment).outline := by
  have hs := strip_of_group ht (hbal.splitGroup_close [])
  rw [outline_eq, outline_eq, shape_of_strip hs]

/-- A fragment that shows no operator and is no group is an operand by itself. -/
theorem outline_operand {c : Char} {rest : List Char} (ht : f.trim.text = c :: rest)
    (hc : c ≠ '(') (hshow : ∀ op : Operator, some op.symbol ∉ mask f.trim.text) :
    f.outline = f.trim.operandShape.outline := by
  have hne : f.trim.text ≠ [] := by
    rw [ht]
    exact List.cons_ne_nil c rest
  rw [outline_eq, shape_of_operand (strip_of_head ht hc) hne (topOperator?_of_not_mem hshow)]

theorem shape_literal {text : List Char} {d : Decimal} (h : Literal text d)
    (ht : f.trim.text = text) :
    f.shape = if d.rank < infiniteRank then .number (floatOfRank d.rank)
      else .fault .literalOutOfRange f.trim := by
  obtain ⟨c, rest, hhead, hc⟩ := h.head
  have hopen : c ≠ '(' := (plain_of_isMantissa hc).ne_opener rfl
  have hne : f.trim.text ≠ [] := by
    rw [ht, hhead]
    exact List.cons_ne_nil c rest
  have hread : Numeral.read? f.trim.text = some ⟨false, d⟩ := by
    rw [ht]
    exact Numeral.read?_of_literal h
  have hshow : ∀ op : Operator, some op.symbol ∉ mask f.trim.text := by
    rw [ht]
    exact fun op => h.not_mem_mask op.isOpener_symbol
  rw [shape_of_operand (strip_of_head (ht.trans hhead) hopen) hne (topOperator?_of_not_mem hshow),
    operandShape_of_numeral hread]
  by_cases hd : d.rank < infiniteRank
  · simp [Numeral.inRange, Numeral.value, hd]
  · simp [Numeral.inRange, hd]

theorem outline_literal {text : List Char} {d : Decimal} (h : Literal text d)
    (ht : f.trim.text = text) :
    f.outline = if d.rank < infiniteRank then .number (floatOfRank d.rank)
      else .fault .literalOutOfRange f.trim := by
  rw [outline_eq, shape_literal h ht]
  split <;> rfl

section Sign

variable {registry : Registry} {b c : Bindings} {t : Term} {rest : List Char}

theorem after_sign {sign : Char} (ht : f.text = sign :: rest) : (f.after 0).text = rest := by
  rw [Fragment.after, ht]
  rfl

theorem trim_literal {d : Decimal} {text : List Char} (h : Literal text d) (ht : f.text = text) :
    f.trim.text = text := by
  rw [← ht] at h
  exact (trim_of_ends h.ends.1 h.ends.2).trans ht

/-- A minus sign negates the term of what follows it. The sign of a number is read with the
number, to the same effect. -/
theorem resolve_minus (ht : f.trim.text = '-' :: rest)
    (hshow : ∀ op : Operator, some op.symbol ∉ mask f.trim.text) :
    (f.outline.resolve registry).run b = .ok (t, c) ↔
      ∃ x, ((f.trim.after 0).outline.resolve registry).run b = .ok (x, c) ∧ t = x.negate := by
  rw [outline_operand ht (by decide) hshow]
  cases hread : Numeral.read? f.trim.text with
  | none =>
    rw [operandShape_of_minus hread ht, Shape.outline, Outline.resolve_minus_eq_ok]
  | some n =>
    have hsign : splitSign f.trim.text = (true, rest) := by rw [ht]; rfl
    obtain ⟨d, rfl, hlit⟩ := Numeral.read?_signed hsign hread
    rw [operandShape_of_numeral hread, outline_literal hlit (trim_literal hlit (after_sign ht))]
    by_cases hd : d.rank < infiniteRank
    · simp only [Numeral.inRange, Numeral.value, hd, decide_true, if_true, Shape.outline,
        Outline.resolve_number_eq_ok]
      constructor
      · rintro ⟨rfl, rfl⟩
        exact ⟨_, ⟨rfl, rfl⟩, rfl⟩
      · rintro ⟨_, ⟨rfl, rfl⟩, rfl⟩
        exact ⟨rfl, rfl⟩
    · simp [Numeral.inRange, hd, Shape.outline, Outline.resolve_fault_ne_ok]

theorem resolve_plus (ht : f.trim.text = '+' :: rest)
    (hshow : ∀ op : Operator, some op.symbol ∉ mask f.trim.text) :
    (f.outline.resolve registry).run b = .ok (t, c) ↔
      ((f.trim.after 0).outline.resolve registry).run b = .ok (t, c) := by
  rw [outline_operand ht (by decide) hshow]
  cases hread : Numeral.read? f.trim.text with
  | none => rw [operandShape_of_plus hread ht, Shape.outline]
  | some n =>
    have hsign : splitSign f.trim.text = (false, rest) := by rw [ht]; rfl
    obtain ⟨d, rfl, hlit⟩ := Numeral.read?_signed hsign hread
    rw [operandShape_of_numeral hread, outline_literal hlit (trim_literal hlit (after_sign ht))]
    by_cases hd : d.rank < infiniteRank
    · simp [Numeral.inRange, Numeral.value, hd, Shape.outline]
    · simp [Numeral.inRange, hd, Shape.outline, Outline.resolve_fault_ne_ok]

end Sign

theorem call?_eq_none {text : List Char} (ht : f.text = text) (h : ∀ c ∈ text, c ≠ '(') :
    f.call? = none := by
  have hfind : f.text.findIdx? (· = '(') = none := by
    rw [ht]
    exact List.findIdx?_eq_none_iff.mpr fun c hc => by simpa using h c hc
  rw [Fragment.call?, hfind]
  rfl

theorem outline_name {name : List Char} (h : isName name = true) (ht : f.trim.text = name) :
    f.outline = .name f.trim := by
  obtain ⟨c, rest, hname, hc⟩ := isName_head h
  have hplain := isName_plain h c (by simp [hname])
  have hshow := (Phrase.of_name h).shows.not_mem (by decide)
  have hopen : ∀ d ∈ name, d ≠ '(' := fun d hd => (isName_plain h d hd).ne_opener rfl
  have hread := Numeral.read?_eq_none (ht.trans hname) hc hplain
  rw [outline_operand (ht.trans hname) (hplain.ne_opener rfl) (ht ▸ hshow),
    operandShape_of_name hread (ht.trans hname) (hplain.ne_opener rfl) (hplain.ne_opener rfl)
      (call?_eq_none ht hopen) (ht ▸ h), Shape.outline]

theorem trimEnd_spaces {name spaces : List Char} (h : isName name = true)
    (hs : ∀ c ∈ spaces, isSpace c = true) : trimEnd isSpace (name ++ spaces) = name := by
  rw [trimEnd_append_of_all hs]
  rcases List.eq_nil_or_concat name with rfl | ⟨initial, c, rfl⟩
  · rfl
  · have hc : isSpace c = false := isSpace_of_name (isName_chars h c (by simp))
    simp [trimEnd, hc]

theorem outline_call {name spaces text : List Char} (h : isName name = true)
    (hs : ∀ c ∈ spaces, isSpace c = true) (hbal : Balanced text)
    (ht : f.trim.text = name ++ spaces ++ '(' :: (text ++ [')'])) :
    ∃ g : Fragment, g.text = text ∧
      f.outline = .call (String.ofList name) f.trim (g.arguments.map Fragment.outline) := by
  obtain ⟨c, rest, hname, hc⟩ := isName_head h
  have hplain := isName_plain h c (by simp [hname])
  have hshow := (Phrase.of_call h hs hbal).shows.not_mem (by decide)
  have hhead : f.trim.text = c :: (rest ++ spaces ++ '(' :: (text ++ [')'])) := by
    rw [ht, hname]
    rfl
  have hopen : ∀ d ∈ name ++ spaces, d ≠ '(' := by
    intro d hd
    rcases List.mem_append.mp hd with hn | hm
    · exact (isName_plain h d hn).ne_opener rfl
    · exact (plain_of_isSpace (hs d hm)).ne_opener rfl
  have hcall := call?_append ht hopen hbal
  rw [trimEnd_spaces h hs] at hcall
  have hread := Numeral.read?_eq_none hhead hc hplain
  refine ⟨⟨f.trim.offsetAt ((name ++ spaces).length + 1), text⟩, rfl, ?_⟩
  rw [outline_operand hhead (hplain.ne_opener rfl) (ht ▸ hshow),
    operandShape_of_call hread hhead (hplain.ne_opener rfl) (hplain.ne_opener rfl) hcall h,
    Shape.outline]

end Fragment

end Formulary
