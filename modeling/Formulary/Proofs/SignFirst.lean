import Formulary.Proofs.Enclosure
import Formulary.Proofs.LiteralReading
import Formulary.Proofs.PhraseOutline

namespace Formulary

/-- A way to read an operand by itself. Its parts are shorter. -/
structure OperandRule where
  read : Fragment → Shape
  shorter : ∀ {f g : Fragment}, f.text ≠ [] → g ∈ (read f).parts → g.text.length < f.text.length

/-- The outlines of the parts make up the outline of the whole. -/
def Shape.outlineBy (part : Fragment → Outline) : Shape → Outline
  | .fault cause place => .fault cause place
  | .number value => .number value
  | .name place => .name place
  | .plus operand => part operand
  | .minus operand => .minus (part operand)
  | .binary op left right => .binary op (part left) (part right)
  | .call word place arguments => .call word place (arguments.map part)

theorem Shape.outlineBy_outline (s : Shape) : s.outlineBy Fragment.outline = s.outline := by
  cases s <;> rfl

theorem Shape.outlineBy_congr {p q : Fragment → Outline} {s : Shape}
    (h : ∀ g ∈ s.parts, p g = q g) : s.outlineBy p = s.outlineBy q := by
  cases s with
  | fault | number | name => rfl
  | plus operand => exact h operand (by simp [Shape.parts])
  | minus operand => exact congrArg Outline.minus (h operand (by simp [Shape.parts]))
  | binary op left right =>
    rw [Shape.outlineBy, Shape.outlineBy, h left (by simp [Shape.parts]),
      h right (by simp [Shape.parts])]
  | call word place arguments =>
    exact congrArg (Outline.call word place) (List.map_congr_left h)

theorem Fragment.trim_of_literal {f : Fragment} {d : Decimal} (h : Literal f.text d) :
    f.trim = f := by
  obtain ⟨c, rest, hhead, hc⟩ := h.head
  have hstart : f.text.takeWhile isBlank = [] := by
    rw [hhead, List.takeWhile_cons_of_neg (by simp [isBlank_of_isMantissa hc])]
  rw [Fragment.trim, hstart, trim_of_ends h.ends.1 h.ends.2]
  rfl

namespace OperandRule

/-- The shape of a fragment whose operands are read by a rule. -/
def shape (rule : OperandRule) (f : Fragment) : Shape :=
  let inner := f.strip
  if inner.text = [] then .fault .emptyOperand inner
  else match topOperator? inner.text with
    | some (i, op) => .binary op (inner.before i) (inner.after i)
    | none => rule.read inner

theorem shape_parts_length_lt (rule : OperandRule) {f g : Fragment}
    (h : g ∈ (rule.shape f).parts) : g.text.length < f.text.length := by
  have hlen := f.strip_length_le
  unfold shape at h
  simp only at h
  split at h
  next => cases h
  next hne =>
    split at h
    next i op htop =>
      have hi := topOperator?_lt htop
      simp only [Shape.parts, List.mem_cons, List.not_mem_nil, or_false] at h
      rcases h with rfl | rfl
      · simp only [Fragment.before, List.length_take]
        omega
      · simp only [Fragment.after, List.length_drop]
        omega
    next => exact Nat.lt_of_lt_of_le (rule.shorter hne h) hlen

def outline (rule : OperandRule) (f : Fragment) : Outline :=
  match _h : rule.shape f with
  | .fault cause place => .fault cause place
  | .number value => .number value
  | .name place => .name place
  | .plus operand => rule.outline operand
  | .minus operand => .minus (rule.outline operand)
  | .binary op left right => .binary op (rule.outline left) (rule.outline right)
  | .call word place arguments =>
    .call word place (arguments.attach.map fun part => rule.outline part.1)
termination_by f.text.length
decreasing_by
  all_goals apply shape_parts_length_lt rule; simp [_h, Shape.parts]
  exact part.2

/-- Parses a formula whose operands are read by a rule. -/
def parse (rule : OperandRule) (registry : Registry) (source : String) : Except Error Formula := do
  let whole := Fragment.ofString source
  whole.requireBalance
  let (root, arguments) ← ((rule.outline whole).resolve registry).run {}
  return { source, root, arguments, argumentCount := arguments.size, code := none, registry }

/-- Reads a number whole, its sign included, before all else. -/
def numberFirst : OperandRule where
  read := Fragment.operandShape
  shorter := Fragment.operandShape_parts_length_lt

/-- The shape of an operand whose sign is taken off before anything is read behind it. -/
def signShape (f : Fragment) : Shape :=
  if f.text.head? = some '-' then .minus (f.after 0)
  else if f.text.head? = some '+' then .plus (f.after 0)
  else f.operandShape

theorem signShape_parts_length_lt {f g : Fragment} (hne : f.text ≠ [])
    (h : g ∈ (signShape f).parts) : g.text.length < f.text.length := by
  have hpos := List.length_pos_iff.mpr hne
  have hafter : (f.after 0).text.length < f.text.length := by
    simp only [Fragment.after, List.length_drop]
    omega
  unfold signShape at h
  split at h
  · obtain rfl := List.mem_singleton.mp h
    exact hafter
  · split at h
    · obtain rfl := List.mem_singleton.mp h
      exact hafter
    · exact Fragment.operandShape_parts_length_lt hne h

def signFirst : OperandRule where
  read := signShape
  shorter := signShape_parts_length_lt

variable {registry : Registry} {f : Fragment} {rest : List Char} {d : Decimal}

theorem outline_eq (rule : OperandRule) (f : Fragment) :
    rule.outline f = (rule.shape f).outlineBy rule.outline := by
  rw [outline]
  split
  all_goals next h => simp [h, Shape.outlineBy]

theorem numberFirst_outline (f : Fragment) : numberFirst.outline f = f.outline := by
  induction f using Fragment.partsInduction with
  | whole f ih =>
    rw [outline_eq, Fragment.outline_eq, ← Shape.outlineBy_outline]
    exact Shape.outlineBy_congr ih

theorem numberFirst_parse : numberFirst.parse = Formula.parse := by
  funext registry source
  rw [parse, Formula.parse, numberFirst_outline]

/-- The rules differ where a sign stands before a number. -/
theorem signFirst_shape_cases (f : Fragment) : signFirst.shape f = f.shape ∨
    ∃ n, Numeral.read? f.strip.text = some n ∧ f.shape = f.strip.operandShape ∧
      ((∃ rest, f.strip.text = '-' :: rest ∧ signFirst.shape f = .minus (f.strip.after 0)) ∨
        ∃ rest, f.strip.text = '+' :: rest ∧ signFirst.shape f = .plus (f.strip.after 0)) := by
  rw [shape, Fragment.shape]
  split
  next => exact Or.inl rfl
  next =>
    cases topOperator? f.strip.text with
    | some found => exact Or.inl rfl
    | none =>
      show (if f.strip.text.head? = some '-' then Shape.minus (f.strip.after 0)
        else if f.strip.text.head? = some '+' then .plus (f.strip.after 0)
        else f.strip.operandShape) = f.strip.operandShape ∨ _
      by_cases hminus : f.strip.text.head? = some '-'
      · obtain ⟨rest, ht⟩ := List.head?_eq_some_iff.mp hminus
        rw [if_pos hminus]
        cases hread : Numeral.read? f.strip.text with
        | none => exact Or.inl (Fragment.operandShape_of_minus hread ht).symm
        | some n => exact Or.inr ⟨n, rfl, rfl, Or.inl ⟨rest, ht, if_pos hminus⟩⟩
      rw [if_neg hminus]
      by_cases hplus : f.strip.text.head? = some '+'
      · obtain ⟨rest, ht⟩ := List.head?_eq_some_iff.mp hplus
        rw [if_pos hplus]
        cases hread : Numeral.read? f.strip.text with
        | none => exact Or.inl (Fragment.operandShape_of_plus hread ht).symm
        | some n =>
          exact Or.inr ⟨n, rfl, rfl, Or.inr ⟨rest, ht, (if_neg hminus).trans (if_pos hplus)⟩⟩
      · exact Or.inl (if_neg hplus)

/-- A number without a sign is read in the same way by both rules. -/
theorem signFirst_outline_literal (h : Literal f.text d) :
    signFirst.outline f = if d.rank < infiniteRank then .number (floatOfRank d.rank)
      else .fault .literalOutOfRange f := by
  obtain ⟨c, rest, hhead, hc⟩ := h.head
  have hplain := plain_of_isMantissa hc
  have htrim : f.trim = f := Fragment.trim_of_literal h
  have hstrip : f.strip = f := by
    rw [Fragment.strip_of_head (htrim ▸ hhead) (hplain.ne_opener rfl), htrim]
  have hshape : signFirst.shape f = f.shape := by
    refine (signFirst_shape_cases f).resolve_right ?_
    rintro ⟨n, _, _, ⟨later, ht, _⟩ | ⟨later, ht, _⟩⟩
    · rw [hstrip, hhead] at ht
      exact hplain.ne_opener rfl (List.cons.inj ht).1
    · rw [hstrip, hhead] at ht
      exact hplain.ne_opener rfl (List.cons.inj ht).1
  rw [outline_eq, hshape, Fragment.shape_literal h (by rw [htrim]), htrim]
  split <;> rfl

end OperandRule

/-- The same error, but that a literal out of range is pointed at behind its sign. -/
def Error.pastSign : Error → Error
  | .malformed .literalOutOfRange place =>
    .malformed .literalOutOfRange
      (if place.text.head?.any isPlusMinus then place.after 0 else place)
  | error => error

/-- Behind the sign the same literal is pointed at. -/
theorem Error.pastSign_after {place : Fragment} {sign : Char} {rest : List Char} {d : Decimal}
    (ht : place.text = sign :: rest) (hsign : isPlusMinus sign = true)
    (h : Literal (place.after 0).text d) :
    Error.pastSign (.malformed .literalOutOfRange (place.after 0)) =
      Error.pastSign (.malformed .literalOutOfRange place) := by
  obtain ⟨c, later, hhead, hc⟩ := h.head
  have hunsigned : isPlusMinus c = false := by
    by_contra hsigned
    rcases isPlusMinus_cases (by simpa using hsigned) with rfl | rfl <;> cases hc
  simp [Error.pastSign, ht, hsign, hhead, hunsigned]

/-- Steps that fail alike, but for what `g` leaves out of their errors, and lead to the same values
can be followed by others like that. -/
theorem mapError_bind_congr {α β : Type} {g : Error → Error} {x y : Except Error α}
    {f h : α → Except Error β} (hsame : y.mapError g = x.mapError g)
    (hf : ∀ value, (h value).mapError g = (f value).mapError g) :
    (y >>= h).mapError g = (x >>= f).mapError g := by
  cases y with
  | error error =>
    cases x with
    | error other => exact congrArg Except.error (Except.error.inj hsame)
    | ok value => cases hsame
  | ok value =>
    cases x with
    | error other => cases hsame
    | ok other =>
      obtain rfl := Except.ok.inj hsame
      exact hf value

/-- Two makings that end alike, but for what `g` leaves out of their errors. -/
def Build.EndsAs {α : Type} (g : Error → Error) (x y : Build α) : Prop :=
  ∀ b, (y.run b).mapError g = (x.run b).mapError g

namespace Build.EndsAs

variable {α β : Type} {g : Error → Error}

theorem refl (x : Build α) : EndsAs g x x := fun _ => rfl

theorem bind {x y : Build α} {f h : α → Build β} (hx : EndsAs g x y)
    (hf : ∀ value, EndsAs g (f value) (h value)) : EndsAs g (x >>= f) (y >>= h) := by
  intro b
  rw [run_bind, run_bind]
  exact mapError_bind_congr (hx b) fun made => hf made.1 made.2

end Build.EndsAs

section Resolve

variable {registry : Registry}

theorem Outline.resolveAll_endsAs {g : Error → Error} {p q : Fragment → Outline}
    {fragments : List Fragment}
    (h : ∀ f ∈ fragments, Build.EndsAs g ((p f).resolve registry) ((q f).resolve registry)) :
    Build.EndsAs g (Outline.resolveAll registry (fragments.map p))
      (Outline.resolveAll registry (fragments.map q)) := by
  induction fragments with
  | nil => exact .refl _
  | cons f rest ih =>
    obtain ⟨hfirst, hrest⟩ := List.forall_mem_cons.mp h
    exact hfirst.bind fun first => (ih hrest).bind fun others => .refl _

/-- Outlines of one shape are resolved alike when those of its parts are. -/
theorem Shape.resolve_endsAs {g : Error → Error} {p q : Fragment → Outline} {s : Shape}
    (h : ∀ f ∈ s.parts, Build.EndsAs g ((p f).resolve registry) ((q f).resolve registry)) :
    Build.EndsAs g ((s.outlineBy p).resolve registry) ((s.outlineBy q).resolve registry) := by
  cases s with
  | fault | number | name => exact .refl _
  | plus operand => exact h operand (by simp [Shape.parts])
  | minus operand => exact (h operand (by simp [Shape.parts])).bind fun term => .refl _
  | binary op left right =>
    have hleft := h left (by simp [Shape.parts])
    have hright := h right (by simp [Shape.parts])
    exact hleft.bind fun first => hright.bind fun second => .refl _
  | call word place arguments =>
    rw [Shape.outlineBy, Shape.outlineBy, Outline.resolve, Outline.resolve]
    cases registry.find? word with
    | none => exact .refl _
    | some provider => exact (Outline.resolveAll_endsAs h).bind fun operands => .refl _

/-- By induction along the parts: it makes no difference whether the sign of a number is read with
the number or taken off before. -/
theorem OperandRule.signFirst_endsAs (f : Fragment) :
    Build.EndsAs Error.pastSign (f.outline.resolve registry)
      ((signFirst.outline f).resolve registry) := by
  induction f using Fragment.partsInduction with
  | whole f ih =>
    rw [outline_eq signFirst, Fragment.outline_eq]
    rcases signFirst_shape_cases f with hshape | ⟨n, hread, hshape, hcases⟩
    · rw [hshape, ← Shape.outlineBy_outline]
      exact Shape.resolve_endsAs ih
    rw [hshape, Fragment.operandShape_of_numeral hread]
    rcases hcases with ⟨rest, ht, hsign⟩ | ⟨rest, ht, hsign⟩
    · have hminus : splitSign f.strip.text = (true, rest) := by
        rw [ht]
        rfl
      obtain ⟨d, rfl, hlit⟩ := Numeral.read?_signed hminus hread
      have hrest : Literal (f.strip.after 0).text d := by rwa [Fragment.after_sign ht]
      rw [hsign, Shape.outlineBy, signFirst_outline_literal hrest]
      by_cases hd : d.rank < infiniteRank
      · have hrange : (⟨true, d⟩ : Numeral).inRange = true := decide_eq_true hd
        rw [if_pos hd, if_pos hrange]
        exact .refl _
      · have hrange : ¬(⟨true, d⟩ : Numeral).inRange = true := mt of_decide_eq_true hd
        rw [if_neg hd, if_neg hrange]
        exact fun b => congrArg Except.error (Error.pastSign_after ht rfl hrest)
    · have hplus : splitSign f.strip.text = (false, rest) := by
        rw [ht]
        rfl
      obtain ⟨d, rfl, hlit⟩ := Numeral.read?_signed hplus hread
      have hrest : Literal (f.strip.after 0).text d := by rwa [Fragment.after_sign ht]
      rw [hsign, Shape.outlineBy, signFirst_outline_literal hrest]
      by_cases hd : d.rank < infiniteRank
      · have hrange : (⟨false, d⟩ : Numeral).inRange = true := decide_eq_true hd
        rw [if_pos hd, if_pos hrange]
        exact .refl _
      · have hrange : ¬(⟨false, d⟩ : Numeral).inRange = true := mt of_decide_eq_true hd
        rw [if_neg hd, if_neg hrange]
        exact fun b => congrArg Except.error (Error.pastSign_after ht rfl hrest)

theorem OperandRule.signFirst_parse (registry : Registry) (source : String) :
    (signFirst.parse registry source).mapError Error.pastSign =
      (Formula.parse registry source).mapError Error.pastSign :=
  mapError_bind_congr rfl fun _ =>
    mapError_bind_congr (signFirst_endsAs (Fragment.ofString source) {}) fun _ => rfl

end Resolve

/-- The tests on characters and the reader of numbers accept exactly the literals, whose values are
finite unless they are rounded to an infinity, and never a name. A sign may be read with the number
or taken off before it: the same texts are parsed, to the same formulas, and a text that is refused
is refused for the same reason, at the same place but for that sign. -/
theorem literals_read_exactly :
    (∀ text, (readLiteral text = .notALiteral ↔ ∀ n, ¬SignedLiteral text n) ∧
      (∀ n, SignedLiteral text n →
        (readLiteral text = .outOfRange ∨
          readLiteral text = .number n.value ∧ n.value.isFinite = true) ∧
        (readLiteral text = .outOfRange ↔
          2 ^ 1024 - 2 ^ 970 ≤ (n.decimal.digits : ℚ) * 10 ^ n.decimal.exponent)) ∧
      (isName text = true → readLiteral text = .notALiteral)) ∧
    (∀ rest, (∀ c, rest.head? = some c → isPlusMinus c = false) →
      readLiteral ('-' :: rest) = (readLiteral rest).negate ∧
        readLiteral ('+' :: rest) = readLiteral rest) ∧
    (∀ f : Fragment, f.operandShape =
      match readLiteral f.text with
      | .number value => .number value
      | .outOfRange => .fault .literalOutOfRange f
      | .notALiteral => f.unreadShape) ∧
    ∀ registry : Registry,
      (∀ f : Fragment, Build.EndsAs Error.pastSign (f.outline.resolve registry)
        ((OperandRule.signFirst.outline f).resolve registry)) ∧
      ∀ source, Formula.parse registry source = OperandRule.numberFirst.parse registry source ∧
        (OperandRule.signFirst.parse registry source).mapError Error.pastSign =
          (Formula.parse registry source).mapError Error.pastSign := by
  refine ⟨fun text => ⟨readLiteral_eq_notALiteral, fun n h => ⟨?_, h.outOfRange_iff⟩,
    readLiteral_of_isName⟩, fun rest => readLiteral_sign, Fragment.operandShape_eq,
    fun registry => ⟨OperandRule.signFirst_endsAs, fun source =>
      ⟨by rw [OperandRule.numberFirst_parse], OperandRule.signFirst_parse registry source⟩⟩⟩
  rw [h.readLiteral_eq, Numeral.reading]
  split
  next hrange => exact Or.inr ⟨rfl, Numeral.isFinite_value hrange⟩
  next => exact Or.inl rfl

/-- A literal beyond the range whose sign makes no difference, and a name made of its letters. -/
theorem signedOverflow_read :
    SignedLiteral "-1e999".toList ⟨true, ⟨1, 999⟩⟩ ∧
      readLiteral "-1e999".toList = .outOfRange ∧
      readLiteral "+1e999".toList = readLiteral "1e999".toList ∧
      isName "e999".toList = true ∧ readLiteral "e999".toList = .notALiteral ∧
      Fragment.operandShape ⟨2, "-1e999".toList⟩ =
        .fault .literalOutOfRange ⟨2, "-1e999".toList⟩ ∧
      (OperandRule.signFirst.parse (.ofExtensions []) "x*-1e999").mapError Error.pastSign =
        .error (.malformed .literalOutOfRange ⟨3, "1e999".toList⟩) := by
  obtain ⟨hread, hsign, hshape, horder⟩ := literals_read_exactly
  have hliteral : SignedLiteral "-1e999".toList ⟨true, ⟨1, 999⟩⟩ :=
    Numeral.read?_eq_some.mp (by decide)
  have hrange : (⟨true, ⟨1, 999⟩⟩ : Numeral).inRange = false := by decide +kernel
  have hout : readLiteral "-1e999".toList = .outOfRange := by
    refine ((hread _).2.1 _ hliteral).1.resolve_right fun hnumber => ?_
    rw [Numeral.isFinite_iff, hrange] at hnumber
    exact Bool.false_ne_true hnumber.2
  have hname : isName "e999".toList = true := by decide
  have hparse : (Formula.parse (.ofExtensions []) "x*-1e999").mapError Error.pastSign =
      .error (.malformed .literalOutOfRange ⟨3, "1e999".toList⟩) := by with_unfolding_all rfl
  have hplus := (hsign "1e999".toList fun c hc => by cases hc; rfl).2
  refine ⟨hliteral, hout, hplus, hname, (hread _).2.2 hname, ?_, ?_⟩
  · have hoperand := hshape ⟨2, "-1e999".toList⟩
    rwa [hout] at hoperand
  · rw [((horder (.ofExtensions [])).2 "x*-1e999").2, hparse]

end Formulary
