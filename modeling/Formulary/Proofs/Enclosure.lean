import Formulary.Proofs.FaultPlace

namespace Formulary

/-- The same text, farther on in a source. -/
def Fragment.shift (n : Nat) (f : Fragment) : Fragment := ⟨f.offset + n, f.text⟩

/-- The same error, farther on in a source. Only a fault of the text has a place there. -/
def Error.shift (n : Nat) : Error → Error
  | .malformed cause place => .malformed cause (place.shift n)
  | error => error

def Shape.shift (n : Nat) : Shape → Shape
  | .fault cause place => .fault cause (place.shift n)
  | .number value => .number value
  | .name place => .name (place.shift n)
  | .plus operand => .plus (operand.shift n)
  | .minus operand => .minus (operand.shift n)
  | .binary op left right => .binary op (left.shift n) (right.shift n)
  | .call word place arguments => .call word (place.shift n) (arguments.map (Fragment.shift n))

namespace Fragment

variable {n : Nat}

@[simp] theorem shift_offset (f : Fragment) : (f.shift n).offset = f.offset + n := rfl

@[simp] theorem shift_text (f : Fragment) : (f.shift n).text = f.text := rfl

theorem shift_offsetAt (f : Fragment) (i : Nat) : (f.shift n).offsetAt i = f.offsetAt i + n := by
  rw [offsetAt, offsetAt, shift_offset, shift_text]
  omega

theorem shift_before (f : Fragment) (i : Nat) : (f.shift n).before i = (f.before i).shift n := rfl

theorem shift_after (f : Fragment) (i : Nat) : (f.shift n).after i = (f.after i).shift n := by
  rw [after, shift_offsetAt]
  rfl

theorem shift_trim (f : Fragment) : (f.shift n).trim = f.trim.shift n := by
  have ho : f.offset + n + textSize (f.text.takeWhile isBlank) =
      f.offset + textSize (f.text.takeWhile isBlank) + n := by omega
  rw [trim, shift_offset, shift_text, ho]
  rfl

theorem shift_strip (f : Fragment) : (f.shift n).strip = f.strip.shift n := by
  induction f using Fragment.lengthInduction with
  | shorter f ih =>
    by_cases h : ∃ rest inside, f.trim.text = '(' :: rest ∧ splitGroup 0 rest = some (inside, [])
    · obtain ⟨rest, inside, ht, hg⟩ := h
      have hlen := f.trim_length_le
      rw [ht, splitGroup_eq hg, List.length_cons, List.length_append] at hlen
      have hinner := ih ⟨f.trim.offset + 1, inside⟩ (by simp only; omega)
      have ht' : (f.shift n).trim.text = '(' :: rest := by rw [shift_trim, shift_text, ht]
      have ho : (f.shift n).trim.offset + 1 = f.trim.offset + 1 + n := by
        rw [shift_trim, shift_offset]
        omega
      rw [strip_of_group ht hg, ← hinner, strip_of_group ht' hg, ho]
      rfl
    · have hnone : ∀ rest inside, f.trim.text = '(' :: rest →
          splitGroup 0 rest ≠ some (inside, []) := by
        intro rest inside ht hg
        exact h ⟨rest, inside, ht, hg⟩
      have hnone' : ∀ rest inside, (f.shift n).trim.text = '(' :: rest →
          splitGroup 0 rest ≠ some (inside, []) := by
        rw [shift_trim, shift_text]
        exact hnone
      rw [strip_of_not_group hnone, strip_of_not_group hnone', shift_trim]

theorem shift_call? (f : Fragment) :
    (f.shift n).call? = f.call?.map fun call => (call.1, call.2.shift n) := by
  rw [call?, call?, shift_text]
  cases hi : f.text.findIdx? (· = '(') with
  | none => rfl
  | some i =>
    simp only [Option.bind_eq_bind, Option.bind_some, shift_offsetAt]
    cases splitGroup 0 (f.text.drop (i + 1)) with
    | none => rfl
    | some group =>
      obtain ⟨inside, later⟩ := group
      cases later <;> rfl

theorem placeFrom_shift (offset : Nat) (texts : List (List Char)) :
    placeFrom (offset + n) texts = (placeFrom offset texts).map (Fragment.shift n) := by
  induction texts generalizing offset with
  | nil => rfl
  | cons text rest ih =>
    have ho : offset + n + textSize text + 1 = offset + textSize text + 1 + n := by omega
    rw [placeFrom, placeFrom, ho, ih]
    rfl

theorem shift_arguments (f : Fragment) :
    (f.shift n).arguments = f.arguments.map (Fragment.shift n) := by
  rw [arguments_eq, arguments_eq, pieces, pieces, shift_text, shift_offset, placeFrom_shift]
  split <;> rfl

theorem shift_operandShape (f : Fragment) :
    (f.shift n).operandShape = f.operandShape.shift n := by
  rw [operandShape, operandShape, shift_text, shift_call?, shift_after]
  cases Numeral.read? f.text with
  | some numeral => simp only; split <;> rfl
  | none =>
    simp only
    split
    · rfl
    · split
      · rfl
      · cases f.call? with
        | none =>
          simp only [Option.map_none]
          split <;> rfl
        | some call =>
          simp only [Option.map_some, shift_arguments]
          split <;> rfl

theorem shift_shape (f : Fragment) : (f.shift n).shape = f.shape.shift n := by
  rw [shape, shape, shift_strip]
  by_cases hempty : f.strip.text = []
  · have hempty' : (f.strip.shift n).text = [] := hempty
    rw [if_pos hempty, if_pos hempty']
    rfl
  · have hne : (f.strip.shift n).text ≠ [] := hempty
    rw [if_neg hempty, if_neg hne, shift_text]
    cases topOperator? f.strip.text with
    | none => exact f.strip.shift_operandShape
    | some found =>
      simp only [shift_before, shift_after]
      rfl

end Fragment

/-- A making that takes the same course as another one, and if it fails, fails with the error that
`g` makes of the other's. -/
def Build.FailsAs {α : Type} (g : Error → Error) (x y : Build α) : Prop :=
  ∀ b, y.run b = (x.run b).mapError g

namespace Build.FailsAs

variable {α β : Type} {g : Error → Error}

theorem pure (value : α) : FailsAs g (Pure.pure value) (Pure.pure value) := fun _ => rfl

theorem bind {x y : Build α} {f h : α → Build β} (hx : FailsAs g x y)
    (hf : ∀ value, FailsAs g (f value) (h value)) : FailsAs g (x >>= f) (y >>= h) := by
  intro b
  rw [run_bind, run_bind, hx b]
  cases x.run b with
  | error error => rfl
  | ok made => exact hf made.1 made.2

theorem ofExcept {x y : Except Error α} (h : y = x.mapError g) :
    FailsAs g (Build.ofExcept x) (Build.ofExcept y) := by
  intro b
  rw [run_ofExcept, run_ofExcept, h]
  cases x <;> rfl

theorem slot (name : String) : FailsAs g (Build.slot name) (Build.slot name) := fun _ => rfl

theorem bindings : FailsAs g Build.bindings Build.bindings := fun _ => rfl

end Build.FailsAs

section Resolve

variable {registry : Registry} {n : Nat}

theorem Term.shift_check (call : String) (place : Fragment) (size : Nat) (t : Term) :
    t.check call (place.shift n) size = (t.check call place size).mapError (Error.shift n) := by
  have seq : ∀ x y : Except Error Unit,
      (do x; y : Except Error Unit).mapError (Error.shift n) =
        (do x.mapError (Error.shift n); y.mapError (Error.shift n)) := by
    intro x y
    cases x <;> rfl
  have all : ∀ {operands : List Term}, (∀ t ∈ operands, t.check call (place.shift n) size =
        (t.check call place size).mapError (Error.shift n)) →
      Term.checkAll call (place.shift n) size operands =
        (Term.checkAll call place size operands).mapError (Error.shift n) := by
    intro operands h
    induction operands with
    | nil => rfl
    | cons t rest ih =>
      rw [Term.checkAll, Term.checkAll, seq, h t List.mem_cons_self,
        ih fun u hu => h u (List.mem_cons_of_mem t hu)]
  induction t using Term.bodyInduction with
  | constant => rfl
  | argument name slot =>
    rw [Term.check, Term.check]
    split <;> rfl
  | neg operand ih => exact ih
  | binary op left right ihl ihr => rw [Term.check, Term.check, seq, ihl, ihr]
  | call function operands ih => exact all ih
  | embedded body operands _ ih =>
    have harity : ((Arity.exactly body.argumentCount).check call operands.length).mapError
        (Error.shift n) = (Arity.exactly body.argumentCount).check call operands.length := by
      rw [Arity.check]
      split <;> rfl
    rw [Term.check, Term.check, seq, harity, all ih]

theorem Registry.Placeless.failsAs (placeless : registry.Placeless) {word : String}
    {provider : Provider} (h : registry.find? word = some provider) (operands : List Term) :
    Build.FailsAs (Error.shift n) (provider operands) (provider operands) := by
  intro b
  cases hrun : (provider operands).run b with
  | ok made => rfl
  | error error =>
    cases error with
    | malformed cause place => exact absurd hrun (placeless word provider h operands b cause place)
    | arity | unknownArgument | notANumber | notCompiled | argumentCount => rfl

theorem Outline.resolveAll_failsAs {fragments : List Fragment}
    (h : ∀ f ∈ fragments, Build.FailsAs (Error.shift n) (f.outline.resolve registry)
      ((f.shift n).outline.resolve registry)) :
    Build.FailsAs (Error.shift n)
      (Outline.resolveAll registry (fragments.map Fragment.outline))
      (Outline.resolveAll registry ((fragments.map (Fragment.shift n)).map Fragment.outline)) := by
  induction fragments with
  | nil => exact .pure []
  | cons f rest ih =>
    obtain ⟨hfirst, hrest⟩ := List.forall_mem_cons.mp h
    exact hfirst.bind fun first => (ih hrest).bind fun others => .pure (first :: others)

/-- By induction along the parts: farther on in the source a fragment is resolved in the same way,
and fails as far on. -/
theorem Fragment.resolve_failsAs (placeless : registry.Placeless) (f : Fragment) :
    Build.FailsAs (Error.shift n) (f.outline.resolve registry)
      ((f.shift n).outline.resolve registry) := by
  induction f using Fragment.partsInduction with
  | whole f hparts =>
    rw [Fragment.outline_eq f, Fragment.outline_eq (f.shift n), Fragment.shift_shape]
    cases hs : f.shape with
    | fault cause place => exact fun _ => rfl
    | number value => exact .pure _
    | name place => exact (Build.FailsAs.slot _).bind fun slot => .pure _
    | plus operand =>
      rw [hs] at hparts
      exact hparts operand (by simp [Shape.parts])
    | minus operand =>
      rw [hs] at hparts
      exact (hparts operand (by simp [Shape.parts])).bind fun term => .pure _
    | binary op left right =>
      rw [hs] at hparts
      have hleft := hparts left (by simp [Shape.parts])
      have hright := hparts right (by simp [Shape.parts])
      exact hleft.bind fun first => hright.bind fun second => .pure _
    | call word place arguments =>
      rw [hs] at hparts
      have hall := Outline.resolveAll_failsAs hparts
      rw [Shape.outline, Shape.shift, Shape.outline, Outline.resolve, Outline.resolve]
      cases hf : registry.find? word with
      | none => exact fun _ => rfl
      | some provider =>
        exact hall.bind fun operands => (placeless.failsAs hf operands).bind fun term =>
          Build.FailsAs.bindings.bind fun bindings =>
            (Build.FailsAs.ofExcept (Term.shift_check word place bindings.size term)).bind
              fun _ => .pure term

end Resolve

/-- A text in `n` pairs of parentheses. -/
def enclosed (n : Nat) (text : List Char) : List Char :=
  List.replicate n '(' ++ text ++ List.replicate n ')'

theorem enclosed_succ (n : Nat) (text : List Char) :
    enclosed (n + 1) text = '(' :: (enclosed n text ++ [')']) := by
  rw [enclosed, enclosed, List.replicate_succ, List.replicate_succ' (a := ')')]
  simp

theorem Balanced.enclosed {text : List Char} (h : Balanced text) (n : Nat) :
    Balanced (enclosed n text) := by
  induction n with
  | zero => simpa [Formulary.enclosed] using h
  | succ n ih =>
    rw [enclosed_succ]
    exact .group ih .nil

/-- All pairs are stripped, also when the text itself begins and ends with groups of its own. -/
theorem Balanced.strip_enclosed {text : List Char} (h : Balanced text) (n offset : Nat) :
    Fragment.strip ⟨offset, Formulary.enclosed n text⟩ = Fragment.strip ⟨offset + n, text⟩ := by
  induction n generalizing offset with
  | zero => simp [Formulary.enclosed]
  | succ n ih =>
    have hinside := h.enclosed n
    have htrim : Fragment.trim ⟨offset, '(' :: (Formulary.enclosed n text ++ [')'])⟩ =
        ⟨offset, '(' :: (Formulary.enclosed n text ++ [')'])⟩ := by
      have hends := trim_of_ends (p := isBlank) (w := '(' :: (Formulary.enclosed n text ++ [')']))
        rfl (by simp [List.getLast?_cons, isBlank])
      rw [Fragment.trim, hends]
      rfl
    have ht : (Fragment.trim ⟨offset, '(' :: (Formulary.enclosed n text ++ [')'])⟩).text =
        '(' :: (Formulary.enclosed n text ++ [')']) := by rw [htrim]
    have ho : offset + (n + 1) = offset + 1 + n := by omega
    -- The last `)` closes the first `(`, for what stands between them is balanced.
    rw [enclosed_succ, Fragment.strip_of_group ht (hinside.splitGroup_close []), htrim, ih, ho]

/-- Parentheses around a whole balanced text change nothing: the term and the bindings are the same
as without them, and if the text is refused, then for the same reason at the same place of it. -/
theorem Formula.parse_enclosed {source : String} (h : Balanced source.toList)
    (entries : List (String × Extension)) (n : Nat) :
    (Formula.parse (.ofExtensions entries) (String.ofList (enclosed n source.toList))).map
        (fun f => (f.root, f.arguments)) =
      ((Formula.parse (.ofExtensions entries) source).map
        fun f => (f.root, f.arguments)).mapError (Error.shift n) := by
  have hwhole : (Fragment.ofString source).requireBalance = .ok () :=
    Fragment.requireBalance_eq_ok_iff.mpr h
  have henclosed : (Fragment.ofString (String.ofList (enclosed n source.toList))).requireBalance =
      .ok () := by
    refine Fragment.requireBalance_eq_ok_iff.mpr ?_
    rw [Fragment.ofString, String.toList_ofList]
    exact h.enclosed n
  have houtline : (Fragment.ofString (String.ofList (enclosed n source.toList))).outline =
      ((Fragment.ofString source).shift n).outline := by
    rw [Fragment.outline_eq, Fragment.outline_eq ((Fragment.ofString source).shift n)]
    refine congrArg Shape.outline (Fragment.shape_of_strip ?_)
    rw [Fragment.ofString, String.toList_ofList, h.strip_enclosed]
    rfl
  have hrun := Fragment.resolve_failsAs (n := n) (Registry.placeless_ofExtensions entries)
    (Fragment.ofString source) {}
  simp only [Formula.parse, bind, Except.bind, hwhole, henclosed, houtline, hrun]
  cases ((Fragment.ofString source).outline.resolve (.ofExtensions entries)).run {} <;> rfl

/-- Groups at both ends of a text are not taken for a pair around it. -/
theorem twoGroups_enclosed :
    Balanced "(x)-(y+)".toList ∧
      (Formula.parse (.ofExtensions mathExtensions)
          (String.ofList (enclosed 3 "(x)-(y+)".toList))).map (fun f => (f.root, f.arguments)) =
        .error (.malformed .emptyOperand ⟨10, []⟩) := by
  have hbalance : Balanced "(x)-(y+)".toList :=
    (Fragment.requireBalance_eq_ok_iff (f := .ofString "(x)-(y+)")).mp
      (by with_unfolding_all rfl)
  have hparse : Formula.parse (.ofExtensions mathExtensions) "(x)-(y+)" =
      .error (.malformed .emptyOperand ⟨7, []⟩) := by with_unfolding_all rfl
  refine ⟨hbalance, ?_⟩
  rw [Formula.parse_enclosed hbalance mathExtensions 3, hparse]
  rfl

end Formulary
