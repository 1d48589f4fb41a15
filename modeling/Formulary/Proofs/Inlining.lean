import Formulary.Proofs.CompiledAgreement
import Formulary.Proofs.Definition

namespace Formulary

mutual

/-- The term with the given terms for its arguments, in slot order. An argument whose slot lies
beyond them stays. -/
def Term.substitute (given : List Term) : Term → Term
  | .constant value => .constant value
  | .argument name slot => given.getD slot (.argument name slot)
  | .neg operand => .neg (operand.substitute given)
  | .binary op left right => .binary op (left.substitute given) (right.substitute given)
  | .call function operands => .call function (Term.substituteAll given operands)
  | .embedded body operands => .embedded body (Term.substituteAll given operands)

def Term.substituteAll (given : List Term) : List Term → List Term
  | [] => []
  | operand :: rest => operand.substitute given :: Term.substituteAll given rest

end

mutual

/-- The term without embedded formulas: for each stands its inlined root, with the inlined operands
for the arguments. -/
def Term.inline : Term → Term
  | .constant value => .constant value
  | .argument name slot => .argument name slot
  | .neg operand => .neg operand.inline
  | .binary op left right => .binary op left.inline right.inline
  | .call function operands => .call function (Term.inlineAll operands)
  | .embedded ⟨_, root, _, _, _⟩ operands => root.inline.substitute (Term.inlineAll operands)

def Term.inlineAll : List Term → List Term
  | [] => []
  | operand :: rest => operand.inline :: Term.inlineAll rest

end

section Substitute

variable {given : List Term}

theorem Term.substituteAll_eq_map (operands : List Term) :
    Term.substituteAll given operands = operands.map (Term.substitute given) := by
  induction operands with
  | nil => rfl
  | cons t rest ih => rw [Term.substituteAll, ih, List.map_cons]

theorem Term.substitute_argument {name : String} {slot : Nat} (h : slot < given.length) :
    (Term.argument name slot).substitute given = given[slot] := by
  simp [Term.substitute, h]

theorem Term.evalAll?_getElem? {values found : List Float}
    (h : Term.evalAll? given values = some found) (slot : Nat) :
    found[slot]? = given[slot]?.bind fun t => t.eval? values := by
  induction given generalizing found slot with
  | nil =>
    obtain rfl := Option.some.inj h
    rfl
  | cons t rest ih =>
    obtain ⟨x, hx, h⟩ := Option.bind_eq_some_iff.mp h
    obtain ⟨xs, hxs, h⟩ := Option.bind_eq_some_iff.mp h
    obtain rfl := Option.some.inj h
    cases slot with
    | zero => exact hx.symm
    | succ slot => exact ih hxs slot

/-- A substituted term has the value that the term has for the values of what was given. -/
theorem Term.substitute_eval? {t : Term} {values found : List Float} (h : t.Fits given.length)
    (hg : Term.evalAll? given values = some found) :
    (t.substitute given).eval? values = t.eval? found := by
  induction t using Term.bodyInduction with
  | constant => rfl
  | argument name slot =>
    have hslot : slot < given.length := h
    rw [Term.substitute_argument hslot, Term.eval?, Term.evalAll?_getElem? hg,
      List.getElem?_eq_getElem hslot]
    rfl
  | neg operand ih => rw [Term.substitute, Term.eval?, Term.eval?, ih h]
  | binary op left right ihl ihr =>
    rw [Term.substitute, Term.eval?, Term.eval?, ihl h.1, ihr h.2]
  | call function operands ih =>
    rw [Term.substitute, Term.eval?, Term.eval?, Term.substituteAll_eq_map,
      Term.evalAll?_map_at fun t ht => ih t ht (Term.allFit_iff.mp h t ht)]
  | embedded body operands _ ih =>
    change (Term.evalAll? (Term.substituteAll given operands) values).bind body.root.eval? =
      (Term.evalAll? operands found).bind body.root.eval?
    rw [Term.substituteAll_eq_map,
      Term.evalAll?_map_at fun t ht => ih t ht (Term.allFit_iff.mp h.2 t ht)]

theorem Term.substitute_fits {t : Term} {size : Nat} (h : t.Fits given.length)
    (hg : ∀ u ∈ given, u.Fits size) : (t.substitute given).Fits size := by
  have all : ∀ {operands : List Term}, (∀ t ∈ operands, (t.substitute given).Fits size) →
      Term.AllFit size (Term.substituteAll given operands) := by
    intro operands h
    rw [Term.substituteAll_eq_map]
    exact Term.allFit_iff.mpr (List.forall_mem_map.mpr h)
  induction t using Term.bodyInduction with
  | constant => trivial
  | argument name slot =>
    have hslot : slot < given.length := h
    rw [Term.substitute_argument hslot]
    exact hg _ (List.getElem_mem hslot)
  | neg operand ih => exact ih h
  | binary op left right ihl ihr => exact ⟨ihl h.1, ihr h.2⟩
  | call function operands ih => exact all fun t ht => ih t ht (Term.allFit_iff.mp h t ht)
  | embedded body operands _ ih =>
    refine ⟨?_, all fun t ht => ih t ht (Term.allFit_iff.mp h.2 t ht)⟩
    rw [Term.substituteAll_eq_map, List.length_map]
    exact h.1

theorem Term.substitute_bodies {t : Term} (h : t.bodies = [])
    (hg : ∀ u ∈ given, u.bodies = []) : (t.substitute given).bodies = [] := by
  induction t using Term.bodyInduction with
  | constant => rfl
  | argument name slot =>
    by_cases hslot : slot < given.length
    · rw [Term.substitute_argument hslot]
      exact hg _ (List.getElem_mem hslot)
    · simp [Term.substitute, hslot, Term.bodies]
  | neg operand ih => exact ih h
  | binary op left right ihl ihr =>
    obtain ⟨hl, hr⟩ := List.append_eq_nil_iff.mp h
    exact List.append_eq_nil_iff.mpr ⟨ihl hl, ihr hr⟩
  | call function operands ih =>
    have hall : ∀ t ∈ operands, t.bodies = [] := fun t ht => List.eq_nil_iff_forall_not_mem.mpr
      fun b hb => List.eq_nil_iff_forall_not_mem.mp h b (Term.mem_bodiesAll.mpr ⟨t, ht, hb⟩)
    refine List.eq_nil_iff_forall_not_mem.mpr (Term.forall_bodiesAll.mpr ?_)
    rw [Term.substituteAll_eq_map]
    refine List.forall_mem_map.mpr fun t ht => ?_
    rw [ih t ht (hall t ht)]
    simp
  | embedded body operands => rw [Term.bodies_embedded] at h; cases h

end Substitute

section Inline

variable {t : Term} {size : Nat}

theorem Term.inlineAll_eq_map (operands : List Term) :
    Term.inlineAll operands = operands.map Term.inline := by
  induction operands with
  | nil => rfl
  | cons t rest ih => rw [Term.inlineAll, ih, List.map_cons]

theorem Term.inline_bodies (t : Term) : t.inline.bodies = [] := by
  induction t using Term.bodyInduction with
  | constant => rfl
  | argument => rfl
  | neg operand ih => exact ih
  | binary op left right ihl ihr => exact List.append_eq_nil_iff.mpr ⟨ihl, ihr⟩
  | call function operands ih =>
    refine List.eq_nil_iff_forall_not_mem.mpr (Term.forall_bodiesAll.mpr ?_)
    rw [Term.inlineAll_eq_map]
    refine List.forall_mem_map.mpr fun t ht => ?_
    rw [ih t ht]
    simp
  | embedded body operands ihroot ih =>
    refine Term.substitute_bodies ihroot ?_
    rw [Term.inlineAll_eq_map]
    exact List.forall_mem_map.mpr ih

theorem Term.inline_fits (h : t.Fits size) (hb : ∀ b ∈ t.bodies, b.Fits) : t.inline.Fits size := by
  induction t using Term.bodyInduction generalizing size with
  | constant => trivial
  | argument => exact h
  | neg operand ih => exact ih h hb
  | binary op left right ihl ihr =>
    obtain ⟨hl, hr⟩ := List.forall_mem_append.mp hb
    exact ⟨ihl h.1 hl, ihr h.2 hr⟩
  | call function operands ih =>
    have hall := Term.forall_bodiesAll.mp hb
    rw [Term.inline, Term.Fits, Term.inlineAll_eq_map, Term.allFit_iff, List.forall_mem_map]
    exact fun t ht => ih t ht (Term.allFit_iff.mp h t ht) (hall t ht)
  | embedded body operands ihroot ih =>
    obtain ⟨hbody, hroot, hall⟩ := Term.forall_bodies_embedded.mp hb
    change (body.root.inline.substitute (Term.inlineAll operands)).Fits size
    rw [Term.inlineAll_eq_map]
    refine Term.substitute_fits ?_ (List.forall_mem_map.mpr fun t ht =>
      ih t ht (Term.allFit_iff.mp h.2 t ht) (hall t ht))
    rw [List.length_map, h.1]
    exact ihroot hbody hroot

/-- The two slot spaces meet at an embedded formula: its own slots lie below the number of its
operands, and these have their slots in the term around it. -/
theorem Term.inline_eval? {values : List Float} (h : t.Fits size) (hb : ∀ b ∈ t.bodies, b.Fits)
    (hv : values.length = size) : t.inline.eval? values = t.eval? values := by
  induction t using Term.bodyInduction generalizing size values with
  | constant => rfl
  | argument => rfl
  | neg operand ih => rw [Term.inline, Term.eval?, Term.eval?, ih h hb hv]
  | binary op left right ihl ihr =>
    obtain ⟨hl, hr⟩ := List.forall_mem_append.mp hb
    rw [Term.inline, Term.eval?, Term.eval?, ihl h.1 hl hv, ihr h.2 hr hv]
  | call function operands ih =>
    have hall := Term.forall_bodiesAll.mp hb
    rw [Term.inline, Term.eval?, Term.eval?, Term.inlineAll_eq_map, Term.evalAll?_map_at fun t ht =>
      ih t ht (Term.allFit_iff.mp h t ht) (hall t ht) hv]
  | embedded body operands ihroot ih =>
    obtain ⟨hbody, hroot, hall⟩ := Term.forall_bodies_embedded.mp hb
    have hfit := Term.allFit_iff.mp h.2
    obtain ⟨found, hfound, hl⟩ := Term.evalAll?_eq_some fun t ht =>
      (hfit t ht).eval?_eq_some (hall t ht) hv
    have hinlined : Term.evalAll? (operands.map Term.inline) values = some found :=
      (Term.evalAll?_map_at fun t ht => ih t ht (hfit t ht) (hall t ht) hv).trans hfound
    have hinner : body.root.inline.Fits (operands.map Term.inline).length := by
      rw [List.length_map, h.1]
      exact Term.inline_fits hbody hroot
    change (body.root.inline.substitute (Term.inlineAll operands)).eval? values =
      (Term.evalAll? operands values).bind body.root.eval?
    rw [Term.inlineAll_eq_map, Term.substitute_eval? hinner hinlined, hfound, Option.bind_some]
    exact ihroot hbody hroot (hl.trans h.1)

end Inline

/-- Every slot lies below `size`, and every embedded formula, at any depth, gets as many operands as
it has arguments and has its own slots below their number. -/
structure Term.WellFormed (t : Term) (size : Nat) : Prop where
  fits : t.Fits size
  inner : ∀ b ∈ t.bodies, b.Fits

/-- Code that an embedded formula holds is the code of its root; there is no other way to get
any. -/
def Term.Memoised (t : Term) : Prop :=
  ∀ b ∈ t.bodies, ∀ code, b.code = some code → code = b.root.lower.code

/-- Code made from the root computes what the root computes if the code within the root does. -/
theorem Term.Memoised.faithful {t : Term} (h : t.Memoised) : ∀ b ∈ t.bodies, b.Faithful := by
  unfold Term.Memoised at h
  induction t using Term.bodyInduction with
  | constant => simp [Term.bodies]
  | argument => simp [Term.bodies]
  | neg operand ih => exact ih h
  | binary op left right ihl ihr =>
    obtain ⟨hl, hr⟩ := List.forall_mem_append.mp h
    exact List.forall_mem_append.mpr ⟨ihl hl, ihr hr⟩
  | call function operands ih =>
    have hall := Term.forall_bodiesAll.mp h
    exact Term.forall_bodiesAll.mpr fun t ht => ih t ht (hall t ht)
  | embedded body operands ihroot ih =>
    obtain ⟨hbody, hroot, hall⟩ := Term.forall_bodies_embedded.mp h
    refine Term.forall_bodies_embedded.mpr ⟨fun code hc => ?_, ihroot hroot, fun t ht =>
      ih t ht (hall t ht)⟩
    rw [hbody code hc, Term.lower_code (ihroot hroot)]

theorem Term.Memoised.lower_eval? {t : Term} (h : t.Memoised) : t.lower.code = t.eval? :=
  Term.lower_code h.faithful

/-- The root of every formula that can be made is well formed, and so is the code in it. -/
theorem Formula.Reachable.wellFormed {f : Formula} (h : f.Reachable) :
    f.root.WellFormed f.argumentCount ∧ f.root.Memoised := by
  have hsound := h.sound
  refine ⟨⟨hsound.1.1, fun b hb => (hsound.2 b hb).1⟩, fun b hb code hc => ?_⟩
  rw [(hsound.2 b hb).2 code hc, (hsound.inner hb).lower_eval?]

/-- A call of an embedded formula means substitution: the inlined term has no embedded formulas and
the value that the term has by its tree and by its code. Nothing that an embedded formula stores
has a part in it, neither the values of its own arguments nor its code. -/
theorem Term.WellFormed.inline_agrees {t : Term} {size : Nat} (h : t.WellFormed size) :
    t.inline.bodies = [] ∧
      (∀ values : List Float, values.length = size → ∃ v, t.eval? values = some v ∧
        t.inline.eval? values = some v ∧ (t.Memoised → t.lower.code values = some v)) ∧
      ∀ u : Term, u.definition = t.definition → u.eval? = t.eval? ∧
        (t.Memoised → u.Memoised → u.lower.code = t.lower.code) := by
  refine ⟨t.inline_bodies, fun values hv => ?_, fun u he => ?_⟩
  · obtain ⟨v, ht⟩ := h.fits.eval?_eq_some h.inner hv
    have hi := Term.inline_eval? h.fits h.inner hv
    exact ⟨v, ht, hi.trans ht, fun hm => by rw [hm.lower_eval?, ht]⟩
  · have hvalue : u.eval? = t.eval? := by
      rw [← u.definition_eval?, he, t.definition_eval?]
    exact ⟨hvalue, fun ht hu => by rw [hu.lower_eval?, ht.lower_eval?, hvalue]⟩

/-- The root of "a+rate(b,c)" around a formula "x/y" that is not compiled and stores other
values. -/
def ratedAnew : Term :=
  .binary .add (.argument "a" 0)
    (.embedded { quotient.toBody with arguments := ⟨[("x", 5), ("y", 7)]⟩ }
      [.argument "rate" 3, .argument "b" 1])

theorem rated_inline_agrees : rated.root.WellFormed 4 ∧ rated.root.Memoised ∧
    ratedAnew.Memoised ∧ ratedAnew.definition = rated.root.definition ∧
    rated.root.inline =
      .binary .add (.argument "a" 0) (.binary .div (.argument "rate" 3) (.argument "b" 1)) ∧
    rated.root.inline.bodies = [] ∧
    (∃ v, rated.root.eval? [1, 2, 3, 4] = some v ∧ rated.root.inline.eval? [1, 2, 3, 4] = some v ∧
      rated.root.lower.code [1, 2, 3, 4] = some v) ∧
    ratedAnew.eval? = rated.root.eval? ∧ ratedAnew.lower.code = rated.root.lower.code := by
  obtain ⟨h, hm⟩ := (Formula.Reachable.of_parse honest_rates parse_rated).wellFormed
  have hanew : ratedAnew.Memoised := by
    simp [Term.Memoised, ratedAnew, quotient, Term.bodies, Term.bodiesAll]
  obtain ⟨hb, hv, hu⟩ := Term.WellFormed.inline_agrees h
  obtain ⟨v, ht, hi, hl⟩ := hv [1, 2, 3, 4] rfl
  obtain ⟨hvalue, hcode⟩ := hu ratedAnew rfl
  exact ⟨h, hm, hanew, rfl, rfl, hb, ⟨v, ht, hi, hl hm⟩, hvalue, hcode hm hanew⟩

end Formulary
