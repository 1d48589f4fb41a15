import Formulary.Proofs.ArgumentHistory
import Mathlib.Data.List.Forall2
import Mathlib.Data.List.Perm.Subperm

namespace Formulary

namespace Bindings

variable {b c : Bindings} {name : String} {slot : Nat}

/-- Bindings that are made from none, by registering names and writing values. A copy is made in
the same way as what it copies. -/
inductive Built : Bindings → Prop
  | empty : Built {}
  | register {b : Bindings} (h : Built b) (name : String) : Built (b.register name).2
  | set {b c : Bindings} (h : Built b) (slot : Nat) (value : Float)
      (hset : b.set? slot value = some c) : Built c

theorem Built.nodup (h : Built b) : b.names.Nodup := by
  induction h with
  | empty => exact List.nodup_nil
  | register _ name ih => exact register_nodup ih name
  | set _ _ _ hset ih =>
    rw [set?_names hset]
    exact ih

theorem slot?_eq_some (h : b.names.Nodup) :
    b.slot? name = some slot ↔ b.names[slot]? = some name := by
  constructor
  · exact names_getElem?_of_slot?
  · intro hname
    obtain ⟨found, hfound⟩ := mem_names_iff.mp (List.mem_of_getElem? hname)
    have hlt : slot < b.names.length := (List.getElem?_eq_some_iff.mp hname).1
    have hslot : slot = found :=
      (List.getElem?_inj hlt h).mp (hname.trans (names_getElem?_of_slot? hfound).symm)
    rw [hfound, hslot]

/-- The slots determine the names, since no name stands at two of them. -/
theorem names_eq_iff (hb : b.names.Nodup) (hc : c.names.Nodup) :
    b.names = c.names ↔ ∀ name, b.slot? name = c.slot? name := by
  constructor
  · exact slot?_congr
  · intro hslots
    refine List.ext_getElem? fun slot => Option.ext fun name => ?_
    rw [← slot?_eq_some hb, ← slot?_eq_some hc, hslots name]

/-- The value that is bound to a name. -/
def lookup? (b : Bindings) (name : String) : Option Float := (b.slot? name).bind b.get?

/-- Numerically equal. The two zeros are, and NaN is not equal to itself. -/
def Agree (x y : Float) : Prop := (x == y) = true

theorem beq_iff_agree {xs ys : List Float} : (xs == ys) = true ↔ List.Forall₂ Agree xs ys := by
  induction xs generalizing ys with
  | nil => cases ys <;> simp
  | cons x xs ih =>
    cases ys with
    | nil => simp
    | cons y ys => simp [ih, Agree]

theorem contains_eq_true : b.contains name = true ↔ name ∈ b.names := by
  simp [contains, names]

theorem length_names (b : Bindings) : b.names.length = b.size := List.length_map _

/-- Equality leaves the order of the names open, but not that of the values. -/
theorem beq_iff_perm (hb : b.names.Nodup) :
    (b == c) = true ↔ b.names.Perm c.names ∧ List.Forall₂ Agree b.values c.values := by
  have hbeq : (b == c) = (b.size = c.size && b.names.all c.contains && b.values == c.values) := rfl
  rw [hbeq, Bool.and_eq_true, Bool.and_eq_true, decide_eq_true_iff, List.all_eq_true, beq_iff_agree]
  refine and_congr_left fun _ => ?_
  constructor
  · rintro ⟨hsize, hall⟩
    have hsub : b.names ⊆ c.names := fun name hname => contains_eq_true.mp (hall name hname)
    exact (hb.subperm hsub).perm_of_length_le (by rw [length_names, length_names, hsize])
  · intro hperm
    refine ⟨?_, fun name hname => contains_eq_true.mpr (hperm.mem_iff.mp hname)⟩
    rw [← length_names, ← length_names, hperm.length_eq]

/-- What a reader of two bindings sees: the same names at the same slots, bound to equal values. -/
structure Indistinguishable (b c : Bindings) : Prop where
  listing : List.Forall₂ (fun entry other => entry.1 = other.1 ∧ Agree entry.2 other.2)
    b.entries c.entries
  slots : ∀ name, b.slot? name = c.slot? name
  lookups : ∀ name, Option.Rel Agree (b.lookup? name) (c.lookup? name)

theorem forall₂_entries_iff {xs ys : List (String × Float)} :
    List.Forall₂ (fun entry other => entry.1 = other.1 ∧ Agree entry.2 other.2) xs ys ↔
      xs.map Prod.fst = ys.map Prod.fst ∧
        List.Forall₂ Agree (xs.map Prod.snd) (ys.map Prod.snd) := by
  induction xs generalizing ys with
  | nil => cases ys <;> simp
  | cons x xs ih =>
    cases ys with
    | nil => simp
    | cons y ys =>
      simp only [List.forall₂_cons, List.map_cons, List.cons.injEq, ih]
      tauto

theorem forall₂_getElem? {xs ys : List Float} (h : List.Forall₂ Agree xs ys) (i : Nat) :
    Option.Rel Agree xs[i]? ys[i]? := by
  induction h generalizing i with
  | nil => exact .none
  | cons hxy _ ih =>
    cases i with
    | zero => exact .some hxy
    | succ i => exact ih i

theorem indistinguishable_iff :
    b.Indistinguishable c ↔ b.names = c.names ∧ List.Forall₂ Agree b.values c.values := by
  constructor
  · intro h
    exact forall₂_entries_iff.mp h.listing
  · intro h
    obtain ⟨hnames, hvalues⟩ := h
    refine ⟨forall₂_entries_iff.mpr ⟨hnames, hvalues⟩, slot?_congr hnames, fun name => ?_⟩
    rw [lookup?, lookup?, slot?_congr hnames name]
    cases c.slot? name with
    | none => exact .none
    | some slot =>
      rw [Option.bind_some, Option.bind_some, get?_eq_values, get?_eq_values]
      exact forall₂_getElem? hvalues slot

/-- Equality forgets the order of the names. Where that is the same, equal bindings are
indistinguishable. -/
theorem Built.beq_forgets_order (hb : b.Built) (hc : c.Built) :
    ((b == c) = true ↔ b.names.Perm c.names ∧ List.Forall₂ Agree b.values c.values) ∧
      (b.Indistinguishable c ↔ (b == c) = true ∧ ∀ name, b.slot? name = c.slot? name) := by
  have hbeq : (b == c) = true ↔ b.names.Perm c.names ∧ List.Forall₂ Agree b.values c.values :=
    beq_iff_perm hb.nodup
  refine ⟨hbeq, ?_⟩
  rw [indistinguishable_iff, hbeq, ← names_eq_iff hb.nodup hc.nodup]
  constructor
  · intro h
    obtain ⟨hnames, hvalues⟩ := h
    exact ⟨⟨List.Perm.of_eq hnames, hvalues⟩, hnames⟩
  · intro h
    obtain ⟨⟨_, hvalues⟩, hnames⟩ := h
    exact ⟨hnames, hvalues⟩

theorem Built.pair {first second : String} (hne : first ≠ second) (x y : Float) :
    Built ⟨[(first, x), (second, y)]⟩ := by
  have hzeros : ((({} : Bindings).register first).2.register second).2 =
      ⟨[(first, 0), (second, 0)]⟩ := by
    simp [Bindings.register, slot?, hne]
  have hbuilt := (Built.empty.register first).register second
  rw [hzeros] at hbuilt
  have hfirst : Built ⟨[(first, x), (second, 0)]⟩ := hbuilt.set 0 x rfl
  exact hfirst.set 1 y rfl

theorem signedZeros_indistinguishable :
    Built ⟨[("x", 0), ("y", 2)]⟩ ∧ Built ⟨[("x", -0), ("y", 2)]⟩ ∧
      Indistinguishable ⟨[("x", 0), ("y", 2)]⟩ ⟨[("x", -0), ("y", 2)]⟩ := by
  have hplus : Built ⟨[("x", 0), ("y", 2)]⟩ := .pair (by decide) 0 2
  have hminus : Built ⟨[("x", -0), ("y", 2)]⟩ := .pair (by decide) (-0) 2
  refine ⟨hplus, hminus, (hplus.beq_forgets_order hminus).2.mpr ⟨?_, slot?_congr rfl⟩⟩
  decide +kernel

/-- The values stand in the order in which the names were registered. -/
theorem equal_not_indistinguishable :
    ∃ b c : Bindings, b.Built ∧ c.Built ∧ (b == c) = true ∧
      b.lookup? "x" = some 1 ∧ c.lookup? "x" = some 2 ∧ ¬b.Indistinguishable c := by
  refine ⟨⟨[("x", 1), ("y", 2)]⟩, ⟨[("y", 1), ("x", 2)]⟩, .pair (by decide) 1 2,
    .pair (by decide) 1 2, by decide +kernel, rfl, rfl, fun h => ?_⟩
  have hslots := h.slots "x"
  revert hslots
  decide

end Bindings

end Formulary
