import Formulary.Columns
import Formulary.Proofs.BindingsEquality

namespace Formulary

/-- A way to keep arguments: no arguments, the slot of a name, which is registered if it has none,
and the writing of a value, with whether there is such a slot. -/
structure Keeping (α : Type) where
  empty : α
  register : α → String → Nat × α
  set : α → Nat → Float → Bool × α

/-- A step of work on several tables: a change of one of them, or a copy of one. -/
inductive TableMove where
  | register (table : Nat) (name : String)
  | set (table slot : Nat) (value : Float)
  | copy (table : Nat)

/-- The table that a step changes. -/
def TableMove.changed? : TableMove → Option Nat
  | .register i _ => some i
  | .set i _ _ => some i
  | .copy _ => none

namespace Keeping

section Run

variable {α β : Type} {kind : Keeping α} {ts : List α} {t : α} {i : Nat} {m : TableMove}
  {moves : List TableMove}

/-- A copy comes last. -/
def move (kind : Keeping α) (ts : List α) : TableMove → List α
  | .register i name => ts.modify i fun t => (kind.register t name).2
  | .set i slot value => ts.modify i fun t => (kind.set t slot value).2
  | .copy i => ts ++ ts[i]?.toList

/-- The tables after some steps, an empty one alone before. -/
def run (kind : Keeping α) (moves : List TableMove) : List α := moves.foldl kind.move [kind.empty]

theorem run_concat (kind : Keeping α) (moves : List TableMove) (m : TableMove) :
    kind.run (moves ++ [m]) = kind.move (kind.run moves) m := by
  rw [run, run, List.foldl_append]
  rfl

theorem move_of_ne (ht : ts[i]? = some t) (h : m.changed? ≠ some i) :
    (kind.move ts m)[i]? = some t := by
  have hmodify : ∀ (j : Nat) (f : α → α), j ≠ i → (ts.modify j f)[i]? = some t := by
    intro j f hne
    rw [List.getElem?_modify, ht]
    exact congrArg some (if_neg hne)
  cases m with
  | register j name => exact hmodify j _ fun hsame => h (congrArg some hsame)
  | set j slot value => exact hmodify j _ fun hsame => h (congrArg some hsame)
  | copy j =>
    have hlt := (List.getElem?_eq_some_iff.mp ht).1
    exact (List.getElem?_append_left hlt).trans ht

theorem move_copy (ht : ts[i]? = some t) : (kind.move ts (.copy i)).getLast? = some t := by
  rw [move, ht]
  exact List.getLast?_concat

/-- A relation that every change of a table respects, between what it was and what it is. -/
structure Respects (kind : Keeping α) (R : α → α → Prop) : Prop where
  refl : ∀ t, R t t
  trans : ∀ {t u v}, R t u → R u v → R t v
  register : ∀ t name, R t (kind.register t name).2
  set : ∀ t slot value, R t (kind.set t slot value).2

theorem Respects.move {R : α → α → Prop} (h : kind.Respects R) (ht : ts[i]? = some t)
    (m : TableMove) : ∃ u, (kind.move ts m)[i]? = some u ∧ R t u := by
  have hmodify : ∀ (j : Nat) (f : α → α), (∀ t, R t (f t)) →
      ∃ u, (ts.modify j f)[i]? = some u ∧ R t u := by
    intro j f hf
    rw [List.getElem?_modify, ht]
    refine ⟨_, rfl, ?_⟩
    split
    · exact hf t
    · exact h.refl t
  cases m with
  | register j name => exact hmodify j _ fun t => h.register t name
  | set j slot value => exact hmodify j _ fun t => h.set t slot value
  | copy j =>
    have hlt := (List.getElem?_eq_some_iff.mp ht).1
    exact ⟨t, (List.getElem?_append_left hlt).trans ht, h.refl t⟩

/-- By induction on the steps: a table stays at its place and is related to what it becomes. -/
theorem Respects.run {R : α → α → Prop} (h : kind.Respects R)
    (ht : (kind.run moves)[i]? = some t) (later : List TableMove) :
    ∃ u, (kind.run (moves ++ later))[i]? = some u ∧ R t u := by
  induction later using List.reverseRecOn with
  | nil => exact ⟨t, by rwa [List.append_nil], h.refl t⟩
  | append_singleton later m ih =>
    obtain ⟨u, hu, htu⟩ := ih
    obtain ⟨v, hv, huv⟩ := h.move hu m
    rw [← List.append_assoc, run_concat]
    exact ⟨v, hv, h.trans htu huv⟩

theorem move_forall {P : α → Prop} (h : ∀ t ∈ ts, P t)
    (hregister : ∀ t name, P t → P (kind.register t name).2)
    (hset : ∀ t slot value, P t → P (kind.set t slot value).2) (m : TableMove) :
    ∀ t ∈ kind.move ts m, P t := by
  cases m with
  | register j name => exact forall_mem_modify h (fun t => hregister t name) j
  | set j slot value => exact forall_mem_modify h (fun t => hset t slot value) j
  | copy j => exact forall_mem_copy h j

theorem run_forall {P : α → Prop} (hempty : P kind.empty)
    (hregister : ∀ t name, P t → P (kind.register t name).2)
    (hset : ∀ t slot value, P t → P (kind.set t slot value).2) (moves : List TableMove) :
    ∀ t ∈ kind.run moves, P t := by
  induction moves using List.reverseRecOn with
  | nil => exact List.forall_mem_singleton.mpr hempty
  | append_singleton moves m ih =>
    rw [run_concat]
    exact move_forall ih hregister hset m

theorem map_modify_of_mem {f : α → β} {g : α → α} {h : β → β} (hf : ∀ t ∈ ts, f (g t) = h (f t))
    (i : Nat) : (ts.modify i g).map f = (ts.map f).modify i h := by
  refine List.ext_getElem? fun j => ?_
  rw [List.getElem?_map, List.getElem?_modify, List.getElem?_modify, List.getElem?_map]
  cases ht : ts[j]? with
  | none => rfl
  | some t =>
    have hstep := hf t (List.mem_of_getElem? ht)
    simp only [Option.map_some]
    split
    · exact congrArg some hstep
    · rfl

/-- Where the changes of a table are those of its image, the same steps lead to the images. -/
theorem move_map {other : Keeping β} {f : α → β}
    (hregister : ∀ t ∈ ts, ∀ name, f (kind.register t name).2 = (other.register (f t) name).2)
    (hset : ∀ t ∈ ts, ∀ slot value,
      f (kind.set t slot value).2 = (other.set (f t) slot value).2) (m : TableMove) :
    (kind.move ts m).map f = other.move (ts.map f) m := by
  cases m with
  | register j name => exact map_modify_of_mem (fun t ht => hregister t ht name) j
  | set j slot value => exact map_modify_of_mem (fun t ht => hset t ht slot value) j
  | copy j =>
    rw [move, move, List.map_append, List.getElem?_map]
    cases ts[j]? <;> rfl

end Run

end Keeping

def Columns.keeping (S : IndexSet) : Keeping (Columns S) := ⟨{}, register, set⟩

/-- The bindings with another value at a slot, and whether there is such a slot. -/
def Bindings.write (b : Bindings) (slot : Nat) (value : Float) : Bool × Bindings :=
  match b.set? slot value with
  | some c => (true, c)
  | none => (false, b)

def Bindings.keeping : Keeping Bindings := ⟨{}, register, write⟩

theorem Bindings.built_of_run {moves : List TableMove} :
    ∀ b ∈ Bindings.keeping.run moves, b.Built := by
  refine Keeping.run_forall .empty (fun _ name h => h.register name) ?_ moves
  intro b slot value h
  change (b.write slot value).2.Built
  rw [write]
  cases hset : b.set? slot value with
  | some c => exact h.set slot value hset
  | none => exact h

namespace Columns

variable {S : IndexSet} {t u : Columns S} {name : String} {slot : Nat} {value : Float}

/-- The two columns fit together, and no name is in them twice. -/
structure Aligned (t : Columns S) : Prop where
  distinct : t.names.Nodup
  length : t.values.length = t.names.length

theorem slot?_eq (t : Columns S) (name : String) : t.slot? name = t.names.idxOf? name :=
  S.indexOf?_eq t.index name

theorem slot?_eq_none : t.slot? name = none ↔ name ∉ t.names := by
  rw [slot?_eq, List.idxOf?_eq_none_iff]

theorem register_known (h : t.slot? name = some slot) : t.register name = (slot, t) := by
  rw [register, h]

theorem register_new (h : t.slot? name = none) : ∃ u : Columns S,
    t.register name = (t.names.length, u) ∧ u.names = t.names ++ [name] ∧
      u.values = t.values ++ [0] := by
  obtain ⟨hslot, hnames⟩ := S.insert_new t.index name h
  refine ⟨⟨(S.insert t.index name).2, t.values ++ [0]⟩, ?_, hnames, rfl⟩
  rw [register, h]
  exact congrArg (·, _) hslot

theorem set_slot (h : slot < t.size) (value : Float) :
    t.set slot value = (true, ⟨t.index, t.values.set slot value⟩) := if_pos h

theorem set_beyond (h : t.size ≤ slot) (value : Float) : t.set slot value = (false, t) :=
  if_neg (Nat.not_lt.mpr h)

theorem set_names (t : Columns S) (slot : Nat) (value : Float) :
    (t.set slot value).2.names = t.names := by
  rw [set]
  split <;> rfl

theorem Aligned.empty : Aligned (Columns.mk S.empty []) := by
  have hnames : (Columns.mk S.empty []).names = [] := S.names_empty
  constructor
  · rw [hnames]
    exact List.nodup_nil
  · rw [hnames]
    rfl

theorem Aligned.register (h : t.Aligned) (name : String) : (t.register name).2.Aligned := by
  cases hslot : t.slot? name with
  | some slot =>
    rw [register_known hslot]
    exact h
  | none =>
    obtain ⟨u, hregister, hnames, hvalues⟩ := register_new hslot
    rw [hregister]
    constructor
    · rw [hnames]
      exact List.nodup_append.mpr ⟨h.distinct, List.nodup_singleton name, fun x hx y hy hxy =>
        slot?_eq_none.mp hslot (List.mem_singleton.mp hy ▸ hxy ▸ hx)⟩
    · rw [hnames, hvalues, List.length_append, List.length_append, h.length]
      rfl

theorem Aligned.set (h : t.Aligned) (slot : Nat) (value : Float) :
    (t.set slot value).2.Aligned := by
  by_cases hslot : slot < t.size
  · rw [set_slot hslot]
    exact ⟨h.distinct, (List.length_set ..).trans h.length⟩
  · rw [set_beyond (Nat.not_lt.mp hslot)]
    exact h

theorem aligned_of_run {moves : List TableMove} : ∀ t ∈ (keeping S).run moves, t.Aligned :=
  Keeping.run_forall .empty (fun _ name h => h.register name)
    (fun _ slot value h => h.set slot value) moves

/-- The same arguments, each name beside its value. -/
def bindings (t : Columns S) : Bindings := ⟨t.entries⟩

theorem Aligned.bindings_names (h : t.Aligned) : t.bindings.names = t.names :=
  List.map_fst_zip (Nat.le_of_eq h.length.symm)

theorem Aligned.bindings_values (h : t.Aligned) : t.bindings.values = t.values :=
  List.map_snd_zip (Nat.le_of_eq h.length)

theorem Aligned.bindings_size (h : t.Aligned) : t.bindings.size = t.size := by
  rw [← Bindings.length_names, h.bindings_names, ← h.length]
  rfl

theorem Aligned.bindings_slot? (h : t.Aligned) (name : String) :
    t.bindings.slot? name = t.slot? name := by
  rw [Bindings.slot?_eq_idxOf?, h.bindings_names, slot?_eq]

theorem Aligned.slot?_eq_some (h : t.Aligned) :
    t.slot? name = some slot ↔ t.names[slot]? = some name := by
  have hdistinct : t.bindings.names.Nodup := by
    rw [h.bindings_names]
    exact h.distinct
  rw [← h.bindings_slot?, Bindings.slot?_eq_some hdistinct, h.bindings_names]

theorem contains_eq (t : Columns S) (name : String) : t.contains name = (t.slot? name).isSome := by
  have hcontains : t.contains name = t.names.contains name := S.contains_eq t.index name
  rw [hcontains, slot?_eq, Bool.eq_iff_iff, List.isSome_idxOf?, List.contains_iff_mem]

theorem entries_getElem? : t.entries[slot]? = some (name, value) ↔
    t.names[slot]? = some name ∧ t.get? slot = some value :=
  List.getElem?_zip_eq_some

theorem Aligned.register_bindings (h : t.Aligned) (name : String) :
    t.bindings.register name = Prod.map id bindings (t.register name) := by
  rw [Bindings.register, h.bindings_slot?]
  cases hslot : t.slot? name with
  | some slot => rw [register_known hslot]; rfl
  | none =>
    obtain ⟨u, hregister, hnames, hvalues⟩ := register_new hslot
    have hentries : u.entries = t.entries ++ [(name, 0)] := by
      rw [entries, hnames, hvalues, List.zip_append h.length.symm]
      rfl
    have hsize : t.bindings.size = t.names.length := h.bindings_size.trans h.length
    rw [hregister]
    exact Prod.ext hsize (congrArg Bindings.mk hentries.symm)

theorem zip_set (names : List String) (values : List Float) (slot : Nat) (value : Float) :
    names.zip (values.set slot value) =
      (names.zip values).modify slot fun entry => (entry.1, value) := by
  induction names generalizing values slot with
  | nil => simp
  | cons name names ih =>
    cases values with
    | nil => simp
    | cons first values =>
      cases slot with
      | zero => rfl
      | succ slot => exact congrArg ((name, first) :: ·) (ih values slot)

theorem Aligned.set_bindings (h : t.Aligned) (slot : Nat) (value : Float) :
    t.bindings.write slot value = Prod.map id bindings (t.set slot value) := by
  have hsize := h.bindings_size
  by_cases hslot : slot < t.size
  · have hset : t.bindings.set? slot value =
        some ⟨t.bindings.entries.modify slot fun entry => (entry.1, value)⟩ :=
      if_pos (hsize ▸ hslot)
    have hentries : (Columns.mk t.index (t.values.set slot value)).entries =
        t.entries.modify slot fun entry => (entry.1, value) := zip_set t.names t.values slot value
    rw [Bindings.write, hset, set_slot hslot]
    exact congrArg (fun entries => (true, Bindings.mk entries)) hentries.symm
  · have hset : t.bindings.set? slot value = none := if_neg (hsize ▸ hslot)
    rw [Bindings.write, hset, set_beyond (Nat.not_lt.mp hslot)]
    rfl

/-- The columns and the bindings go through the same states. -/
theorem run_bindings (moves : List TableMove) :
    ((keeping S).run moves).map bindings = Bindings.keeping.run moves := by
  induction moves using List.reverseRecOn with
  | nil =>
    have hnames : (Columns.mk S.empty []).names = [] := S.names_empty
    show [Bindings.mk ((Columns.mk S.empty []).names.zip [])] = [{}]
    rw [hnames]
    rfl
  | append_singleton moves m ih =>
    rw [Keeping.run_concat, Keeping.run_concat, ← ih]
    refine Keeping.move_map (fun t ht name => ?_) (fun t ht slot value => ?_) m
    · exact congrArg Prod.snd ((aligned_of_run t ht).register_bindings name).symm
    · exact congrArg Prod.snd ((aligned_of_run t ht).set_bindings slot value).symm

/-- Two tables are equal when the bindings with the same arguments are. -/
theorem Aligned.beq_bindings (ht : t.Aligned) (hu : u.Aligned) :
    (t == u) = (t.bindings == u.bindings) := by
  have hindex : S.beq t.index u.index = true ↔ t.names.Perm u.names := by
    have hperm := List.perm_ext_iff_of_nodup ht.distinct hu.distinct
    exact (S.beq_iff t.index u.index).trans hperm.symm
  have hdistinct : t.bindings.names.Nodup := by
    rw [ht.bindings_names]
    exact ht.distinct
  have hbindings := Bindings.beq_iff_perm (c := u.bindings) hdistinct
  rw [ht.bindings_names, hu.bindings_names, ht.bindings_values, hu.bindings_values] at hbindings
  have hcolumns : (t == u) = (S.beq t.index u.index && t.values == u.values) := rfl
  rw [Bool.eq_iff_iff, hbindings, hcolumns, Bool.and_eq_true, hindex, Bindings.beq_iff_agree]

/-- A later state of the same table: it has the slots of the earlier one, and maybe more. -/
theorem names_respected : (keeping S).Respects fun t u => t.names <+: u.names where
  refl t := List.prefix_refl _
  trans htu huv := htu.trans huv
  register t name := by
    cases hslot : t.slot? name with
    | some slot =>
      have hsame : (t.register name).2 = t := congrArg Prod.snd (register_known hslot)
      exact ⟨[], (List.append_nil _).trans (congrArg names hsame.symm)⟩
    | none =>
      obtain ⟨u, hregister, hnames, _⟩ := register_new hslot
      have hnew : (t.register name).2 = u := congrArg Prod.snd hregister
      exact ⟨[name], hnames.symm.trans (congrArg names hnew.symm)⟩
  set t slot value := ⟨[], (List.append_nil _).trans (set_names t slot value).symm⟩

theorem Aligned.slot?_of_prefix (ht : t.Aligned) (hu : u.Aligned) (h : t.names <+: u.names)
    (hslot : t.slot? name = some slot) : u.slot? name = some slot := by
  obtain ⟨later, hlater⟩ := h
  have hname := ht.slot?_eq_some.mp hslot
  have hlt := (List.getElem?_eq_some_iff.mp hname).1
  rw [hu.slot?_eq_some, ← hlater, List.getElem?_append_left hlt, hname]

/-- What holds of a table at any time, and what its operations do with it. -/
structure Sound (t : Columns S) : Prop extends t.Aligned where
  slots : ∀ name slot, t.slot? name = some slot ↔ t.names[slot]? = some name
  contained : ∀ name, t.contains name = (t.slot? name).isSome
  listed : t.entries.length = t.size ∧ ∀ slot name value, t.entries[slot]? = some (name, value) ↔
    t.names[slot]? = some name ∧ t.get? slot = some value
  known : ∀ name slot, t.slot? name = some slot → t.register name = (slot, t)
  added : ∀ name, t.slot? name = none → ∃ u : Columns S, t.register name = (t.size, u) ∧
    u.names = t.names ++ [name] ∧ u.values = t.values ++ [0]
  written : ∀ slot value, slot < t.size → ∃ u : Columns S, t.set slot value = (true, u) ∧
    u.names = t.names ∧ ∀ i, u.get? i = if i = slot then some value else t.get? i
  beyond : ∀ slot value, t.size ≤ slot → t.set slot value = (false, t)

theorem Aligned.sound (h : t.Aligned) : t.Sound where
  toAligned := h
  slots _ _ := h.slot?_eq_some
  contained := t.contains_eq
  listed := by
    refine ⟨?_, fun _ _ _ => entries_getElem?⟩
    rw [entries, List.length_zip, ← h.length, Nat.min_self]
    rfl
  known _ _ := register_known
  added name hslot := by
    obtain ⟨u, hregister, hcolumns⟩ := register_new hslot
    rw [← h.length] at hregister
    exact ⟨u, hregister, hcolumns⟩
  written slot value hslot := by
    refine ⟨_, set_slot hslot value, rfl, fun i => ?_⟩
    show (t.values.set slot value)[i]? = _
    rw [List.getElem?_set]
    by_cases hi : slot = i
    · subst hi
      rw [if_pos rfl, if_pos rfl]
      exact if_pos hslot
    · rw [if_neg hi, if_neg (Ne.symm hi)]
      rfl
  beyond _ value hslot := set_beyond hslot value

/-- Bindings that answer as the columns do. -/
structure Mirrors (t : Columns S) (b : Bindings) : Prop where
  entries : b.entries = t.entries
  slot? : ∀ name, b.slot? name = t.slot? name
  contains : ∀ name, b.contains name = t.contains name
  get? : ∀ slot, b.get? slot = t.get? slot
  register : ∀ name, b.register name = Prod.map id bindings (t.register name)
  write : ∀ slot value, b.write slot value = Prod.map id bindings (t.set slot value)

theorem Aligned.mirrors (h : t.Aligned) : t.Mirrors t.bindings where
  entries := rfl
  slot? := h.bindings_slot?
  contains name := by
    rw [contains_eq, Bool.eq_iff_iff, Bindings.contains_eq_true, h.bindings_names,
      Option.isSome_iff_ne_none, ne_eq, slot?_eq_none, not_not]
  get? slot := by
    rw [Bindings.get?_eq_values, h.bindings_values]
    rfl
  register := h.register_bindings
  write := h.set_bindings

/-- Tables that begin with an empty one and are changed and copied in any order: at any time each
one is sound, and the bindings that a formula keeps are in the same state and answer alike, also
when two of them are compared. Names keep their slots through all later steps, and a step changes
no other table than its own, a copy included. -/
theorem tables_sound (S : IndexSet) (moves : List TableMove) :
    ((keeping S).run moves).map bindings = Bindings.keeping.run moves ∧
      (∀ t ∈ (keeping S).run moves, t.bindings.Built ∧
        ∀ u ∈ (keeping S).run moves, (t == u) = (t.bindings == u.bindings)) ∧
      ∀ i t, ((keeping S).run moves)[i]? = some t → t.Sound ∧ t.Mirrors t.bindings ∧
        (∀ later, ∃ u, ((keeping S).run (moves ++ later))[i]? = some u ∧ t.names <+: u.names ∧
          ∀ name slot, t.slot? name = some slot → u.slot? name = some slot) ∧
        (∀ m, m.changed? ≠ some i → ((keeping S).run (moves ++ [m]))[i]? = some t) ∧
        ((keeping S).run (moves ++ [.copy i])).getLast? = some t := by
  refine ⟨run_bindings moves, fun t ht => ⟨?_, fun u hu => ?_⟩, fun i t ht => ?_⟩
  · have hmem : t.bindings ∈ Bindings.keeping.run moves := by
      rw [← run_bindings]
      exact List.mem_map_of_mem ht
    exact Bindings.built_of_run _ hmem
  · exact (aligned_of_run t ht).beq_bindings (aligned_of_run u hu)
  have haligned := aligned_of_run t (List.mem_of_getElem? ht)
  refine ⟨haligned.sound, haligned.mirrors, fun later => ?_, fun m hm => ?_, ?_⟩
  · obtain ⟨u, hu, hprefix⟩ := names_respected.run ht later
    have hlater := aligned_of_run u (List.mem_of_getElem? hu)
    exact ⟨u, hu, hprefix, fun name slot => haligned.slot?_of_prefix hlater hprefix⟩
  · rw [Keeping.run_concat]
    exact Keeping.move_of_ne ht hm
  · rw [Keeping.run_concat]
    exact Keeping.move_copy ht

/-- What is done to a copy. -/
def copyMoves : List TableMove := [.register 0 "a", .copy 0, .set 1 0 9, .register 1 "b"]

/-- The original has neither the name nor the value of its copy. -/
theorem copyMoves_sound :
    ((keeping .lists).run copyMoves)[0]? = some ⟨["a"], [0]⟩ ∧
      ((keeping .lists).run copyMoves)[1]? = some ⟨["a", "b"], [9, 0]⟩ ∧
      Sound (Columns.mk (S := .lists) ["a", "b"] [9, 0]) ∧
      Bindings.keeping.run copyMoves = [⟨[("a", 0)]⟩, ⟨[("a", 9), ("b", 0)]⟩] ∧
      ∃ u, ((keeping .lists).run (copyMoves ++ [.register 1 "c"]))[1]? = some u ∧
        u.slot? "b" = some 1 := by
  obtain ⟨hbindings, _, htables⟩ := tables_sound .lists copyMoves
  have hcopy : ((keeping .lists).run copyMoves)[1]? = some ⟨["a", "b"], [9, 0]⟩ := rfl
  obtain ⟨hsound, _, hlater, _⟩ := htables 1 _ hcopy
  obtain ⟨u, hu, _, hslots⟩ := hlater [.register 1 "c"]
  exact ⟨rfl, hcopy, hsound, hbindings.symm.trans rfl, u, hu, hslots "b" 1 rfl⟩

end Columns

end Formulary
