import Formulary.Proofs.CommandFrame
import Formulary.Proofs.CompiledAgreement

namespace Formulary

namespace Bindings

variable {b c : Bindings} {name other : String} {slot : Nat} {value : Float}

theorem mem_names_iff : name ∈ b.names ↔ ∃ slot, b.slot? name = some slot := by
  rw [← Option.isSome_iff_exists, ← not_iff_not, ← slot?_eq_none, Option.not_isSome_iff_eq_none]

theorem slot?_congr (h : b.names = c.names) (name : String) : b.slot? name = c.slot? name := by
  rw [slot?_eq_idxOf?, slot?_eq_idxOf?, h]

/-- No two names have the same slot. -/
theorem slot?_inj (h : b.slot? name = some slot) (h' : b.slot? other = some slot) :
    name = other := by
  obtain ⟨_, hname⟩ := getElem_of_slot? h
  obtain ⟨_, hother⟩ := getElem_of_slot? h'
  exact hname.symm.trans hother

theorem get?_eq_values (b : Bindings) (slot : Nat) : b.get? slot = b.values[slot]? :=
  List.getElem?_map.symm

/-- The slot that is written holds the value, and all others hold what they held. -/
theorem set?_get? (h : b.set? slot value = some c) (i : Nat) :
    c.get? i = if slot = i then some value else b.get? i := by
  obtain ⟨hlt, rfl⟩ := set?_eq_some.mp h
  rw [get?, get?, List.getElem?_modify]
  by_cases hi : slot = i
  · subst hi
    simp [show b.entries[slot]? = some b.entries[slot] from List.getElem?_eq_getElem hlt]
  · simp [hi]

theorem set?_values (h : b.set? slot value = some c) {v : Float} (hv : v ∈ c.values) :
    v = value ∨ v ∈ b.values := by
  obtain ⟨i, hi⟩ := List.mem_iff_getElem?.mp hv
  rw [← get?_eq_values, set?_get? h i] at hi
  split at hi
  · exact Or.inl (Option.some.inj hi).symm
  · rw [get?_eq_values] at hi
    exact Or.inr (List.mem_of_getElem? hi)

theorem get?_mem (h : b.get? slot = some value) : value ∈ b.values := by
  rw [get?_eq_values] at h
  exact List.mem_of_getElem? h

end Bindings

namespace Formula

variable {f g : Formula} {name : String} {value : Float}

theorem assign_unknown (h : name ∉ f.arguments.names) (value : Float) :
    f.assign name value = .error (.unknownArgument name) := by
  rw [assign, Bindings.slot?_eq_none.mpr h]

theorem assign_nan (h : name ∈ f.arguments.names) (hv : value.isNaN = true) :
    f.assign name value = .error (.notANumber name) := by
  obtain ⟨slot, hs⟩ := Bindings.mem_names_iff.mp h
  rw [assign, hs]
  exact if_pos hv

theorem assign_number (h : name ∈ f.arguments.names) (hv : value.isNaN = false) :
    ∃ g, f.assign name value = .ok g := by
  obtain ⟨slot, hs⟩ := Bindings.mem_names_iff.mp h
  rw [assign, hs]
  exact ⟨_, if_neg (Bool.eq_false_iff.mp hv)⟩

/-- An assignment that succeeds writes a number at the slot of the name, and nothing else. -/
theorem assign_set? (h : f.assign name value = .ok g) :
    value.isNaN = false ∧ ∃ slot arguments, f.arguments.slot? name = some slot ∧
      f.arguments.set? slot value = some arguments ∧ g = { f with arguments } := by
  unfold assign at h
  cases hs : f.arguments.slot? name with
  | none => simp [hs] at h
  | some slot =>
    simp only [hs] at h
    split at h
    · cases h
    next hv =>
      obtain ⟨hlt, _⟩ := Bindings.getElem_of_slot? hs
      have hset : f.arguments.set? slot value =
          some ⟨f.arguments.entries.modify slot fun entry => (entry.1, value)⟩ :=
        Bindings.set?_eq_some.mpr ⟨hlt, rfl⟩
      rw [hset] at h
      exact ⟨by simpa using hv, slot, _, rfl, hset, (Except.ok.inj h).symm⟩

theorem assign_argument? (h : f.assign name value = .ok g) (other : String) :
    g.argument? other = if other = name then some value else f.argument? other := by
  obtain ⟨_, slot, arguments, hs, hset, rfl⟩ := assign_set? h
  have hslots := Bindings.slot?_congr (Bindings.set?_names hset) other
  show (arguments.slot? other).bind arguments.get? = _
  rw [hslots, argument?]
  by_cases hn : other = name
  · subst hn
    rw [if_pos rfl, hs, Option.bind_some, Bindings.set?_get? hset, if_pos rfl]
  · rw [if_neg hn]
    cases ho : f.arguments.slot? other with
    | none => rfl
    | some i =>
      have hi : slot ≠ i := by
        rintro rfl
        exact hn (Bindings.slot?_inj ho hs)
      rw [Option.bind_some, Option.bind_some, Bindings.set?_get? hset, if_neg hi]

theorem argument?_eq_none (h : name ∉ f.arguments.names) : f.argument? name = none := by
  rw [argument?, Bindings.slot?_eq_none.mpr h]
  rfl

theorem argument?_mem (h : name ∈ f.arguments.names) :
    ∃ v ∈ f.arguments.values, f.argument? name = some v := by
  obtain ⟨slot, hs⟩ := Bindings.mem_names_iff.mp h
  obtain ⟨hlt, _⟩ := Bindings.getElem_of_slot? hs
  have hget : f.arguments.get? slot = some f.arguments.entries[slot].2 := by
    rw [Bindings.get?, List.getElem?_eq_getElem hlt]
    rfl
  refine ⟨_, Bindings.get?_mem hget, ?_⟩
  rw [argument?, hs, Option.bind_some, hget]

end Formula

theorem forall_mem_modify {α : Type} {P : α → Prop} {ts : List α} (h : ∀ t ∈ ts, P t)
    {g : α → α} (hg : ∀ t, P t → P (g t)) (i : Nat) : ∀ t ∈ ts.modify i g, P t := by
  intro t ht
  obtain ⟨j, hj⟩ := List.mem_iff_getElem?.mp ht
  rw [List.getElem?_modify] at hj
  obtain ⟨u, hu, rfl⟩ := Option.map_eq_some_iff.mp hj
  have hu := h u (List.mem_of_getElem? hu)
  split
  · exact hg u hu
  · exact hu

theorem forall_mem_copy {α : Type} {P : α → Prop} {ts : List α} (h : ∀ t ∈ ts, P t) (i : Nat) :
    ∀ t ∈ ts ++ ts[i]?.toList, P t := by
  refine List.forall_mem_append.mpr ⟨h, fun t ht => ?_⟩
  rw [Option.mem_toList] at ht
  exact h t (List.mem_of_getElem? ht)

/-- What may be done to a formula once it is parsed. -/
inductive Operation where
  | assign (name : String) (value : Float)
  | compile
  | value
  | compiledValue
  | apply (values : List Float)

/-- The result of an operation, with a number if that is what it asks for, and the formula after
it. -/
def Formula.perform (f : Formula) : Operation → Except Error (Option Float) × Formula
  | .assign name value =>
    match f.assign name value with
    | .ok g => (.ok none, g)
    | .error error => (.error error, f)
  | .compile => (.ok none, f.compile)
  | .value => (.ok (some f.value), f)
  | .compiledValue => (f.compiledValue.map some, f)
  | .apply values => ((f.apply values).map some, f)

/-- A formula with all that was done to it and the results, the oldest first. -/
structure Tracked where
  formula : Formula
  log : List (Operation × Except Error (Option Float)) := []

/-- A step of work on several formulas: an operation on one of them, or a copy of one. -/
inductive Move where
  | operate (index : Nat) (operation : Operation)
  | copy (index : Nat)

namespace Tracked

def operate (t : Tracked) (operation : Operation) : Tracked :=
  ⟨(t.formula.perform operation).2, t.log ++ [(operation, (t.formula.perform operation).1)]⟩

/-- A copy comes last, with the log of its original. -/
def move (ts : List Tracked) : Move → List Tracked
  | .operate index operation => ts.modify index fun t => t.operate operation
  | .copy index => ts ++ ts[index]?.toList

/-- The formulas after some steps, the first of them alone before. -/
def run (f : Formula) (moves : List Move) : List Tracked := moves.foldl move [⟨f, []⟩]

/-- The value that an entry of the log gave to an argument. -/
def assigned? (name : String) : Operation × Except Error (Option Float) → Option Float
  | (.assign other value, .ok _) => if other = name then some value else none
  | _ => none

/-- The value that was given to an argument by the last assignment that succeeded. -/
def lastAssigned? (t : Tracked) (name : String) : Option Float :=
  t.log.reverse.findSome? (assigned? name)

/-- What holds of every formula that began as `f`, whose arguments were all zero. -/
structure Follows (f : Formula) (t : Tracked) : Prop where
  names : t.formula.arguments.names = f.arguments.names
  count : t.formula.argumentCount = f.argumentCount
  numbers : ∀ v ∈ t.formula.arguments.values, v.isNaN = false
  last : ∀ name ∈ f.arguments.names,
    t.formula.argument? name = some ((t.lastAssigned? name).getD 0)

variable {f : Formula} {t : Tracked}

/-- No operation counts the arguments anew. -/
theorem perform_argumentCount (f : Formula) (operation : Operation) :
    (f.perform operation).2.argumentCount = f.argumentCount := by
  cases operation with
  | assign name value =>
    rw [Formula.perform]
    cases ha : f.assign name value with
    | ok g =>
      obtain ⟨_, _, arguments, _, _, rfl⟩ := Formula.assign_set? ha
      rfl
    | error error => rfl
  | compile => exact f.toBody.compile_argumentCount
  | value | compiledValue | apply => rfl

theorem lastAssigned?_operate (t : Tracked) (operation : Operation) (name : String) :
    (t.operate operation).lastAssigned? name =
      (assigned? name (operation, (t.formula.perform operation).1)).or (t.lastAssigned? name) := by
  rw [lastAssigned?, operate, List.reverse_concat, List.findSome?_cons, lastAssigned?]
  cases assigned? name (operation, (t.formula.perform operation).1) <;> rfl

/-- An operation that leaves the bindings as they are, and assigns nothing, keeps what holds. -/
theorem Follows.of_arguments {operation : Operation} (h : t.Follows f)
    (ha : (t.formula.perform operation).2.arguments = t.formula.arguments)
    (hn : ∀ name, assigned? name (operation, (t.formula.perform operation).1) = none) :
    (t.operate operation).Follows f where
  names := (congrArg Bindings.names ha).trans h.names
  count := (perform_argumentCount t.formula operation).trans h.count
  numbers v hv := h.numbers v (by rwa [← ha])
  last name hname := by
    rw [lastAssigned?_operate, hn, Option.none_or, ← h.last name hname, Formula.argument?,
      Formula.argument?]
    exact congrArg (fun b : Bindings => (b.slot? name).bind b.get?) ha

theorem Follows.assign {name : String} {value : Float} {g : Formula} (h : t.Follows f)
    (ha : t.formula.assign name value = .ok g) : (t.operate (.assign name value)).Follows f := by
  have hperform : t.formula.perform (.assign name value) = (.ok none, g) := by
    rw [Formula.perform, ha]
  obtain ⟨hv, slot, arguments, _, hset, hg⟩ := Formula.assign_set? ha
  have hformula : (t.operate (.assign name value)).formula = g := by rw [operate, hperform]
  have hcount := perform_argumentCount t.formula (.assign name value)
  refine ⟨?_, hcount.trans h.count, fun v hmem => ?_, fun other hother => ?_⟩
  · rw [hformula, hg]
    exact (Bindings.set?_names hset).trans h.names
  · rw [hformula, hg] at hmem
    rcases Bindings.set?_values hset hmem with rfl | hmem
    · exact hv
    · exact h.numbers v hmem
  · rw [lastAssigned?_operate, hperform, hformula, Formula.assign_argument? ha, assigned?]
    by_cases hn : name = other
    · rw [if_pos hn, if_pos hn.symm]
      rfl
    · rw [if_neg hn, if_neg (Ne.symm hn), Option.none_or]
      exact h.last other hother

/-- One operation keeps what holds: only an assignment that succeeds changes the bindings. -/
theorem Follows.operate (h : t.Follows f) (operation : Operation) :
    (t.operate operation).Follows f := by
  cases operation with
  | assign name value =>
    cases ha : t.formula.assign name value with
    | ok g => exact h.assign ha
    | error error =>
      have hperform : t.formula.perform (.assign name value) = (.error error, t.formula) := by
        rw [Formula.perform, ha]
      exact h.of_arguments (by rw [hperform]) fun _ => by rw [hperform]; rfl
  | compile => exact h.of_arguments t.formula.toBody.compile_arguments fun _ => rfl
  | value => exact h.of_arguments rfl fun _ => rfl
  | compiledValue => exact h.of_arguments rfl fun _ => rfl
  | apply values => exact h.of_arguments rfl fun _ => rfl

theorem move_forall {P : Tracked → Prop} {ts : List Tracked} (h : ∀ t ∈ ts, P t)
    (hstep : ∀ t operation, P t → P (t.operate operation)) (m : Move) : ∀ t ∈ move ts m, P t := by
  cases m with
  | operate index operation => exact forall_mem_modify h (fun t => hstep t operation) index
  | copy index => exact forall_mem_copy h index

theorem run_forall {P : Tracked → Prop} (hstart : P ⟨f, []⟩)
    (hstep : ∀ t operation, P t → P (t.operate operation)) (moves : List Move) :
    ∀ t ∈ run f moves, P t := by
  have all : ∀ ts : List Tracked, (∀ t ∈ ts, P t) → ∀ t ∈ moves.foldl move ts, P t := by
    induction moves with
    | nil => exact fun _ h => h
    | cons m rest ih => exact fun ts h => ih _ (move_forall h hstep m)
  exact all _ (List.forall_mem_singleton.mpr hstart)

theorem Follows.start {registry : Registry} {source : String}
    (h : Formula.parse registry source = .ok f) : Follows f ⟨f, []⟩ := by
  obtain ⟨_, _, hzero⟩ := Formula.parse_fresh h
  refine ⟨rfl, rfl, fun v hv => ?_, fun name hname => ?_⟩
  · rw [hzero v hv]
    decide +kernel
  · obtain ⟨v, hv, hvalue⟩ := Formula.argument?_mem hname
    rw [hvalue, hzero v hv]
    rfl

/-- The formula that the operations of a log make of the first one. -/
def remade (f : Formula) (t : Tracked) : Formula :=
  t.log.foldl (fun g entry => (g.perform entry.1).2) f

theorem remade_operate (t : Tracked) (operation : Operation) :
    (t.operate operation).remade f = ((t.remade f).perform operation).2 := by
  rw [remade, operate, List.foldl_append]
  rfl

/-- The bindings of a parsed formula over whole runs of work on it and on its copies, whatever its
extensions are. The names and their slots stay, and no value is NaN. An argument has the value that
was given to it last, and zero before that; to give it one fails when there is no such argument,
or else when the value is NaN, and then it changes nothing. A formula is what its own operations
made of it, so work on a copy does not reach the original, and calls leave it as it is. -/
theorem run_arguments {registry : Registry} {source : String}
    (h : Formula.parse registry source = .ok f) (moves : List Move) :
    ∀ t ∈ run f moves,
      t.formula = t.remade f ∧
      (t.formula.arguments.names = f.arguments.names ∧
        t.formula.argumentCount = f.argumentCount ∧
        ∀ name, t.formula.arguments.slot? name = f.arguments.slot? name) ∧
      (∀ v ∈ t.formula.arguments.values, v.isNaN = false) ∧
      (∀ name, t.formula.argument? name =
        if name ∈ f.arguments.names then some ((t.lastAssigned? name).getD 0) else none) ∧
      (∀ name value, t.formula.perform (.assign name value) =
        if name ∉ f.arguments.names then (.error (.unknownArgument name), t.formula)
        else if value.isNaN = true then (.error (.notANumber name), t.formula)
        else (.ok none, (t.operate (.assign name value)).formula)) ∧
      ∀ values, (t.formula.perform (.apply values)).2 = t.formula := by
  intro t ht
  have hown : t.formula = t.remade f := by
    refine run_forall (P := fun t => t.formula = t.remade f) rfl (fun t operation ht => ?_) moves
      t ht
    rw [remade_operate, ← ht]
    rfl
  have hfollows : t.Follows f :=
    run_forall (.start h) (fun _ operation ht => ht.operate operation) moves t ht
  have hnames := hfollows.names
  refine ⟨hown, ⟨hnames, hfollows.count, Bindings.slot?_congr hnames⟩, hfollows.numbers,
    fun name => ?_, fun name value => ?_, fun _ => rfl⟩
  · by_cases hname : name ∈ f.arguments.names
    · rw [if_pos hname, hfollows.last name hname]
    · rw [if_neg hname, Formula.argument?_eq_none (hnames ▸ hname)]
  · rw [operate]
    by_cases hname : name ∈ f.arguments.names
    · rw [if_neg (not_not_intro hname)]
      have hmem : name ∈ t.formula.arguments.names := hnames.symm ▸ hname
      by_cases hv : value.isNaN = true
      · rw [if_pos hv, Formula.perform, Formula.assign_nan hmem hv]
      · obtain ⟨g, hg⟩ := Formula.assign_number hmem (by simpa using hv)
        rw [if_neg hv, Formula.perform, hg]
    · rw [if_pos hname, Formula.perform, Formula.assign_unknown (hnames ▸ hname)]

/-- Work on "a+rate(b,c)" and on a copy of it, with assignments that fail. -/
def ratedMoves : List Move :=
  [.operate 0 (.assign "rate" 3), .copy 0, .operate 1 .compile, .operate 1 (.assign "rate" 4),
    .operate 1 (.apply [1, 2, 3, 4]), .operate 0 (.assign "d" notANumber),
    .operate 0 (.assign "rate" notANumber)]

theorem rated_run_arguments : Formula.parse rates "a+rate(b,c)" = .ok rated ∧
    ∃ t u, run rated ratedMoves = [t, u] ∧
      t.formula.argument? "rate" = some 3 ∧ u.formula.argument? "rate" = some 4 ∧
      t.formula.argument? "b" = some 0 ∧ t.formula.argument? "d" = none ∧
      (t.formula.perform (.assign "d" notANumber)).1 = .error (.unknownArgument "d") ∧
      (t.formula.perform (.assign "rate" notANumber)).1 = .error (.notANumber "rate") ∧
      t.formula.arguments.names = ["a", "b", "c", "rate"] := by
  have hall := run_arguments parse_rated ratedMoves
  refine ⟨parse_rated, _, _, rfl, ?_⟩
  obtain ⟨_, ⟨hnames, _⟩, _, ht, hfails, _⟩ := hall _ List.mem_cons_self
  obtain ⟨_, _, _, hu, _⟩ := hall _ (List.mem_cons_of_mem _ List.mem_cons_self)
  refine ⟨(ht "rate").trans (by decide +kernel), (hu "rate").trans (by decide +kernel),
    (ht "b").trans (by decide +kernel), (ht "d").trans (by decide +kernel), ?_, ?_, hnames⟩
  · rw [hfails]
    rfl
  · rw [hfails]
    rfl

end Tracked

end Formulary
