namespace Formulary

/-- A set of names that keeps the order in which they were inserted. An insertion gives the
position of the name; one that is there already stays where it is. Sets with the same names are
equal in whatever order they were inserted. -/
structure IndexSet where
  Carrier : Type
  empty : Carrier
  names : Carrier → List String
  indexOf? : Carrier → String → Option Nat
  contains : Carrier → String → Bool
  insert : Carrier → String → Nat × Carrier
  beq : Carrier → Carrier → Bool
  names_empty : names empty = []
  indexOf?_eq : ∀ s name, indexOf? s name = (names s).idxOf? name
  contains_eq : ∀ s name, contains s name = (names s).contains name
  insert_known : ∀ s name slot, indexOf? s name = some slot → (insert s name).1 = slot ∧
    names (insert s name).2 = names s
  insert_new : ∀ s name, indexOf? s name = none → (insert s name).1 = (names s).length ∧
    names (insert s name).2 = names s ++ [name]
  beq_iff : ∀ s t, beq s t = true ↔ ∀ name, name ∈ names s ↔ name ∈ names t

/-- The list of its names is such a set itself. -/
def IndexSet.lists : IndexSet where
  Carrier := List String
  empty := []
  names s := s
  indexOf? s name := s.idxOf? name
  contains s name := s.contains name
  insert s name := match s.idxOf? name with
    | some slot => (slot, s)
    | none => (s.length, s ++ [name])
  beq s t := s.all t.contains && t.all s.contains
  names_empty := rfl
  indexOf?_eq _ _ := rfl
  contains_eq _ _ := rfl
  insert_known s name slot h := by simp [h]
  insert_new s name h := by simp [h]
  beq_iff s t := by
    simp only [Bool.and_eq_true, List.all_eq_true, List.contains_iff_mem]
    exact ⟨fun h name => ⟨h.1 name, h.2 name⟩, fun h => ⟨fun name => (h name).mp, fun name =>
      (h name).mpr⟩⟩

/-- The arguments of a formula, with the names and the values apart. -/
structure Columns (S : IndexSet) where
  index : S.Carrier := S.empty
  values : List Float := []

namespace Columns

variable {S : IndexSet}

def names (t : Columns S) : List String := S.names t.index

def size (t : Columns S) : Nat := t.values.length

def slot? (t : Columns S) (name : String) : Option Nat := S.indexOf? t.index name

def contains (t : Columns S) (name : String) : Bool := S.contains t.index name

def get? (t : Columns S) (slot : Nat) : Option Float := t.values[slot]?

/-- The slot of a name. One not seen before is inserted, and the value zero is appended. -/
def register (t : Columns S) (name : String) : Nat × Columns S :=
  match t.slot? name with
  | some slot => (slot, t)
  | none =>
    let (slot, index) := S.insert t.index name
    (slot, ⟨index, t.values ++ [0]⟩)

/-- Writes a value at a slot, and tells whether there is such a slot. -/
def set (t : Columns S) (slot : Nat) (value : Float) : Bool × Columns S :=
  if slot < t.values.length then (true, ⟨t.index, t.values.set slot value⟩) else (false, t)

/-- The names with their values in slot order. -/
def entries (t : Columns S) : List (String × Float) := t.names.zip t.values

/-- Equal columns are equal each for itself, the names as sets and the values in their order. -/
def beq (t u : Columns S) : Bool := S.beq t.index u.index && t.values == u.values

instance : BEq (Columns S) := ⟨beq⟩

end Columns

end Formulary
