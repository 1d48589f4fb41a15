namespace Formulary

/-- The arguments of a formula with their values. The position of a name is its slot. -/
structure Bindings where
  entries : List (String × Float) := []

namespace Bindings

def names (b : Bindings) : List String := b.entries.map Prod.fst

def values (b : Bindings) : List Float := b.entries.map Prod.snd

def size (b : Bindings) : Nat := b.entries.length

def slot? (b : Bindings) (name : String) : Option Nat :=
  b.entries.findIdx? fun entry => entry.1 = name

def contains (b : Bindings) (name : String) : Bool :=
  b.entries.any fun entry => entry.1 = name

def get? (b : Bindings) (slot : Nat) : Option Float :=
  b.entries[slot]?.map Prod.snd

/-- The slot of a name. A name not seen before is appended with the value zero. -/
def register (b : Bindings) (name : String) : Nat × Bindings :=
  match b.slot? name with
  | some slot => (slot, b)
  | none => (b.size, ⟨b.entries ++ [(name, 0)]⟩)

/-- The bindings with another value at a slot, if there is such a slot. -/
def set? (b : Bindings) (slot : Nat) (value : Float) : Option Bindings :=
  if slot < b.size then some ⟨b.entries.modify slot fun entry => (entry.1, value)⟩ else none

/-- Equal bindings have the same set of names and equal values in slot order: each part is compared
for itself, and a set of names does not look at their order. -/
def beq (b c : Bindings) : Bool :=
  b.size = c.size && b.names.all c.contains && b.values == c.values

instance : BEq Bindings := ⟨beq⟩

end Bindings

end Formulary
