import Formulary.Build
import Formulary.Rank
import Formulary.Term

namespace Formulary

/-- Makes the term of a call from the terms of its arguments. -/
abbrev Provider := List Term → Build Term

/-- The extensions that a formula may call, by name. -/
structure Registry where
  providers : List (String × Provider) := []

namespace Registry

def find? (r : Registry) (name : String) : Option Provider :=
  (r.providers.find? fun entry => entry.1 = name).map Prod.snd

def contains (r : Registry) (name : String) : Bool :=
  r.providers.any fun entry => entry.1 = name

def size (r : Registry) : Nat := r.providers.length

/-- The names in the order of their code points. -/
def names (r : Registry) : List String :=
  (r.providers.map Prod.fst).mergeSort fun a b => decide (a ≤ b)

/-- Replaces the provider of a name that is registered already. -/
def add (r : Registry) (name : String) (provider : Provider) : Registry :=
  ⟨(name, provider) :: r.providers.filter fun entry => entry.1 ≠ name⟩

/-- Registers a formula: its arguments take the values of a call's arguments in slot order. -/
def addFormula (r : Registry) (name : String) (body : Body Term) : Registry :=
  r.add name fun operands => do
    Build.ofExcept ((Arity.exactly body.argumentCount).check name operands.length)
    return .embedded body operands

def addFunction (r : Registry) (name : String) (arity : Arity) (apply : List Float → Float) :
    Registry :=
  r.add name fun operands => do
    Build.ofExcept (arity.check name operands.length)
    return .call ⟨name, apply⟩ operands

end Registry

/-- The lesser of two numbers. NaN gives way to the other one. -/
def lesser (x y : Float) : Float :=
  if x.isNaN then y else if y.isNaN then x else if y < x then y else x

/-- The greater of two numbers. NaN gives way to the other one. -/
def greater (x y : Float) : Float :=
  if x.isNaN then y else if y.isNaN then x else if x < y then y else x

def least (xs : List Float) : Float := xs.foldl lesser infinity

def greatest (xs : List Float) : Float := xs.foldl greater (-infinity)

/-- The mathematical functions of one number. -/
def unaryFunctions : List (String × (Float → Float)) :=
  [("abs", Float.abs), ("sqrt", Float.sqrt), ("exp", Float.exp), ("ln", Float.log),
    ("log10", Float.log10), ("sin", Float.sin), ("cos", Float.cos), ("tan", Float.tan),
    ("floor", Float.floor), ("ceil", Float.ceil), ("round", Float.round)]

/-- Applies a function to the first value. The extensions below accept one operand and no other
number. A call without operands can only be made by a provider that takes those of such a call away;
it has no value of its own, and NaN stands for it. -/
def applyUnary (f : Float → Float) : List Float → Float
  | x :: _ => f x
  | [] => notANumber

def Registry.math : Registry :=
  let unary := unaryFunctions.foldl
    (fun r (name, f) => r.addFunction name (.exactly 1) (applyUnary f)) ({} : Registry)
  (unary.addFunction "min" (.range 1 none) least).addFunction "max" (.range 1 none) greatest

end Formulary
