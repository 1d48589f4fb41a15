import Formulary.Bindings
import Formulary.Operator

namespace Formulary

/-- A function of argument values that has no formula. It is taken to be pure and to have a value
for every list of them, also for one that the extension it is registered as does not accept. -/
structure Primitive where
  name : String
  apply : List Float → Float

/-- A compiled formula: from argument values in slot order to the result.
There is none when a slot lies beyond the values. -/
abbrev Code := List Float → Option Float

/-- A source text with its parsed root, its arguments, their number as it was after parsing and,
once compiled, its code. -/
structure Body (τ : Type) where
  source : String
  root : τ
  arguments : Bindings
  argumentCount : Nat
  code : Option Code

/-- A parsed formula. An embedded formula gets the values of its own arguments from its operands. -/
inductive Term where
  | constant (value : Float)
  | argument (name : String) (slot : Nat)
  | neg (operand : Term)
  | binary (op : Operator) (left right : Term)
  | call (function : Primitive) (operands : List Term)
  | embedded (body : Body Term) (operands : List Term)

/-- A minus sign turns a constant into another one and stays a sign elsewhere. -/
def Term.negate : Term → Term
  | .constant value => .constant (-value)
  | operand => .neg operand

mutual

/-- The number of nodes. An embedded formula is one node besides its operands. -/
def Term.size : Term → Nat
  | .constant _ => 1
  | .argument .. => 1
  | .neg operand => 1 + operand.size
  | .binary _ left right => 1 + left.size + right.size
  | .call _ operands => 1 + Term.sizeAll operands
  | .embedded _ operands => 1 + Term.sizeAll operands

def Term.sizeAll : List Term → Nat
  | [] => 0
  | operand :: rest => operand.size + Term.sizeAll rest

end

mutual

/-- The value for argument values in slot order. There is none when a slot lies beyond them. -/
def Term.eval? : Term → List Float → Option Float
  | .constant value, _ => some value
  | .argument _ slot, values => values[slot]?
  | .neg operand, values => (operand.eval? values).map fun x => -x
  | .binary op left right, values => do
    let x ← left.eval? values
    let y ← right.eval? values
    return op.apply x y
  | .call function operands, values => (Term.evalAll? operands values).map function.apply
  | .embedded ⟨_, root, _, _, _⟩ operands, values =>
    (Term.evalAll? operands values).bind root.eval?

def Term.evalAll? : List Term → List Float → Option (List Float)
  | [], _ => some []
  | operand :: rest, values => do
    let x ← operand.eval? values
    let xs ← Term.evalAll? rest values
    return x :: xs

end

end Formulary
