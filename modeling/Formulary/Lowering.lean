import Formulary.Term

namespace Formulary

/-- A lowered term: a value known beforehand, or code that finds it from the arguments. -/
inductive Lowered where
  | literal (value : Float)
  | dynamic (code : Code)

def Lowered.code : Lowered → Code
  | .literal value => fun _ => some value
  | .dynamic code => code

def Lowered.neg : Lowered → Lowered
  | .literal value => .literal (-value)
  | .dynamic code => .dynamic fun values => (code values).map fun x => -x

/-- Two literals are combined at once, by the operation that the code would apply. -/
def Lowered.binary (op : Operator) : Lowered → Lowered → Lowered
  | .literal x, .literal y => .literal (op.apply x y)
  | left, right => .dynamic fun values => do
    let x ← left.code values
    let y ← right.code values
    return op.apply x y

/-- The results of several pieces of code for the same argument values. -/
def Code.runAll : List Code → List Float → Option (List Float)
  | [], _ => some []
  | code :: rest, values => do
    let x ← code values
    let xs ← Code.runAll rest values
    return x :: xs

mutual

/-- Lowers a term. Code that an embedded formula already has is taken as it is. -/
def Term.lower : Term → Lowered
  | .constant value => .literal value
  | .argument _ slot => .dynamic fun values => values[slot]?
  | .neg operand => operand.lower.neg
  | .binary op left right => Lowered.binary op left.lower right.lower
  | .call function operands =>
    let codes := Term.lowerAll operands
    .dynamic fun values => (Code.runAll codes values).map function.apply
  | .embedded ⟨_, root, _, _, compiled⟩ operands =>
    let inner := match compiled with
      | some code => code
      | none => root.lower.code
    let codes := Term.lowerAll operands
    .dynamic fun values => (Code.runAll codes values).bind inner

def Term.lowerAll : List Term → List Code
  | [] => []
  | operand :: rest => operand.lower.code :: Term.lowerAll rest

end

mutual

/-- Compiles every embedded formula that has no code yet, and before it those within its root. -/
def Term.compileEmbedded : Term → Term
  | .constant value => .constant value
  | .argument name slot => .argument name slot
  | .neg operand => .neg operand.compileEmbedded
  | .binary op left right => .binary op left.compileEmbedded right.compileEmbedded
  | .call function operands => .call function (Term.compileEmbeddedAll operands)
  | .embedded body operands => .embedded (Body.compile body) (Term.compileEmbeddedAll operands)

def Body.compile : Body Term → Body Term
  | ⟨source, root, arguments, argumentCount, some code⟩ =>
    ⟨source, root, arguments, argumentCount, some code⟩
  | ⟨source, root, arguments, argumentCount, none⟩ =>
    let compiled := root.compileEmbedded
    ⟨source, compiled, arguments, argumentCount, some compiled.lower.code⟩

def Term.compileEmbeddedAll : List Term → List Term
  | [] => []
  | operand :: rest => operand.compileEmbedded :: Term.compileEmbeddedAll rest

end

end Formulary
