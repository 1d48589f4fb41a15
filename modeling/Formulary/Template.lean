import Formulary.Formula

namespace Formulary

mutual

/-- A provider given as data. -/
inductive Template where
  | constant (value : Float)
  /-- An argument that is registered under its name. -/
  | argument (name : String)
  /-- An argument at a given slot, registered or not. -/
  | slot (name : String) (slot : Nat)
  /-- An operand of the call, or what stands for it when there are fewer. -/
  | operand (index : Nat) (otherwise : Template)
  | operandCount
  | bindingCount
  | neg (operand : Template)
  | binary (op : Operator) (left right : Template)
  | call (function : Primitive) (operands : Operands)
  /-- A formula without extensions, parsed anew for each call. -/
  | embed (source : String) (operands : Operands)
  | fail (name : String)

/-- The operands of a template: those of the call, or ones built for it from left to right. -/
inductive Operands where
  | all
  | none
  | cons (first : Template) (rest : Operands)

end

mutual

def Template.build (operands : List Term) : Template → Build Term
  | .constant value => return .constant value
  | .argument name => return .argument name (← Build.slot name)
  | .slot name slot => return .argument name slot
  | .operand index otherwise =>
    match operands[index]? with
    | some term => return term
    | none => otherwise.build operands
  | .operandCount => return .constant operands.length.toFloat
  | .bindingCount => return .constant (← Build.bindings).size.toFloat
  | .neg operand => return .neg (← operand.build operands)
  | .binary op left right => return .binary op (← left.build operands) (← right.build operands)
  | .call function chosen => return .call function (← chosen.build operands)
  | .embed source chosen => do
    let formula ← Build.ofExcept (Formula.parse {} source)
    return .embedded formula.toBody (← chosen.build operands)
  | .fail name => .fail (.unknownArgument name)

def Operands.build (operands : List Term) : Operands → Build (List Term)
  | .all => return operands
  | .none => return []
  | .cons first rest => return (← first.build operands) :: (← rest.build operands)

end

def Template.provider (template : Template) : Provider := fun operands => template.build operands

/-- The number of values. -/
def countFunction (values : List Float) : Float := values.length.toFloat

/-- The last value, and zero when there is none. -/
def lastFunction (values : List Float) : Float := values.getLast?.getD 0

/-- The sum of the values, each times its position counted from one. -/
def weightedFunction (values : List Float) : Float :=
  values.zipIdx.foldl (fun sum (x, i) => sum + (i + 1).toFloat * x) 0

end Formulary
