import Formulary.Outline
import Formulary.Registry

namespace Formulary

mutual

/-- Accepts a provider's term if its slots are among `size` arguments and
its embedded formulas get as many operands as they have arguments. -/
def Term.check (call : String) (place : Fragment) (size : Nat) : Term → Except Error Unit
  | .constant _ => .ok ()
  | .argument _ slot => if slot < size then .ok () else .error (.malformed .strayArgument place)
  | .neg operand => operand.check call place size
  | .binary _ left right => do
    left.check call place size
    right.check call place size
  | .call _ operands => Term.checkAll call place size operands
  | .embedded body operands => do
    (Arity.exactly body.argumentCount).check call operands.length
    Term.checkAll call place size operands

def Term.checkAll (call : String) (place : Fragment) (size : Nat) : List Term → Except Error Unit
  | [] => .ok ()
  | operand :: rest => do
    operand.check call place size
    Term.checkAll call place size rest

end

mutual

/-- Gives the names of an outline their meaning, from left to right. The first fault ends it. -/
def Outline.resolve (registry : Registry) : Outline → Build Term
  | .fault cause place => .fail (.malformed cause place)
  | .number value => return .constant value
  | .name place => do
    let word := String.ofList place.text
    let slot ← Build.slot word
    return .argument word slot
  | .minus operand => do
    let term ← operand.resolve registry
    return term.negate
  | .binary op left right => do
    let first ← left.resolve registry
    let second ← right.resolve registry
    return .binary op first second
  | .call word place arguments =>
    match registry.find? word with
    | none => .fail (.malformed .unknownExtension place)
    | some provider => do
      let operands ← Outline.resolveAll registry arguments
      let term ← provider operands
      let bindings ← Build.bindings
      Build.ofExcept (term.check word place bindings.size)
      return term

def Outline.resolveAll (registry : Registry) : List Outline → Build (List Term)
  | [] => return []
  | outline :: rest => do
    let first ← outline.resolve registry
    let others ← Outline.resolveAll registry rest
    return first :: others

end

end Formulary
