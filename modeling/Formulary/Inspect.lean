import Formulary.Formula
import Formulary.Shortest
import Formulary.Unprintable

namespace Formulary

def hexDigits (n : Nat) : List Char := Nat.toDigits 16 n

def escapeChar (c : Char) : List Char :=
  match c with
  | '"' => ['\\', '"']
  | '\\' => ['\\', '\\']
  | '\t' => ['\\', 't']
  | '\n' => ['\\', 'n']
  | '\r' => ['\\', 'r']
  | '\x00' => ['\\', '0']
  | c => if isUnprintable c then "\\u\x7b".toList ++ hexDigits c.toNat ++ ['\x7d'] else [c]

/-- A text in quotes, with what cannot be printed escaped. -/
def inspectText (text : String) : String :=
  quoted (String.ofList (text.toList.flatMap escapeChar))

def braced (opening : String) (items : List String) (closing : String) : String :=
  opening ++ String.intercalate ", " items ++ closing

def inspectList (items : List String) : String := braced "[" items "]"

/-- A structure with its fields. -/
def inspectFields (name : String) (fields : List (String × String)) : String :=
  braced (name ++ " \x7b ") (fields.map fun (field, value) => field ++ ": " ++ value) " \x7d"

def Bindings.inspect (b : Bindings) : String :=
  inspectFields "ArgumentTable"
    [("names", braced "\x7b" (b.names.map inspectText) "\x7d"),
      ("values", inspectList (b.values.map inspectNumber))]

def Body.inspect {τ : Type} (body : Body τ) : String :=
  inspectFields "Expression"
    [("source", inspectText body.source), ("arguments", body.arguments.inspect),
      ("compiled", toString body.code.isSome)]

mutual

def Term.inspect : Term → String
  | .constant value => "Constant(" ++ inspectNumber value ++ ")"
  | .argument name slot =>
    inspectFields "Variable" [("name", inspectText name), ("slot", toString slot)]
  | .neg operand => "Neg(" ++ operand.inspect ++ ")"
  | .binary op left right =>
    inspectFields "Binary" [("op", op.name), ("left", left.inspect), ("right", right.inspect)]
  | .call function operands =>
    inspectFields "Call"
      [("function", "NativeFunction(" ++ inspectText function.name ++ ")"),
        ("args", inspectList (Term.inspectAll operands))]
  | .embedded body operands =>
    inspectFields "Embedded"
      [("expression", body.inspect), ("args", inspectList (Term.inspectAll operands))]

def Term.inspectAll : List Term → List String
  | [] => []
  | operand :: rest => operand.inspect :: Term.inspectAll rest

end

def Lowered.inspect : Lowered → String
  | .literal value => "Literal(" ++ inspectNumber value ++ ")"
  | .dynamic _ => "Dynamic"

def Formula.inspect (f : Formula) : String := f.toBody.inspect

def Registry.inspect (r : Registry) : String :=
  inspectFields "Extensions" [("names", inspectList (r.names.map inspectText))]

end Formulary
