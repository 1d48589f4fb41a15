namespace Formulary

inductive Operator where
  | add
  | sub
  | mul
  | div
  | pow
deriving DecidableEq, Repr

def Operator.ofSymbol? : Char → Option Operator
  | '+' => some .add
  | '-' => some .sub
  | '*' => some .mul
  | '/' => some .div
  | '^' => some .pow
  | _ => none

def Operator.symbol : Operator → Char
  | .add => '+'
  | .sub => '-'
  | .mul => '*'
  | .div => '/'
  | .pow => '^'

def Operator.name : Operator → String
  | .add => "Add"
  | .sub => "Sub"
  | .mul => "Mul"
  | .div => "Div"
  | .pow => "Pow"

/-- The arithmetic of binary64; `^` is the power. -/
def Operator.apply : Operator → Float → Float → Float
  | .add, x, y => x + y
  | .sub, x, y => x - y
  | .mul, x, y => x * y
  | .div, x, y => x / y
  | .pow, x, y => x.pow y

theorem Operator.ofSymbol?_symbol (op : Operator) : ofSymbol? op.symbol = some op := by
  cases op <;> rfl

end Formulary
