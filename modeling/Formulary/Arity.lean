namespace Formulary

/-- The numbers of arguments that an extension takes. -/
inductive Arity where
  | any
  | exactly (count : Nat)
  | range (least : Nat) (greatest : Option Nat)
deriving DecidableEq, Repr

/-- A range whose bounds are crossed accepts nothing. -/
def Arity.accepts (arity : Arity) (count : Nat) : Bool :=
  match arity with
  | .any => true
  | .exactly expected => count = expected
  | .range least greatest => least ≤ count && greatest.all (count ≤ ·)

def Arity.text : Arity → String
  | .any => "any number of"
  | .exactly count => toString count
  | .range least (some greatest) => toString least ++ " to " ++ toString greatest
  | .range least none => "at least " ++ toString least

end Formulary
