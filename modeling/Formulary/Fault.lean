import Formulary.Arity
import Formulary.Fragment

namespace Formulary

/-- What is wrong with a fragment of a source text. -/
inductive Fault where
  | emptyOperand
  | literalOutOfRange
  | invalidToken
  | invalidExtensionName
  | unknownExtension
  | strayArgument
  | unmatchedClose
  | unmatchedOpen
deriving DecidableEq, Repr

def Fault.message : Fault → String
  | .emptyOperand => "Empty operand"
  | .literalOutOfRange => "Numeric literal out of range"
  | .invalidToken => "Invalid token"
  | .invalidExtensionName => "Invalid extension name"
  | .unknownExtension => "Unknown extension"
  | .strayArgument => "Extension produced an unknown argument"
  | .unmatchedClose => "Unmatched ')'"
  | .unmatchedOpen => "Unmatched '('"

/-- Why a formula cannot be parsed, bound or called. -/
inductive Error where
  | malformed (fault : Fault) (place : Fragment)
  | arity (name : String) (expected : Arity) (found : Nat)
  | unknownArgument (name : String)
  | notANumber (name : String)
  | notCompiled
  | argumentCount (expected found : Nat)
deriving DecidableEq, Repr

def quoted (name : String) : String := "\"" ++ name ++ "\""

def Error.message : Error → String
  | .malformed fault place =>
    fault.message ++ " at " ++ toString place.offset ++ ": " ++ quoted (String.ofList place.text)
  | .arity name expected found =>
    quoted name ++ " expects " ++ expected.text ++ " arguments, got " ++ toString found ++ "."
  | .unknownArgument name => "This expression does not contain " ++ quoted name ++ " argument."
  | .notANumber name => "Setting argument " ++ quoted name ++ " to NaN is forbidden."
  | .notCompiled => "Expression is not compiled."
  | .argumentCount expected found =>
    "Compiled function expects " ++ toString expected ++ " arguments, got " ++ toString found ++ "."

/-- Refuses a number of arguments that the extension `name` does not take. -/
def Arity.check (arity : Arity) (name : String) (count : Nat) : Except Error Unit :=
  if arity.accepts count then .ok () else .error (.arity name arity count)

end Formulary
