import Formulary.Formula

namespace Formulary

/-- What a user may ask for. -/
inductive Command where
  | blank
  | exit
  | help
  | clear
  | create (name source : String)
  | compile (name : String)
  | set (name argument : String) (value : Float)
  | eval (name : String)
  | evalCompiled (name : String)
  | list (name : String)

/-- Why a command is refused. -/
inductive Refusal where
  | unknownCommand (command : String)
  | usage (command expected : String)
  | unknownFormula (name : String)
  | invalidName (name : String)
  | alreadyExists (name : String)
  | invalidNumber (word : String)
  | formula (error : Error)
deriving DecidableEq, Repr

def Refusal.message : Refusal → String
  | .unknownCommand command =>
    "Unknown command: " ++ quoted command ++ ". Type 'help' for more info."
  | .usage command expected => "'" ++ command ++ "' expects " ++ expected ++ "."
  | .unknownFormula name => "There is no expression named " ++ quoted name ++ "."
  | .invalidName name => quoted name ++ " is not a valid expression name."
  | .alreadyExists name => "Expression " ++ quoted name ++ " already exists."
  | .invalidNumber word => quoted word ++ " is not a number."
  | .formula error => error.message

/-- The words of a text between its spaces. -/
def words (text : List Char) : List (List Char) :=
  (text.splitOnP isSpace).filter fun word => word ≠ []

/-- The text before the first space, and the text after it if there is a space. -/
def splitSpace (text : List Char) : List Char × Option (List Char) :=
  match text.dropWhile fun c => !isSpace c with
  | [] => (text, none)
  | _ :: rest => (text.takeWhile fun c => !isSpace c, some rest)

namespace Command

/-- The only word of a text, which names a formula. -/
def readName (command : String) (rest : List Char) : Except Refusal String :=
  match words rest with
  | [name] => .ok (String.ofList name)
  | _ => .error (.usage command "<NAME>")

def readCreate (rest : List Char) : Except Refusal Command :=
  match splitSpace rest with
  | (_, none) => .error (.usage "create" "<NAME> <EXPRESSION>")
  | (name, some source) =>
    if isName name then
      .ok (.create (String.ofList name) (String.ofList (trim isSpace source)))
    else .error (.invalidName (String.ofList name))

def readSet (rest : List Char) : Except Refusal Command :=
  match words rest with
  | [name, argument, word] =>
    match readNumber? word with
    | some value => .ok (.set (String.ofList name) (String.ofList argument) value)
    | none => .error (.invalidNumber (String.ofList word))
  | _ => .error (.usage "set" "<NAME> <ARGUMENT> <VALUE>")

/-- Reads one line, which is a command up to its first space and what the command works on. -/
def read (line : String) : Except Refusal Command :=
  let (command, tail) := splitSpace (trim isSpace line.toList)
  let rest := trim isSpace (tail.getD [])
  match String.ofList command with
  | "" => .ok .blank
  | "exit" => .ok .exit
  | "help" => .ok .help
  | "clear" => .ok .clear
  | "create" => readCreate rest
  | "compile" => (readName "compile" rest).map .compile
  | "set" => readSet rest
  | "eval" => (readName "eval" rest).map .eval
  | "eval-compiled" | "eval-il" => (readName "eval-compiled" rest).map .evalCompiled
  | "list" => (readName "list" rest).map .list
  | other => .error (.unknownCommand other)

end Command

end Formulary
