import Formulary.Command
import Formulary.Shortest

namespace Formulary

/-- The formulas of a user by name, the oldest first. -/
structure Session where
  formulas : List (String × Formula) := []

/-- The answer to a command that is not refused. -/
inductive Reply where
  | text (text : String)
  | exit
deriving DecidableEq, Repr

def helpText : String :=
  "> 'exit' - close program\n" ++
  "> 'help' - print this message\n" ++
  "> 'clear' - clear the screen\n" ++
  "> 'create <NAME> <EXPRESSION>' - create expression with name <NAME>\n" ++
  "> 'compile <NAME>' - compile expression <NAME>\n" ++
  "> 'set <NAME> <ARGUMENT> <VALUE>' - set argument <ARGUMENT> of expression <NAME> to <VALUE>\n" ++
  "> 'eval <NAME>' - evaluate expression <NAME> by walking its tree\n" ++
  "> 'eval-compiled <NAME>' - evaluate the compiled form of expression <NAME> " ++
    "(alias 'eval-il')\n" ++
  "> 'list <NAME>' - print arguments (and values) of expression <NAME>"

/-- Clears the screen of a terminal and moves its cursor to the upper left corner. -/
def clearText : String := "\x1b[2J\x1b[H"

def evaluationText (value : Float) : String := "Evaluation result: " ++ plainNumber value

/-- One line for each argument from an index on, the one at the index `last` with a mark of its
own. -/
def argumentLines (last index : Nat) : List (String × Float) → String
  | [] => ""
  | (name, value) :: rest =>
    "\n" ++ (if index = last then "╙" else "╟") ++ name ++ " = " ++ plainNumber value ++
      argumentLines last (index + 1) rest

def listText (name : String) (f : Formula) : String :=
  if f.argumentCount = 0 then "Expression " ++ quoted name ++ " contains no arguments."
  else "Arguments of expression " ++ quoted name ++ ":" ++
    argumentLines (f.argumentCount - 1) 0 f.arguments.entries

namespace Session

/-- Work on a session that may be refused. What it has changed before a refusal stays changed. -/
abbrev Action := ExceptT Refusal (StateM Session)

def find? (s : Session) (name : String) : Option Formula :=
  (s.formulas.find? fun entry => entry.1 = name).map Prod.snd

/-- Puts a formula in the place of the one of that name. -/
def replace (s : Session) (name : String) (f : Formula) : Session :=
  ⟨s.formulas.map fun entry => if entry.1 = name then (name, f) else entry⟩

/-- The mathematical functions and all formulas so far; a formula hides a function of its name. -/
def registry (s : Session) : Registry :=
  s.formulas.foldl (fun r (name, f) => r.addFormula name f.toBody) Registry.math

/-- The formula of a name. -/
def fetch (name : String) : Action Formula := do
  let s ← get
  match s.find? name with
  | some f => return f
  | none => throw (.unknownFormula name)

def ofParse {α : Type} : Except Error α → Action α
  | .ok value => return value
  | .error error => throw (.formula error)

/-- Carries out a command. -/
def perform : Command → Action Reply
  | .blank => return .text ""
  | .exit => return .exit
  | .help => return .text helpText
  | .clear => return .text clearText
  | .create name source => do
    let s ← get
    if (s.find? name).isSome then throw (.alreadyExists name)
    let f ← ofParse (Formula.parse s.registry source)
    set ({ s with formulas := s.formulas ++ [(name, f)] } : Session)
    return .text ("Created expression " ++ quoted name ++ ".")
  | .compile name => do
    let f ← fetch name
    modify fun s => s.replace name f.compile
    return .text ("Compiled expression " ++ quoted name ++ ".")
  | .set name argument value => do
    let f ← fetch name
    let f ← ofParse (f.assign argument value)
    modify fun s => s.replace name f
    return .text ("Success: " ++ name ++ "." ++ argument ++ "=" ++ plainNumber value)
  | .eval name => do
    let f ← fetch name
    return .text (evaluationText f.value)
  | .evalCompiled name => do
    let f ← fetch name
    let value ← ofParse f.compiledValue
    return .text (evaluationText value)
  | .list name => do
    let f ← fetch name
    return .text (listText name f)

/-- The result of the work, and the session after it. -/
def Action.runOn {α : Type} (x : Action α) (s : Session) : Except Refusal α × Session :=
  Id.run (x.run.run s)

/-- Answers a line and goes on with the session as it is then. -/
def answer (s : Session) (line : String) : Except Refusal Reply × Session :=
  match Command.read line with
  | .ok command => (perform command).runOn s
  | .error refusal => (.error refusal, s)

end Session

end Formulary
