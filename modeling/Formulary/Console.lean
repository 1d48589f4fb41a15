import Formulary.Session

namespace Formulary

def greeting : String :=
  "Welcome to the express console! Type \"help\" to get command list."

def prompt : String := "> "

/-- What is printed for an answer. A line with no text to print leaves no line behind. -/
def printed : Except Refusal Reply → String
  | .ok .exit => ""
  | .ok (.text text) => if text = "" then "" else text ++ "\n"
  | .error refusal => "Error: " ++ refusal.message ++ "\n"

def isExit : Except Refusal Reply → Bool
  | .ok .exit => true
  | _ => false

/-- What is printed while lines are read, up to the exit or to the end of the lines. -/
def dialogue (s : Session) : List String → String
  | [] => prompt
  | line :: rest =>
    let (answer, next) := s.answer line
    prompt ++ printed answer ++ if isExit answer then "" else dialogue next rest

/-- Removes the end of a line, and one carriage return before it. -/
def withoutLineEnd (line : List Char) : List Char :=
  match line.reverse with
  | '\n' :: '\r' :: rest => rest.reverse
  | '\n' :: rest => rest.reverse
  | _ => line

/-- The lines of a text, each with its end. -/
def linesWithEnd : List Char → List (List Char)
  | [] => []
  | c :: rest =>
    if c = '\n' then [c] :: linesWithEnd rest
    else match linesWithEnd rest with
      | [] => [[c]]
      | line :: lines => (c :: line) :: lines

/-- All that a console prints for a given input. -/
def transcript (input : String) : String :=
  greeting ++ "\n" ++
    dialogue {} ((linesWithEnd input.toList).map fun line => String.ofList (withoutLineEnd line))

end Formulary
