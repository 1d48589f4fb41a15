import Formulary.Console

namespace Formulary

/-- Reads and answers lines until the exit or the end of the input. -/
partial def converse (input output : IO.FS.Stream) (s : Session) : IO Unit := do
  output.putStr prompt
  output.flush
  let line ← input.getLine
  if line.isEmpty then return
  let (answer, next) := s.answer (String.ofList (withoutLineEnd line.toList))
  output.putStr (printed answer)
  unless isExit answer do
    converse input output next

end Formulary

def main : IO Unit := do
  let output ← IO.getStdout
  output.putStr (Formulary.greeting ++ "\n")
  Formulary.converse (← IO.getStdin) output {}
