import GuardedRevision.Command.Arguments
import GuardedRevision.Command.Run
import GuardedRevision.Repository.Description

/-!
# The program

Reads the description of a repository from standard input and runs the command of the command line on
it, under the default settings.
-/

namespace GuardedRevision

partial def readAll (input : IO.FS.Stream) (text : String) : IO String := do
  let line ← input.getLine
  if line.isEmpty then return text else readAll input (text ++ line)

/-- Surroundings with one repository, in the current directory, and no files. -/
def Surroundings.ofDescription (text : String) : Surroundings where
  current := "."
  repository? path :=
    if path = "." then (Repository.ofDescription? path text).map (·, path) else none
  files _ := none
  places := ⟨none, none, none⟩

def runInvocation (invocation : Invocation) : IO UInt32 := do
  let text ← readAll (← IO.getStdin) ""
  match (Surroundings.ofDescription text).run invocation with
  | .ok output =>
      IO.print output
      return 0
  | .error failure =>
      IO.eprintln (": ".intercalate failure.messages)
      return 1

end GuardedRevision

open GuardedRevision in
def main (arguments : List String) : IO UInt32 := do
  match Invocation.ofArguments arguments with
  | .ok invocation => runInvocation invocation
  | .error usage =>
      if usage.isAnswer then
        IO.println usage.message
        return 0
      else
        IO.eprintln usage.message
        return 2
