import Classwright.Command.Compile
import Classwright.Command.Dump
import Classwright.Command.Run

/-!
# The program

Runs one of the three commands on the files of the computer.  The first word names the command.
-/

namespace Classwright

/-- A missing file is an answer; any other failure of the file system ends the program. -/
def unlessMissing {α : Type} (path : String) (action : IO α) : IO (Except MissingFile α) := do
  try
    return .ok (← action)
  catch e =>
    match e with
    | .noFileOrDirectory .. => return .error ⟨path⟩
    | e => throw e

instance : MonadFiles IO where
  readFile path := unlessMissing path do return (← IO.FS.readBinFile path).toList
  writeFile path content := unlessMissing path (IO.FS.writeBinFile path ⟨content.toArray⟩)

/-- Runs the command that the first word names. -/
def runCommand : List String → IO Outcome
  | "javasstc" :: words => CompileCommand.run words
  | "classdump" :: words => DumpCommand.run words
  | "runclass" :: words => RunCommand.run words
  | _ => return { exit := 2, errors := "usage: (javasstc | classdump | runclass) [words]\n" }

end Classwright

/-- Runs a command and passes on what it wrote and its exit code. -/
def main (words : List String) : IO UInt32 := do
  let outcome ← Classwright.runCommand words
  (← IO.getStdout).putStr outcome.output
  (← IO.getStderr).putStr outcome.errors
  return outcome.exit.toUInt32
