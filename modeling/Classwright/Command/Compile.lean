import Classwright.Command.Basic
import Classwright.Files.Compile

/-!
# The command `javasstc`

Compiles one source file into a class file.
-/

namespace Classwright.CompileCommand

/-- The options of the command. -/
structure Options where
  /-- Whether a graph is written, too. -/
  graph : Bool := false
  /-- The directory the results go to. -/
  directory : String := "."
  /-- Whether the progress is told. -/
  verbose : Bool := false
  deriving Repr, Inhabited

/-- The flags of the command. -/
def flags : List (Flag Options) :=
  [{ name := "dot"
     purpose := "also write a graphviz <class>.dot of the declarations and trees"
     kind := .switch false fun b o => { o with graph := b } },
   { name := "o"
     purpose := "the directory the class file is written to"
     kind := .word "." fun s o => { o with directory := s } },
   { name := "v"
     purpose := "print the progress of each compiler stage"
     kind := .switch false fun b o => { o with verbose := b } }]

/-- How the command is used. -/
def usage : String :=
  usageText "usage: javasstc [flags] <source file>" flags

variable {m : Type → Type} [Monad m] [MonadFiles m]

/-- Runs the command with the given words behind its name. -/
def run (words : List String) : m Outcome := do
  match Flag.read flags {} words with
  | .error e => return .ofFlagError usage e
  | .ok (o, [path]) =>
    let (log, result) ← compileFile path { directory := o.directory, graph := o.graph }
    let progress := if o.verbose then String.join (log.map (· ++ "\n")) else ""
    match result with
    | .error e => return { exit := 1, errors := progress ++ s!"Error: {e.message}\n" }
    | .ok classPath =>
      return {
        output := if o.verbose then s!"compiled {classPath}\n" else ""
        errors := progress }
  | .ok _ => return { exit := 2, errors := usage }

end Classwright.CompileCommand
