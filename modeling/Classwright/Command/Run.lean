import Classwright.ClassFile.Reader
import Classwright.Command.Basic
import Classwright.Files.Basic
import Classwright.Machine.Basic

/-!
# The command `runclass`

Loads a class file, runs its constructor and calls one of its methods.  These are two calls at most,
so under any limit but the two greatest words an interpreter does what the machine here does.
-/

namespace Classwright.RunCommand

/-- The options of the command. -/
structure Options where
  /-- The method to call. -/
  method : String := "main"
  /-- Whether the constructor runs before. -/
  constructs : Bool := true
  /-- How many operations may run. -/
  maxSteps : Int := 10000000
  /-- Whether the operations are traced. -/
  verbose : Bool := false
  deriving Repr, Inhabited

/-- The flags of the command. -/
def flags : List (Flag Options) :=
  [{ name := "init"
     purpose := "whether run <init> before the method"
     kind := .switch true fun b o => { o with constructs := b } },
   { name := "m"
     purpose := "the method to invoke"
     kind := .word "main" fun s o => { o with method := s } },
   { name := "steps"
     purpose := "the maximum number of executed instructions"
     kind := .number 10000000 fun n o => { o with maxSteps := n } },
   { name := "v"
     purpose := "whether trace every executed instruction"
     kind := .switch false fun b o => { o with verbose := b } }]

/-- A failure with the given trace behind it. -/
def failure (trace : String) (reason : String) : Outcome :=
  { exit := 1, output := s!"[Runclass]: {reason}\n", errors := trace }

/-- The numbers that the arguments stand for, or the first that is none. -/
def readArguments : List String → Except String (List Int32)
  | [] => .ok []
  | s :: rest =>
    match readDecimal? 32 (Text.ofString s) with
    | none => .error s
    | some n => (readArguments rest).map (Int32.ofInt n :: ·)

/-- The lines of a trace as one text. -/
def traceText (lines : List String) : String :=
  String.join (lines.map (· ++ "\n"))

/-- Calls the method. -/
def call (o : Options) (machine : Machine) (arguments : List Int32) (trace : String) : Outcome :=
  let (_, result, lines) := machine.invoke (Text.ofString o.method) arguments o.verbose
  let trace := trace ++ traceText lines
  match result with
  | .error e => failure trace s!"failed to invoke {o.method}, err: {e.message}"
  | .ok value => { output := s!"{value.toInt}\n", errors := trace }

/-- Runs the constructor, if it is asked for, and then the method. -/
def execute (o : Options) (machine : Machine) (arguments : List Int32) : Outcome :=
  if o.constructs then
    let (machine, result, lines) := machine.construct o.verbose
    let trace := traceText lines
    match result with
    | .error e => failure trace s!"failed to run <init>, err: {e.message}"
    | .ok _ => call o machine arguments trace
  else
    call o machine arguments ""

/-- Loads a class file from its bytes and runs it. -/
def start (o : Options) (path : String) (bytes : Text) (arguments : List Int32) : Outcome :=
  match ClassFile.decode bytes with
  | .error e => failure "" s!"failed to read class: {path}, err: {e.message}"
  | .ok f =>
    match Machine.load f (.ofNumbers o.maxSteps 0) with
    | .error e => failure "" s!"failed to load class: {path}, err: {e.message}"
    | .ok machine => execute o machine arguments

variable {m : Type → Type} [Monad m] [MonadFiles m]

/-- Runs the command with the given words behind its name. -/
def run (words : List String) : m Outcome := do
  match Flag.read flags {} words with
  | .error e => return .ofFlagError (usageText "Usage of runclass:" flags) e
  | .ok (_, []) =>
    return {
      exit := 2
      output := "[Runclass]: usage: runclass [-m method] [-init=true] [-steps n] [-v] " ++
        "<file.class> [int args...]\n" }
  | .ok (o, path :: rest) =>
    match readArguments rest with
    | .error s => return { exit := 2, output := s!"[Runclass]: argument {s} is not an int\n" }
    | .ok arguments =>
      match ← MonadFiles.readFile path with
      | .error e => return failure "" s!"failed to open class: {path}, err: {e.message}"
      | .ok bytes => return start o path bytes arguments

end Classwright.RunCommand
