import Classwright.ClassFile.Writer
import Classwright.Compiler
import Classwright.Files.Basic
import Classwright.Program.Graph

/-!
# Compiling files

A source file is compiled into a class file named after its class, and on demand a graph of the
program is written beside it.  A text that is refused leads to no file.  The bytes of the class file
are made only once the graph is written and the class file is there, so names that are too long for
its format leave an empty one.
-/

namespace Classwright

/-- Why a source file could not be compiled into a class file. -/
inductive FileError where
  /-- The source file is missing. -/
  | source (error : MissingFile)
  /-- The text does not compile. -/
  | build (error : EmitError)
  /-- A result cannot be made where it belongs. -/
  | create (error : MissingFile)
  /-- The class file exceeds a limit of its format. -/
  | write (path : String) (error : ClassFileError)
  deriving Repr, Inhabited

/-- The wording of an error. -/
def FileError.message : FileError → String
  | source error => s!"compiler: open {error.path}: {error.message}"
  | build error => error.message
  | create error => s!"compiler: create {error.path}: {error.message}"
  | write path error => s!"compiler: write {path}: {error.message}"

/-- Where the results of a compilation go. -/
structure Destination where
  /-- The directory of the results; none given is the working directory. -/
  directory : String := ""
  /-- Whether the graph is written, too. -/
  graph : Bool := false
  deriving Repr, Inhabited

/-- The path of a result of the program `p` in a directory. -/
def Destination.path (d : Destination) (p : Program) (ending : String) : String :=
  Path.join (if d.directory.isEmpty then "." else d.directory) (p.name.shown ++ ending)

variable {m : Type → Type} [Monad m] [MonadFiles m]

/-- Makes a file and then fills it.  A file whose content turns out to be impossible stays empty. -/
def createFile (path : String) (content : Except ClassFileError Text) :
    m (Except FileError Unit) := do
  match ← MonadFiles.writeFile path [] with
  | .error e => return .error (.create e)
  | .ok _ =>
    match content with
    | .error e => return .error (.write path e)
    | .ok content =>
      match ← MonadFiles.writeFile path content with
      | .error e => return .error (.create e)
      | .ok _ => return .ok ()

/-- Writes the graph of a program, if it is asked for.  Yields the lines of the log. -/
def writeGraph (d : Destination) (p : Program) : m (List String × Except FileError Unit) := do
  if d.graph then
    let path := d.path p ".dot"
    return ([s!"compiler: write graph to {path}"],
      ← createFile path (.ok (Text.ofString p.graph)))
  else
    return ([], .ok ())

/-- Writes a class file.  Yields the lines of the log and the path of the class file. -/
def writeClassFile (d : Destination) (p : Program) (f : ClassFile) :
    m (List String × Except FileError String) := do
  let path := d.path p ".class"
  let r ← createFile path f.encode
  return ([s!"compiler: write class file to {path}"], r.map fun _ => path)

/-- Compiles a source file.  Yields the lines of the log and the path of the class file. -/
def compileFile (path : String) (d : Destination) : m (List String × Except FileError String) := do
  match ← MonadFiles.readFile path with
  | .error e => return ([], .error (.source e))
  | .ok text =>
    let b := Build.ofText text
    let log := s!"compiler: start parser at path: {path}" :: b.log
    match b.result with
    | .error e => return (log, .error (.build e))
    | .ok (p, f) =>
      let (more, written) ← writeGraph d p
      let log := log ++ more
      match written with
      | .error e => return (log, .error e)
      | .ok _ =>
        let (more, written) ← writeClassFile d p f
        return (log ++ more, written)

/-- Why the program of a source file could not be had. -/
inductive SourceError where
  /-- The file is missing. -/
  | missing (error : MissingFile)
  /-- The text is no program. -/
  | syntactic (error : CompileError)
  deriving Repr, Inhabited

/-- The wording of an error. -/
def SourceError.message : SourceError → String
  | missing error => s!"parser: open {error.path}: {error.message}"
  | syntactic error => error.message

/-- The program of a source file. -/
def readProgram (path : String) : m (Except SourceError Program) := do
  match ← MonadFiles.readFile path with
  | .error e => return .error (.missing e)
  | .ok text => return (Program.ofText text).mapError .syntactic

end Classwright
