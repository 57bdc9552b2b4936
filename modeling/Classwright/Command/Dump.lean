import Classwright.ClassFile.Dump
import Classwright.ClassFile.Reader
import Classwright.ClassFile.Verify
import Classwright.Command.Basic
import Classwright.Files.Basic

/-!
# The command `classdump`

Checks a class file and prints what it holds.
-/

namespace Classwright.DumpCommand

/-- The options of the command. -/
structure Options where
  /-- The class file, if it is given by a flag. -/
  path : String := ""
  /-- Whether the instructions are printed. -/
  withCode : Bool := true
  /-- Whether the class file is checked before. -/
  verified : Bool := true
  deriving Repr, Inhabited

/-- The flags of the command. -/
def flags : List (Flag Options) :=
  [{ name := "code"
     purpose := "whether print the instructions of every method"
     kind := .switch true fun b o => { o with withCode := b } },
   { name := "i"
     purpose := "the class file to print"
     kind := .word "" fun s o => { o with path := s } },
   { name := "verify"
     purpose := "whether check constant pool tags and branch targets"
     kind := .switch true fun b o => { o with verified := b } }]

/-- The class file to print, if exactly one is named and a flag goes before an argument. -/
def Options.target? (o : Options) (arguments : List String) : Option String :=
  if !o.path.isEmpty then some o.path else
  match arguments with
  | [path] => if path.isEmpty then none else some path
  | _ => none

/-- Prints a class file that was read from its bytes. -/
def print (o : Options) (path : String) (bytes : Text) : Outcome :=
  match ClassFile.decode bytes with
  | .error e => { exit := 1, errors := s!"failed to parse file: {path}, err: {e.message}\n" }
  | .ok f =>
    match if o.verified then f.verify else .ok () with
    | .error e => { exit := 1, errors := s!"invalid class file: {e.message}\n" }
    | .ok _ =>
      match f.dump o.withCode with
      | .error e => { exit := 1, errors := s!"failed to print file: {e.message}\n" }
      | .ok text => { output := text }

variable {m : Type → Type} [Monad m] [MonadFiles m]

/-- Runs the command with the given words behind its name. -/
def run (words : List String) : m Outcome := do
  match Flag.read flags {} words with
  | .error e => return .ofFlagError (usageText "Usage of classdump:" flags) e
  | .ok (o, arguments) =>
    match o.target? arguments with
    | none =>
      return {
        exit := 2
        errors := "usage: classdump [-code=false] [-verify=false] <class file>\n" }
    | some path =>
      match ← MonadFiles.readFile path with
      | .error e =>
        return { exit := 1, errors := s!"failed to open file: {path}, err: {e.message}\n" }
      | .ok bytes => return print o path bytes

end Classwright.DumpCommand
