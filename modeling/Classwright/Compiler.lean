import Classwright.Check.Analysis
import Classwright.Check.Resolution
import Classwright.Emit.ClassFile
import Classwright.Parser.Program

/-!
# Compilation

The whole way from a source text to a class file: parsing, reachability, name resolution, analysis
and emission.  The first error stops it.  A log tells which stages were reached.
-/

namespace Classwright

/-- What a compilation yields. -/
structure Build where
  /-- The lines of the log. -/
  log : List String
  /-- The program with its names linked and its class file, or the first error. -/
  result : Except EmitError (Program × ClassFile)

namespace Build

/-- Emits the class file of a checked program. -/
def emit (log : List String) (p : Program) : Build :=
  let log := log ++ ["compiler: start generate codes"]
  match p.classFile with
  | .error e => ⟨log, .error e⟩
  | .ok f =>
    ⟨log ++ [s!"compiler: generated {f.pool.size} constants, {f.fields.length} fields, " ++
      s!"{f.methods.length} methods"], .ok (p, f)⟩

/-- Links the names of a program and checks it, and goes on if it passes. -/
def check (log : List String) (p : Program) : Build :=
  let log := log ++ ["compiler: start name resolution"]
  match p.resolve with
  | (_, some e) => ⟨log, .error (.compile e)⟩
  | (p, none) =>
    let log := log ++ ["compiler: start semantic analysis"]
    match p.analyze with
    | .error e => ⟨log, .error (.compile e)⟩
    | .ok _ => emit log p

/-- Compiles a source text. -/
def ofText (text : Text) : Build :=
  match Program.ofText text with
  | .error e => ⟨[], .error (.compile e)⟩
  | .ok p =>
    let log := [s!"compiler: parsed class {p.name.shown} with {p.decls.size} declarations",
      "compiler: start reachability check"]
    match p.checkReachability with
    | .error e => ⟨log, .error (.compile e)⟩
    | .ok _ => check log p

end Build

end Classwright
