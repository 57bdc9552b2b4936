import Classwright.Check.Assignment
import Classwright.Check.Values
import Classwright.Tree.Flow

/-!
# Analysis of programs

Each procedure is checked in this order: values, unreachable statements, a return on every path if
it returns a number, and definite assignment.
-/

namespace Classwright

namespace Program

/-- Runs a check on procedures one after the other, up to the first error. -/
def forProcedures (p : Program) (check : Declaration → Except CompileError Unit) :
    Except CompileError Unit :=
  (p.procedures.filterMap p.decl?).forM check

/-- Refuses the first statement that follows a terminating one.  Only the shape of the trees
matters, so names need not be linked. -/
def checkReachability (p : Program) : Except CompileError Unit :=
  p.forProcedures fun d => d.body.checkReachableIn

/-- Refuses a procedure that returns a number if control can reach its end. -/
def checkReturns (d : Declaration) : Except CompileError Unit :=
  if d.type == .int && !d.body.terminates then .error ⟨.missingReturn d.name, d.position⟩
  else .ok ()

/-- All checks of one procedure. -/
def analyzeProcedure (p : Program) (d : Declaration) : Except CompileError Unit := do
  p.checkStatement d d.body
  d.body.checkReachableIn
  checkReturns d
  p.checkAssigned d

/-- All checks of a program whose names are linked. -/
def analyze (p : Program) : Except CompileError Unit :=
  p.forProcedures p.analyzeProcedure

end Program

end Classwright
