import Std.Data.HashSet
import Classwright.Program.Basic

/-!
# Definite assignment

Every read of a local variable must come behind an assignment to it on every path.  Parameters
start assigned, and the variables and constants of the class always have a value.
-/

namespace Classwright

/-- The local variables and parameters that are assigned on every path to some point. -/
abbrev AssignedSet := Std.HashSet DeclId

namespace Program

/-- The error for the name node of a local variable that may be unassigned. -/
def unassignedRead? (p : Program) (assigned : AssignedSet) : Node → Option CompileError
  | .name id (some link) place =>
    if p.isLocalVariable link && !assigned.contains link then
      some ⟨.maybeUninitialized id, place⟩
    else
      none
  | _ => none

/-- Refuses the first read of an unassigned local variable in a tree. -/
def checkReads (p : Program) (assigned : AssignedSet) (node : Node) : Except CompileError Unit :=
  match node.nodes.findSome? (p.unassignedRead? assigned) with
  | some e => .error e
  | none => .ok ()

mutual

/-- Checks the reads of a statement and yields what is assigned behind it.  Behind an `if` that is
what both branches assign, and what a loop's body assigns is dropped, since it may never run. -/
def assign (p : Program) (assigned : AssignedSet) : Node → Except CompileError AssignedSet
  | .binary .assign (.name _ link _) right _ => do
    p.checkReads assigned right
    match link with
    | some link => return assigned.insert link
    | none => return assigned
  | .binary _ left right _ => do
    p.checkReads assigned right
    p.checkReads assigned left
    return assigned
  | .branch condition thenBlock elseBlock _ => do
    p.checkReads assigned condition
    let thenAssigned ← assign p assigned thenBlock
    let elseAssigned ← assign p assigned elseBlock
    return thenAssigned.filter fun id => elseAssigned.contains id
  | .loop condition body _ => do
    p.checkReads assigned condition
    let _ ← assign p assigned body
    return assigned
  | .block statements _ => assignAll p assigned statements
  | node => do
    p.checkReads assigned node
    return assigned

/-- Checks several statements and yields what is assigned behind them. -/
def assignAll (p : Program) (assigned : AssignedSet) :
    List Node → Except CompileError AssignedSet
  | [] => .ok assigned
  | s :: rest => do
    let assigned ← assign p assigned s
    assignAll p assigned rest

end

/-- Checks the body of a procedure, whose parameters start assigned. -/
def checkAssigned (p : Program) (procedure : Declaration) : Except CompileError Unit := do
  let start : AssignedSet := Std.HashSet.ofList (procedure.params.filterMap id)
  let _ ← p.assign start procedure.body

end Program

end Classwright
