import Classwright.Program.Basic

/-!
# Value checks

Operands, arguments, conditions and assigned expressions must yield a value, only variables and
parameters may be assigned to, and every return statement must have a value exactly when its
procedure returns one.
-/

namespace Classwright

namespace Program

/-- Whether an expression that has passed `checkExpression` leaves a number behind.  An operation
does, since it passes only with operands that do. -/
def yieldsValue (p : Program) : Node → Bool
  | .literal _ _ | .name _ _ _ | .binary _ _ _ _ => true
  | .call _ _ link _ => p.returnsValue link
  | _ => false

/-- Refuses a checked expression that yields no value. -/
def requireValue (p : Program) (node : Node) (cause : Cause) : Except CompileError Unit :=
  if p.yieldsValue node then .ok () else .error ⟨cause, node.position⟩

mutual

/-- Checks an expression from the inside out. -/
def checkExpression (p : Program) : Node → Except CompileError Unit
  | .binary .assign _ _ place => .error ⟨.assignmentInExpression, place⟩
  | .binary op left right _ => do
    checkExpression p left
    p.requireValue left (.operandYieldsNothing op)
    checkExpression p right
    p.requireValue right (.operandYieldsNothing op)
  | .call callee arguments _ _ => checkArguments p callee arguments
  | .exit _ place => .error ⟨.returnInExpression, place⟩
  | _ => .ok ()

/-- Checks the arguments of a call. -/
def checkArguments (p : Program) (callee : Text) : List Node → Except CompileError Unit
  | [] => .ok ()
  | e :: rest => do
    checkExpression p e
    p.requireValue e (.argumentYieldsNothing callee)
    checkArguments p callee rest

end

/-- Checks an assignment: first its right side, then its target. -/
def checkAssignment (p : Program) (target value : Node) (place : Position) :
    Except CompileError Unit := do
  p.checkExpression value
  p.requireValue value .assignedNothing
  match target with
  | .name id (some link) spot =>
    if p.hasKind .constant link then .error ⟨.assignToFinal id, spot⟩ else .ok ()
  | _ => .error ⟨.assignedToNoVariable, place⟩

/-- Checks a return statement of a procedure. -/
def checkExit (p : Program) (procedure : Declaration) (value : Node) (place : Position) :
    Except CompileError Unit := do
  p.checkExpression value
  match procedure.type with
  | .void =>
    if value.isPresent then .error ⟨.unexpectedReturnValue procedure.name, place⟩ else .ok ()
  | .int =>
    if p.yieldsValue value then .ok () else .error ⟨.missingReturnValue procedure.name, place⟩

/-- Checks a condition. -/
def checkCondition (p : Program) (condition : Node) : Except CompileError Unit := do
  p.checkExpression condition
  p.requireValue condition .conditionYieldsNothing

mutual

/-- Checks a statement of a procedure. -/
def checkStatement (p : Program) (procedure : Declaration) : Node → Except CompileError Unit
  | .binary .assign left right place => p.checkAssignment left right place
  | .exit value place => p.checkExit procedure value place
  | .branch condition thenBlock elseBlock _ => do
    p.checkCondition condition
    checkStatement p procedure thenBlock
    checkStatement p procedure elseBlock
  | .loop condition body _ => do
    p.checkCondition condition
    checkStatement p procedure body
  | .block statements _ => checkStatements p procedure statements
  | node => p.checkExpression node

/-- Checks several statements of a procedure. -/
def checkStatements (p : Program) (procedure : Declaration) :
    List Node → Except CompileError Unit
  | [] => .ok ()
  | s :: rest => do
    checkStatement p procedure s
    checkStatements p procedure rest

end

end Program

end Classwright
