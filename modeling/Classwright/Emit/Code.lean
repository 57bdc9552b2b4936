import Std.Data.HashMap
import Classwright.Emit.Pool
import Classwright.Tree.Flow

/-!
# Emitting code

The instructions of statements and expressions.  An expression leaves its value on the stack, a
statement leaves the stack as it found it.  Parameters and local variables live in slots in the
order of their declarations; a constant is replaced by its value.

Branches are laid out as

    if:     iconst_1, condition, if_icmpeq to the then code, else code, goto end, then code
    while:  iconst_0, condition, if_icmpeq to the end, body, goto the start

where the `goto` behind an else code that never completes is left out.  A comparison in an
expression becomes a branch around `iconst_0` to `iconst_1`.
-/

namespace Classwright

/-- What the code of a procedure depends on. -/
structure EmitContext where
  /-- The program. -/
  program : Program
  /-- Its complete pool. -/
  pool : PoolBuilder
  /-- The name of the procedure. -/
  procedure : Text := []
  /-- The slot of each parameter and local variable. -/
  slots : Std.HashMap DeclId Nat := {}
  deriving Inhabited

namespace EmitContext

/-- The instruction that pushes a number. -/
def push (c : EmitContext) (value : Int32) (place : Position) : Except EmitError Instruction :=
  if fitsByte value.toInt then
    .ok { op := .bipush, operand := value.toInt }
  else if fitsShortPush value.toInt then
    .ok { op := .sipush, operand := value.toInt }
  else
    match c.pool.integers[value]? with
    | none => .error (.noLiteralEntry value place)
    | some index =>
      .ok { op := if index ≤ 0xFF then .ldc else .ldcW, operand := index.toNat }

/-- The index of the reference to a declaration. -/
def reference (c : EmitContext) (link : Option DeclId) : Except EmitError Int :=
  match link.bind fun id => c.pool.refs[id]? with
  | some index => .ok index.toNat
  | none => .error (.noReference ((link.map c.program.nameOf).getD []))

/-- The slot of a parameter or local variable. -/
def slot? (c : EmitContext) (link : Option DeclId) : Option Nat :=
  link.bind fun id => c.slots[id]?

end EmitContext

/-- The instruction that loads a slot. -/
def loadSlot : Nat → Instruction
  | 0 => { op := .iload0 }
  | 1 => { op := .iload1 }
  | 2 => { op := .iload2 }
  | 3 => { op := .iload3 }
  | slot => { op := .iload, operand := slot, wide := 0xFF < slot }

/-- The instruction that stores to a slot. -/
def storeSlot : Nat → Instruction
  | 0 => { op := .istore0 }
  | 1 => { op := .istore1 }
  | 2 => { op := .istore2 }
  | 3 => { op := .istore3 }
  | slot => { op := .istore, operand := slot, wide := 0xFF < slot }

/-- Leaves 1 on the stack if the branch `op` is taken, otherwise 0. -/
def comparisonCode (op : Opcode) : Code :=
  [{ op, operand := 7 }, { op := .iconst0 }, { op := .goto, operand := 4 }, { op := .iconst1 }]

/-- The instructions of an operator behind those of its operands. -/
def operatorCode? : Operator → Option Code
  | .assign => none
  | .add => some [{ op := .iadd }]
  | .subtract => some [{ op := .isub }]
  | .multiply => some [{ op := .imul }]
  | .divide => some [{ op := .idiv }]
  | .equal => some (comparisonCode .ifEq)
  | .less => some (comparisonCode .ifLt)
  | .lessEqual => some (comparisonCode .ifLe)
  | .greater => some (comparisonCode .ifGt)
  | .greaterEqual => some (comparisonCode .ifGe)

/-- A branch over a given distance, if that fits. -/
def branchTo (op : Opcode) (distance : Int) (place : Position) : Except EmitError Instruction :=
  if fitsBranch distance then .ok { op, operand := distance }
  else .error (.compile ⟨.branchOffsetOutOfRange op distance, place⟩)

namespace EmitContext

/-- The instruction that reads a name. -/
def readName (c : EmitContext) (link : Option DeclId) (place : Position) :
    Except EmitError Instruction :=
  match link.bind c.program.decl? with
  | some { kind := .constant, value, .. } => c.push value place
  | _ =>
    match c.slot? link with
    | some slot => .ok (loadSlot slot)
    | none => do
      let index ← c.reference link
      return { op := .getStatic, operand := index }

/-- The instruction that writes a name. -/
def writeName (c : EmitContext) (link : Option DeclId) : Except EmitError Instruction :=
  match c.slot? link with
  | some slot => .ok (storeSlot slot)
  | none => do
    let index ← c.reference link
    return { op := .putStatic, operand := index }

/-- The instruction that calls a procedure. -/
def invocation (c : EmitContext) (link : Option DeclId) : Except EmitError Instruction := do
  let index ← c.reference link
  return { op := .invokeStatic, operand := index }

/-- An instruction in front of the code that follows it.  Of two errors the one of the instruction
counts, which stands further to the left. -/
def prepend (i : Except EmitError Instruction) (rest : Except EmitError Code) :
    Except EmitError Code := do
  let i ← i
  let code ← rest
  return i :: code

/-- The instructions of an operator in front of the code that follows them. -/
def operatorOnto (op : Operator) (place : Position) (rest : Except EmitError Code) :
    Except EmitError Code :=
  match operatorCode? op with
  | some code => rest.map (code ++ ·)
  | none => .error (.unexpectedOperator op place)

mutual

/-- The code of an expression in front of the code that follows it. -/
def expression (c : EmitContext) : Node → (rest : Except EmitError Code) → Except EmitError Code
  | .literal value place, rest => prepend (c.push value place) rest
  | .name _ link place, rest => prepend (c.readName link place) rest
  | .call _ arguments link _, rest => expressions c arguments (prepend (c.invocation link) rest)
  | .binary op left right place, rest =>
    expression c left (expression c right (operatorOnto op place rest))
  | node, _ => .error (.unexpectedExpression node.form node.position)

/-- The code of arguments, one after the other, in front of the code that follows them. -/
def expressions (c : EmitContext) :
    List Node → (rest : Except EmitError Code) → Except EmitError Code
  | [], rest => rest
  | e :: others, rest => expression c e (expressions c others rest)

end

/-- The code of an `if` around the code of its parts.  `joins` tells whether the else code can
complete and so must skip the then code. -/
def branchCode (condition thenCode elseCode : Code) (joins : Bool) (place : Position) :
    Except EmitError Code := do
  let skip ← branchTo .ifEq (elseCode.size + if joins then 6 else 3) place
  let join ←
    if joins then do
      let i ← branchTo .goto (thenCode.size + 3) place
      pure [i]
    else
      pure []
  return { op := .iconst1 } :: (condition ++ (skip :: (elseCode ++ (join ++ thenCode))))

/-- The code of a `while` around the code of its parts. -/
def loopCode (condition body : Code) (place : Position) : Except EmitError Code := do
  let leave ← branchTo .ifEq (body.size + 6) place
  let again ← branchTo .goto (-(body.size + 3 + condition.size + 1 : Int)) place
  return { op := .iconst0 } :: (condition ++ (leave :: (body ++ [again])))

mutual

/-- The code of a statement. -/
def statement (c : EmitContext) : Node → Except EmitError Code
  | .binary .assign (.name _ link _) right _ =>
    c.expression right (prepend (c.writeName link) (.ok []))
  | .call callee arguments link place =>
    c.expression (.call callee arguments link place)
      (.ok (if c.program.returnsValue link then [{ op := .pop }] else []))
  | .exit .absent _ => .ok [{ op := .vreturn }]
  | .exit value _ => c.expression value (.ok [{ op := .ireturn }])
  | .branch condition thenBlock elseBlock place => do
    let condition ← c.expression condition (.ok [])
    let thenCode ← statement c thenBlock
    let elseCode ← statement c elseBlock
    branchCode condition thenCode elseCode elseBlock.completes place
  | .loop condition body place => do
    let condition ← c.expression condition (.ok [])
    let body ← statement c body
    loopCode condition body place
  | .block body _ => statements c 0 body
  | .absent => .ok []
  | node => .error (.unexpectedStatement node.form node.position)

/-- The code of statements behind `used` bytes of the same block; it fails at the statement with
which the block grows beyond the limit. -/
def statements (c : EmitContext) (used : Nat) : List Node → Except EmitError Code
  | [] => .ok []
  | s :: rest => do
    let code ← statement c s
    let used := used + code.size
    if maxCodeLength < used then
      .error (.compile ⟨.methodExceedsLimit c.procedure, s.position⟩)
    else do
      let others ← statements c used rest
      return code ++ others

end

end EmitContext

/-! ### Stack depth -/

namespace Program

mutual

/-- The highest stack that evaluating an expression reaches. -/
def exprStack (p : Program) : Node → Nat
  | .literal _ _ | .name _ _ _ => 1
  | .binary _ left right _ => max (exprStack p left) (1 + exprStack p right)
  | .call _ arguments link _ =>
    max (argumentStack p 0 arguments) (if p.returnsValue link then 1 else 0)
  | _ => 0

/-- The highest stack that evaluating arguments reaches on top of `below` earlier ones. -/
def argumentStack (p : Program) (below : Nat) : List Node → Nat
  | [] => 0
  | e :: rest => max (below + exprStack p e) (argumentStack p (below + 1) rest)

end

mutual

/-- The highest stack that running a statement reaches. -/
def stmtStack (p : Program) : Node → Nat
  | .binary _ _ right _ => p.exprStack right
  | .call callee arguments link place => p.exprStack (.call callee arguments link place)
  | .exit value _ => p.exprStack value
  | .branch condition thenBlock elseBlock _ =>
    max (1 + p.exprStack condition) (max (stmtStack p thenBlock) (stmtStack p elseBlock))
  | .loop condition body _ => max (1 + p.exprStack condition) (stmtStack p body)
  | .block statements _ => stmtsStack p statements
  | _ => 0

/-- The highest stack that running statements reaches. -/
def stmtsStack (p : Program) : List Node → Nat
  | [] => 0
  | s :: rest => max (stmtStack p s) (stmtsStack p rest)

end

end Program

/-! ### Methods -/

namespace EmitContext

/-- Numbers declarations by their place in a list; the last place of a declaration counts. -/
def slotsOf (ids : List DeclId) : Std.HashMap DeclId Nat :=
  (ids.foldl (fun (slots, n) id => (slots.insert id n, n + 1))
    (({} : Std.HashMap DeclId Nat), 0)).1

/-- What is appended to a body that can complete: a return, of 0 if a number is returned. -/
def tail (d : Declaration) : Code :=
  if d.body.completes then
    match d.type with
    | .void => [{ op := .vreturn }]
    | .int => [{ op := .iconst0 }, { op := .ireturn }]
  else
    []

/-- The body of a procedure. -/
def procedureCode (p : Program) (pool : PoolBuilder) (d : Declaration) :
    Except EmitError MethodCode := do
  let slots := slotsOf (p.localsOf d)
  let body ← ({ program := p, pool, procedure := d.name, slots } : EmitContext).statement d.body
  let code := body ++ tail d
  let maxStack := max (p.stmtStack d.body) (if d.body.completes && d.type == .int then 1 else 0)
  if maxCodeLength < code.size then
    .error (.compile ⟨.methodTooLong d.name code.size, d.position⟩)
  else
    return ⟨UInt16.ofNat maxStack, UInt16.ofNat slots.size, code.encode⟩

/-- The code that stores constants into their fields. -/
def storeConstants (c : EmitContext) : List DeclId → Except EmitError Code
  | [] => .ok []
  | id :: rest =>
    match c.program.decl? id with
    | none => storeConstants c rest
    | some d => do
      let value ← c.push d.value d.position
      let index ← c.reference (some id)
      let others ← storeConstants c rest
      return value :: { op := .putStatic, operand := index } :: others

/-- The body of the constructor, which calls the constructor of the class it extends and stores
the constants. -/
def constructorCode (p : Program) (pool : PoolBuilder) : Except EmitError MethodCode := do
  let c : EmitContext := { program := p, pool }
  let stores ← c.storeConstants p.constants
  let code : Code := { op := .aload0 } ::
    { op := .invokeSpecial, operand := pool.superInit.toNat } :: (stores ++ [{ op := .vreturn }])
  if maxCodeLength < code.size then
    .error (.compile ⟨.constructorTooLong code.size, p.position⟩)
  else
    return ⟨1, 1, code.encode⟩

end EmitContext

end Classwright
