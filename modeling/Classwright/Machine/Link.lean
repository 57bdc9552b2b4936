import Std.Data.HashMap
import Classwright.ClassFile.Reader
import Classwright.Machine.Error
import Classwright.Operator

/-!
# Linking classes

Before a class runs, each instruction is turned into an operation in which pool indexes, branch
targets, fields and methods are resolved.  What cannot be resolved becomes an operation that fails
when it is reached, so that a fault in code that never runs does no harm.
-/

namespace Classwright

/-- What a method takes and returns, as far as the machine knows: numbers only. -/
structure MethodType where
  /-- The number of parameters. -/
  params : Nat
  /-- Whether it returns a number. -/
  returnsInt : Bool
  deriving Repr, DecidableEq, Inhabited

namespace MethodType

/-- The type that a descriptor `(I…)I` or `(I…)V` stands for. -/
def ofDescriptor (text : Text) : Except MachineError MethodType :=
  let bad : Except MachineError MethodType := .error (.badCode (.descriptor text))
  match text with
  | 0x28 :: rest =>
    let params := rest.takeWhile (· != 0x29)
    if params.all (· == 0x49) then
      match rest.drop params.length with
      | [0x29, 0x49] => .ok ⟨params.length, true⟩
      | [0x29, 0x56] => .ok ⟨params.length, false⟩
      | _ => bad
    else
      bad
  | _ => bad

/-- The descriptor of a type. -/
def descriptor (t : MethodType) : Text :=
  procedureDescriptor t.params (if t.returnsInt then .int else .void)

end MethodType

/-- The comparison a conditional branch makes. -/
inductive Test where
  | equal | notEqual | less | greaterEqual | greater | lessEqual
  deriving Repr, DecidableEq, Inhabited

/-- Whether a comparison of two numbers holds. -/
def Test.holds (t : Test) (left right : Int32) : Bool :=
  match t with
  | equal => left == right
  | notEqual => left != right
  | less => decide (left < right)
  | greaterEqual => decide (left ≥ right)
  | greater => decide (left > right)
  | lessEqual => decide (left ≤ right)

/-- A linked instruction. -/
inductive Operation where
  /-- Pushes a number. -/
  | push (value : Int32)
  /-- Pushes the value of a slot. -/
  | load (slot : Nat)
  /-- Stores the top of the stack into a slot. -/
  | store (slot : Nat)
  /-- Drops the top of the stack. -/
  | pop
  /-- Computes with the two topmost values. -/
  | arithmetic (op : Operator)
  /-- Goes on at another operation if a comparison of the two topmost values holds. -/
  | branch (test : Test) (target : Except MachineError Nat)
  /-- Goes on at another operation. -/
  | jump (target : Except MachineError Nat)
  /-- Returns the top of the stack. -/
  | returnValue
  /-- Returns nothing. -/
  | returnNothing
  /-- Pushes the value of a field. -/
  | getField (field : Nat)
  /-- Stores the top of the stack into a field. -/
  | putField (field : Nat)
  /-- Calls the constructor of the extended class, which takes the receiver from the stack. -/
  | callSuper
  /-- Calls a method, which the reference gives the name `name`. -/
  | call (method : Nat) (name : Text)
  /-- Fails. -/
  | fail (error : MachineError)
  deriving Inhabited

/-- A linked method. -/
structure Method where
  /-- Its name. -/
  name : Text
  /-- Its descriptor. -/
  descriptor : Text
  /-- What it takes and returns. -/
  type : MethodType
  /-- How many values its stack may hold. -/
  maxStack : Nat
  /-- How many local slots it has. -/
  maxLocals : Nat
  /-- Its instructions with the pc each starts at. -/
  source : Array (Nat × Instruction)
  /-- Its operations, one for each instruction. -/
  operations : Array Operation
  deriving Inhabited

/-- A method that is decoded and not yet linked. -/
structure RawMethod where
  /-- Its name. -/
  name : Text
  /-- Its descriptor. -/
  descriptor : Text
  /-- What it takes and returns. -/
  type : MethodType
  /-- Its limits and bytes. -/
  body : MethodCode
  /-- Its instructions. -/
  code : Code
  deriving Inhabited

/-- The names that instructions refer to. -/
structure LinkContext where
  /-- The class file. -/
  file : ClassFile
  /-- The name of the class. -/
  className : Text
  /-- The number of each field, by its name. -/
  fields : Std.HashMap Text Nat
  /-- The number of each method, by its name and descriptor put together. -/
  methods : Std.HashMap Text Nat
  deriving Inhabited

namespace LinkContext

/-- The pool entry of a given kind with an index. -/
def constant (f : ClassFile) (index : Nat) (tag : Tag) : Except MachineError Constant :=
  if index = 0 ∨ 0xFFFF < index then
    .error (.badCode (.poolIndex index))
  else
    match f.constant (UInt16.ofNat index) with
    | .error e => .error (.badCode (.pool e))
    | .ok c => if c.tag = tag then .ok c else .error (.badCode (.wrongTag index c.tag tag))

/-- The number with an index. -/
def integer (f : ClassFile) (index : Nat) : Except MachineError Int32 := do
  let c ← constant f index .integer
  return c.number

/-- An error in the pool as an error of the code that uses it. -/
def inPool {α : Type} (r : Except ClassFileError α) : Except MachineError α :=
  match r with
  | .ok a => .ok a
  | .error e => .error (.badCode (.pool e))

/-- The class, the name and the descriptor of a field or method with an index. -/
def memberRef (f : ClassFile) (index : Nat) (tag : Tag) :
    Except MachineError (Text × Text × Text) := do
  match ← constant f index tag with
  | .fieldRef owner signature | .methodRef owner signature =>
    let owner ← inPool (f.className owner)
    match ← constant f signature.toNat .nameAndType with
    | .nameAndType name descriptor =>
      let name ← inPool (f.utf8At name)
      let descriptor ← inPool (f.utf8At descriptor)
      return (owner, name, descriptor)
    | c => .error (.badCode (.wrongTag signature.toNat c.tag .nameAndType))
  | c => .error (.badCode (.wrongTag index c.tag tag))

/-- The field with an index. -/
def field (c : LinkContext) (index : Nat) : Except MachineError Nat := do
  let (owner, name, _) ← memberRef c.file index .fieldRef
  match c.fields[name]? with
  | some n => if owner = c.className then .ok n else .error (.badCode (.noField owner name))
  | none => .error (.badCode (.noField owner name))

/-- The method with an index, and its name. -/
def method (c : LinkContext) (index : Nat) : Except MachineError (Nat × Text) := do
  let (owner, name, descriptor) ← memberRef c.file index .methodRef
  match c.methods[name ++ descriptor]? with
  | some n =>
    if owner = c.className then .ok (n, name)
    else .error (.noMethod (.static owner name descriptor))
  | none => .error (.noMethod (.static owner name descriptor))

/-- Refuses an index other than that of the constructor of the extended class. -/
def superInit (c : LinkContext) (index : Nat) : Except MachineError Unit := do
  let (owner, name, descriptor) ← memberRef c.file index .methodRef
  if owner = ClassFile.objectClass ∧ name = ClassFile.initName ∧
      descriptor = ClassFile.initDescriptor then
    .ok ()
  else
    .error (.noMethod (.special owner name descriptor))

/-- The operation for a resolved operand, or the failure to resolve it. -/
def orFail {α : Type} (r : Except MachineError α) (f : α → Operation) : Operation :=
  match r with
  | .ok a => f a
  | .error e => .fail e

/-- The operation a branch at `pc` goes to, when operations start at `starts`. -/
def target (m : RawMethod) (starts : Std.HashMap Nat Nat) (pc : Nat) (i : Instruction) :
    Except MachineError Nat :=
  let pcTarget := i.target pc
  let missing : Except MachineError Nat := .error (.badCode (.branch m.name pc pcTarget))
  if pcTarget < 0 then missing
  else
    match starts[pcTarget.toNat]? with
    | some n => .ok n
    | none => missing

/-- The operation of an instruction at `pc`. -/
def operation (c : LinkContext) (m : RawMethod) (starts : Std.HashMap Nat Nat) (pc : Nat)
    (i : Instruction) : Operation :=
  let index := i.operand.toNat
  match i.op with
  | .iconst0 | .aload0 => .push 0
  | .iconst1 => .push 1
  | .bipush | .sipush => .push (Int32.ofInt i.operand)
  | .ldc | .ldcW => orFail (integer c.file index) .push
  | .iload => .load index
  | .iload0 => .load 0
  | .iload1 => .load 1
  | .iload2 => .load 2
  | .iload3 => .load 3
  | .istore => .store index
  | .istore0 => .store 0
  | .istore1 => .store 1
  | .istore2 => .store 2
  | .istore3 => .store 3
  | .pop => .pop
  | .iadd => .arithmetic .add
  | .isub => .arithmetic .subtract
  | .imul => .arithmetic .multiply
  | .idiv => .arithmetic .divide
  | .ifEq => .branch .equal (target m starts pc i)
  | .ifNe => .branch .notEqual (target m starts pc i)
  | .ifLt => .branch .less (target m starts pc i)
  | .ifGe => .branch .greaterEqual (target m starts pc i)
  | .ifGt => .branch .greater (target m starts pc i)
  | .ifLe => .branch .lessEqual (target m starts pc i)
  | .goto => .jump (target m starts pc i)
  | .ireturn =>
    if m.type.returnsInt then .returnValue else .fail (.badCode (.valueReturned m.name))
  | .vreturn =>
    if m.type.returnsInt then .fail (.badCode (.nothingReturned m.name)) else .returnNothing
  | .getStatic => orFail (c.field index) .getField
  | .putStatic => orFail (c.field index) .putField
  | .invokeSpecial => orFail (c.superInit index) fun _ => .callSuper
  | .invokeStatic => orFail (c.method index) fun (n, name) => .call n name
  | .wide | .unlisted _ => .fail (.badCode (.unsupported i.op))

/-- The number of the operation that starts at each pc. -/
def startsOf (located : List (Nat × Instruction)) : Std.HashMap Nat Nat :=
  (located.foldl (fun (starts, n) (pc, _) => (starts.insert pc n, n + 1))
    (({} : Std.HashMap Nat Nat), 0)).1

/-- Links a method. -/
def link (c : LinkContext) (m : RawMethod) : Method :=
  let located := Code.locate 0 m.code
  let starts := startsOf located
  { name := m.name
    descriptor := m.descriptor
    type := m.type
    maxStack := m.body.maxStack.toNat
    maxLocals := m.body.maxLocals.toNat
    source := located.toArray
    operations := (located.map fun (pc, i) => c.operation m starts pc i).toArray }

end LinkContext

end Classwright
