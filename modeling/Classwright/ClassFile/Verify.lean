import Std.Data.HashSet
import Classwright.ClassFile.Reader

/-!
# Verifying class files

Structural checks: every index refers to a pool entry of the kind its place asks for, every branch
goes to an instruction of its method, every explicit local slot exists, and no method can run past
its last instruction.
-/

namespace Classwright

namespace ClassFile

/-- Refuses an index that does not refer to an entry of a given kind. -/
def expectTag (f : ClassFile) (index : UInt16) (tag : Tag) : Except ClassFileError Unit := do
  let c ← f.constant index
  if c.tag = tag then .ok () else .error (.wrongTag index c.tag tag)

/-- Checks what a pool entry refers to. -/
def verifyConstant (f : ClassFile) : Constant → Except ClassFileError Unit
  | .classRef name => f.expectTag name .utf8
  | .nameAndType name descriptor => do
    f.expectTag name .utf8
    f.expectTag descriptor .utf8
  | .fieldRef owner signature | .methodRef owner signature => do
    f.expectTag owner .classRef
    f.expectTag signature .nameAndType
  | _ => .ok ()

/-- Checks pool entries, of which the first has the index `index`. -/
def verifyConstants (f : ClassFile) (index : Nat) : List Constant → Except ClassFileError Unit
  | [] => .ok ()
  | c :: rest =>
    match f.verifyConstant c with
    | .error e => .error (.inConstant index e)
    | .ok _ => f.verifyConstants (index + 1) rest

/-- Checks the indexes of a field or method. -/
def verifyMember (f : ClassFile) (m : Member) : Except ClassFileError Unit := do
  f.expectTag m.name .utf8
  f.expectTag m.descriptor .utf8
  m.attributes.forM fun a => f.expectTag a.name .utf8

/-- Checks a field and the value of a constant. -/
def verifyField (f : ClassFile) (m : Member) : Except ClassFileError Unit := do
  f.verifyMember m
  match f.attribute? m constantValueAttribute with
  | none => .ok ()
  | some a =>
    match a.data with
    | [x, y] => f.expectTag (UInt16.ofNat (BigEndian.ofTwo x y)) .integer
    | data => .error (.constantValueLength data.length)

/-- Checks an instruction of a method whose instructions start at `starts`. -/
def verifyInstruction (f : ClassFile) (maxLocals : UInt16) (starts : Std.HashSet Nat)
    (pc : Nat) (i : Instruction) : Except ClassFileError Unit := do
  match i.op.poolTag? with
  | none => .ok ()
  | some tag =>
    match f.expectTag (UInt16.ofNat i.operand.toNat) tag with
    | .ok _ => .ok ()
    | .error e => .error (.atPc pc e)
  if i.op.operand = .slot ∧ (maxLocals.toNat : Int) ≤ i.operand then
    .error (.atPc pc (.slotOutside i.operand maxLocals))
  let target := i.target pc
  if i.op.isBranch ∧ ¬ (0 ≤ target ∧ starts.contains target.toNat) then
    .error (.atPc pc (.branchTarget target))

/-- Whether control cannot go on behind an instruction. -/
def endsCode (i : Instruction) : Bool :=
  i.op == .vreturn || i.op == .ireturn || i.op == .goto

/-- Checks the body of a method. -/
def verifyCode (f : ClassFile) (m : MethodCode) : Except ClassFileError Unit := do
  if m.code.isEmpty then .error .emptyCode
  match Code.decode m.code with
  | .error e => .error (.code e)
  | .ok code =>
    let located := Code.locate 0 code
    let starts := Std.HashSet.ofList (located.map Prod.fst)
    located.forM fun (pc, i) => f.verifyInstruction m.maxLocals starts pc i
    match code.getLast? with
    | some i => if endsCode i then .ok () else .error .fallsOff
    | none => .error .emptyCode

/-- Checks a method. -/
def verifyMethod (f : ClassFile) (m : Member) : Except ClassFileError Unit := do
  f.verifyMember m
  let code ← f.methodCode m
  let (name, _) ← f.memberName m
  match f.verifyCode code with
  | .ok _ => .ok ()
  | .error e => .error (.inMethod name e)

/-- Checks a class file. -/
def verify (f : ClassFile) : Except ClassFileError Unit := do
  if f.major ≠ majorVersion ∨ f.minor ≠ minorVersion then .error (.badVersion f.major f.minor)
  f.verifyConstants 1 f.pool.toList
  f.expectTag f.this .classRef
  f.expectTag f.super .classRef
  f.fields.forM f.verifyField
  f.methods.forM f.verifyMethod

end ClassFile

end Classwright
