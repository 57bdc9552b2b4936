import Classwright.ClassFile.Writer
import Classwright.Emit.Code

/-!
# Emitting class files

One field for each constant and variable, one method for each procedure, and the constructor last.
-/

namespace Classwright

namespace PoolBuilder

/-- The index of a string that must be in the pool. -/
def utf8Index (pool : PoolBuilder) (text : Text) : Except EmitError UInt16 :=
  match pool.utf8s[text]? with
  | some index => .ok index
  | none => .error (.noUtf8Entry text)

/-- A field or method without attributes. -/
def member (pool : PoolBuilder) (flags : UInt16) (name descriptor : Text) :
    Except EmitError Member := do
  let nameIndex ← pool.utf8Index name
  let descriptorIndex ← pool.utf8Index descriptor
  return { flags, name := nameIndex, descriptor := descriptorIndex }

/-- A method with its body. -/
def method (pool : PoolBuilder) (flags : UInt16) (name descriptor : Text) (code : MethodCode) :
    Except EmitError Member := do
  let m ← pool.member flags name descriptor
  let attributeName ← pool.utf8Index ClassFile.codeAttribute
  return { m with attributes := [⟨attributeName, code.encode⟩] }

/-- The flags of the field of a variable and of the method of a procedure. -/
def staticFlags : UInt16 := ClassFile.publicFlag ||| ClassFile.staticFlag

/-- The flags of the field of a constant. -/
def constantFlags : UInt16 := staticFlags ||| ClassFile.finalFlag

/-- The field of a declaration; procedures and parameters have none. -/
def field? (pool : PoolBuilder) (d : Declaration) : Except EmitError (Option Member) := do
  match d.kind with
  | .constant =>
    let m ← pool.member constantFlags d.name ClassFile.intDescriptor
    let attributeName ← pool.utf8Index ClassFile.constantValueAttribute
    match pool.integers[d.value]? with
    | none => .error (.noIntegerEntry d.name)
    | some index =>
      return some { m with attributes := [⟨attributeName, BigEndian.two index.toNat⟩] }
  | .var =>
    let m ← pool.member staticFlags d.name ClassFile.intDescriptor
    return some m
  | _ => return none

end PoolBuilder

namespace Program

/-- The fields of the class, in the order of the declarations. -/
def fields (p : Program) (pool : PoolBuilder) : Except EmitError (List Member) := do
  let fields ← (p.members.filterMap p.decl?).mapM pool.field?
  return fields.filterMap id

/-- The method of a procedure. -/
def procedureMethod (p : Program) (pool : PoolBuilder) (d : Declaration) :
    Except EmitError Member := do
  let code ← EmitContext.procedureCode p pool d
  pool.method PoolBuilder.staticFlags d.name d.descriptor code

/-- The methods of the class, in the order of the declarations, and its constructor. -/
def methods (p : Program) (pool : PoolBuilder) : Except EmitError (List Member) := do
  let methods ← (p.procedures.filterMap p.decl?).mapM (p.procedureMethod pool)
  let code ← EmitContext.constructorCode p pool
  let constructor ←
    pool.method ClassFile.publicFlag ClassFile.initName ClassFile.initDescriptor code
  return methods ++ [constructor]

/-- The class file of a checked program. -/
def classFile (p : Program) : Except EmitError ClassFile := do
  let pool ← PoolBuilder.ofProgram p
  let fields ← p.fields pool
  let methods ← p.methods pool
  return {
    minor := ClassFile.minorVersion
    major := ClassFile.majorVersion
    pool := pool.entries
    flags := ClassFile.publicFlag
    this := pool.this
    super := pool.super
    fields
    methods }

end Program

end Classwright
