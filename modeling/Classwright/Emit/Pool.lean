import Std.Data.HashMap
import Classwright.ClassFile.Basic
import Classwright.Emit.Error
import Classwright.Program.Basic

/-!
# Building the constant pool

Entries are only ever appended.  Strings, numbers, classes and names with types are shared: adding
one that is there yields its index.  References to fields and methods are made once for each
declaration of the class.  A failed addition keeps what it added before it failed, and a frozen pool
takes no new entries.
-/

namespace Classwright

/-- A constant pool under construction. -/
structure PoolBuilder where
  /-- The entries; the first has index 1. -/
  entries : Array Constant := #[]
  /-- The index of each string. -/
  utf8s : Std.HashMap Text UInt16 := {}
  /-- The index of each number. -/
  integers : Std.HashMap Int32 UInt16 := {}
  /-- The index of each class, by its name. -/
  classes : Std.HashMap Text UInt16 := {}
  /-- The index of each name with a type, by the indexes of the two. -/
  signatures : Std.HashMap (UInt16 × UInt16) UInt16 := {}
  /-- The index of the reference to each declaration. -/
  refs : Std.HashMap DeclId UInt16 := {}
  /-- The index of the class itself. -/
  this : UInt16 := 0
  /-- The index of the class it extends. -/
  super : UInt16 := 0
  /-- The index of the constructor of the class it extends. -/
  superInit : UInt16 := 0
  /-- Whether the pool is complete. -/
  frozen : Bool := false
  deriving Inhabited

/-- Steps that add to a pool and may fail; what was added before a failure stays. -/
abbrev PoolM := EStateM EmitError PoolBuilder

namespace PoolBuilder

/-- Appends an entry and yields its index. -/
def add (c : Constant) : PoolM UInt16 := do
  let pool ← get
  if pool.frozen then
    throw .frozenPool
  else if maxPoolEntries ≤ pool.entries.size then
    throw (.compile ⟨.constantPoolOverflow, .unknown⟩)
  else
    let index := UInt16.ofNat (pool.entries.size + 1)
    modify fun pool => { pool with entries := pool.entries.push c }
    return index

/-- The index of a string, which is added unless it is there. -/
def addUtf8 (text : Text) : PoolM UInt16 := do
  match (← get).utf8s[text]? with
  | some index => return index
  | none =>
    let index ← add (.utf8 text)
    modify fun pool => { pool with utf8s := pool.utf8s.insert text index }
    return index

/-- The index of a number, which is added unless it is there. -/
def addInteger (value : Int32) : PoolM UInt16 := do
  match (← get).integers[value]? with
  | some index => return index
  | none =>
    let index ← add (.integer value)
    modify fun pool => { pool with integers := pool.integers.insert value index }
    return index

/-- The index of a class, which is added behind its name unless it is there. -/
def addClass (name : Text) : PoolM UInt16 := do
  match (← get).classes[name]? with
  | some index => return index
  | none =>
    let nameIndex ← addUtf8 name
    let index ← add (.classRef nameIndex)
    modify fun pool => { pool with classes := pool.classes.insert name index }
    return index

/-- The index of a name with a type, which is added behind the two unless it is there. -/
def addSignature (name descriptor : Text) : PoolM UInt16 := do
  let nameIndex ← addUtf8 name
  let descriptorIndex ← addUtf8 descriptor
  match (← get).signatures[(nameIndex, descriptorIndex)]? with
  | some index => return index
  | none =>
    let index ← add (.nameAndType nameIndex descriptorIndex)
    modify fun pool =>
      { pool with signatures := pool.signatures.insert (nameIndex, descriptorIndex) index }
    return index

/-- Appends a reference to a field. -/
def addFieldRef (owner : UInt16) (name descriptor : Text) : PoolM UInt16 := do
  let signature ← addSignature name descriptor
  add (.fieldRef owner signature)

/-- Appends a reference to a method. -/
def addMethodRef (owner : UInt16) (name descriptor : Text) : PoolM UInt16 := do
  let signature ← addSignature name descriptor
  add (.methodRef owner signature)

/-- Adds what a declaration of the class needs, last of all the reference to it. -/
def addMember (owner : UInt16) (d : Declaration) : PoolM UInt16 := do
  match d.kind with
  | .constant =>
    let _ ← addUtf8 d.name
    let _ ← addUtf8 ClassFile.intDescriptor
    let _ ← addInteger d.value
    let _ ← addUtf8 ClassFile.constantValueAttribute
    addFieldRef owner d.name ClassFile.intDescriptor
  | .var => addFieldRef owner d.name ClassFile.intDescriptor
  | .procedure => addMethodRef owner d.name d.descriptor
  | .parameter => throw (.unexpectedMember d.kind d.name)

/-- Adds what the declarations of the class need, in order. -/
def addMembers (p : Program) (owner : UInt16) : List DeclId → PoolM Unit
  | [] => return
  | id :: rest => do
    match p.decl? id with
    | none => addMembers p owner rest
    | some d =>
      let ref ← addMember owner d
      modify fun pool => { pool with refs := pool.refs.insert id ref }
      addMembers p owner rest

/-- The numbers of a tree that must be loaded from the pool, in order. -/
def poolLiterals (body : Node) : List Int32 :=
  body.nodes.filterMap fun
    | .literal value _ => if fitsShortPush value.toInt then none else some value
    | _ => none

/-- Adds several numbers, in order. -/
def addIntegers : List Int32 → PoolM Unit
  | [] => return
  | value :: rest => do
    let _ ← addInteger value
    addIntegers rest

/-- Adds everything the class file of a program needs: the class, the class it extends, its
declarations in order, the constructor of the class it extends, the numbers of its trees, and the
name of the code attribute. -/
def addProgram (p : Program) : PoolM Unit := do
  let this ← addClass p.name
  modify fun pool => { pool with this }
  let super ← addClass ClassFile.objectClass
  modify fun pool => { pool with super }
  addMembers p this p.members
  let superInit ← addMethodRef super ClassFile.initName ClassFile.initDescriptor
  modify fun pool => { pool with superInit }
  addIntegers ((p.procedures.filterMap p.decl?).flatMap fun d => poolLiterals d.body)
  let _ ← addUtf8 ClassFile.codeAttribute
  modify fun pool => { pool with frozen := true }

/-- The complete pool of a program. -/
def ofProgram (p : Program) : Except EmitError PoolBuilder :=
  match (addProgram p).run {} with
  | .ok _ pool => .ok pool
  | .error e _ => .error e

end PoolBuilder

end Classwright
