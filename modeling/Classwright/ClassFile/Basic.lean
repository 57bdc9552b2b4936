import Classwright.Bytecode.Instruction
import Classwright.Declaration

/-!
# Class files

A class file in memory: the constant pool, whose entries are numbered from 1, the class itself, and
its fields and methods with their attributes.
-/

namespace Classwright

/-- An entry of a constant pool.  Entries refer to each other by index. -/
inductive Constant where
  /-- A string. -/
  | utf8 (text : Text)
  /-- A number. -/
  | integer (value : Int32)
  /-- A class, by its name. -/
  | classRef (name : UInt16)
  /-- A field, by its class and its name and type. -/
  | fieldRef (owner signature : UInt16)
  /-- A method, by its class and its name and type. -/
  | methodRef (owner signature : UInt16)
  /-- A name with a descriptor. -/
  | nameAndType (name descriptor : UInt16)
  /-- An entry of another kind, with the indexes and the number it holds. -/
  | other (tag : UInt8) (first second : UInt16) (value : Int32)
  deriving Repr, DecidableEq, Inhabited

namespace Constant

/-- The tag of an entry. -/
def tag : Constant → Tag
  | utf8 _ => .utf8
  | integer _ => .integer
  | classRef _ => .classRef
  | fieldRef _ _ => .fieldRef
  | methodRef _ _ => .methodRef
  | nameAndType _ _ => .nameAndType
  | other b _ _ _ => .other b

/-- The number an entry holds, 0 if its kind holds none. -/
def number : Constant → Int32
  | integer value | other _ _ _ value => value
  | _ => 0

end Constant

/-- A named piece of data of a field or method. -/
structure Attribute where
  /-- The index of its name. -/
  name : UInt16
  /-- Its bytes. -/
  data : List UInt8
  deriving Repr, DecidableEq, Inhabited

/-- A field or method. -/
structure Member where
  /-- Its access flags. -/
  flags : UInt16 := 0
  /-- The index of its name. -/
  name : UInt16 := 0
  /-- The index of its descriptor. -/
  descriptor : UInt16 := 0
  /-- Its attributes. -/
  attributes : List Attribute := []
  deriving Repr, DecidableEq, Inhabited

/-- A class file. -/
structure ClassFile where
  /-- The minor version. -/
  minor : UInt16 := 0
  /-- The major version. -/
  major : UInt16 := 0
  /-- The constant pool; its first entry has index 1. -/
  pool : Array Constant := #[]
  /-- The access flags of the class. -/
  flags : UInt16 := 0
  /-- The index of the class. -/
  this : UInt16 := 0
  /-- The index of the class it extends. -/
  super : UInt16 := 0
  /-- The fields. -/
  fields : List Member := []
  /-- The methods. -/
  methods : List Member := []
  deriving Repr, DecidableEq, Inhabited

/-- The body of a method: its limits and its code. -/
structure MethodCode where
  /-- How many values the operand stack may hold. -/
  maxStack : UInt16
  /-- How many local slots there are. -/
  maxLocals : UInt16
  /-- The bytes of the instructions. -/
  code : List UInt8
  deriving Repr, DecidableEq, Inhabited

/-- Why a class file is refused. -/
inductive ClassFileError where
  /-- There is no pool entry with an index. -/
  | badIndex (index : UInt16)
  /-- A pool entry is no string. -/
  | notUtf8 (index : UInt16) (found : Tag)
  /-- A pool entry is no class. -/
  | notClass (index : UInt16) (found : Tag)
  /-- A pool entry is not of the expected kind. -/
  | wrongTag (index : UInt16) (found expected : Tag)
  /-- A method has no code. -/
  | noCode
  /-- The bytes end too early. -/
  | truncated
  /-- The bytes do not start as a class file does. -/
  | badMagic
  /-- Bytes are left over. -/
  | trailing (count : Nat)
  /-- A pool entry of an unknown kind is read. -/
  | unsupportedTag (tag : UInt8)
  /-- A string is malformed. -/
  | malformedUtf8
  /-- The pool has too many entries to be written. -/
  | poolTooLarge (entries : Nat)
  /-- A string is too long to be written. -/
  | utf8TooLong (length : Nat)
  /-- A pool entry of an unknown kind is written. -/
  | unwritableTag (tag : UInt8)
  /-- The version is not the expected one. -/
  | badVersion (major minor : UInt16)
  /-- The attribute with the value of a constant is no index. -/
  | constantValueLength (length : Nat)
  /-- A method has no instructions. -/
  | emptyCode
  /-- The bytes of a method are no code. -/
  | code (error : CodecError)
  /-- An instruction uses a slot that does not exist. -/
  | slotOutside (slot : Int) (maxLocals : UInt16)
  /-- A branch goes to no instruction. -/
  | branchTarget (target : Int)
  /-- Control can run past the last instruction. -/
  | fallsOff
  /-- An error in the pool entry with an index. -/
  | inConstant (index : Nat) (error : ClassFileError)
  /-- An error in the code of a method. -/
  | inMethod (name : Text) (error : ClassFileError)
  /-- An error in the instruction at a pc. -/
  | atPc (pc : Nat) (error : ClassFileError)
  deriving Repr, DecidableEq, Inhabited

namespace ClassFileError

/-- The wording of an error. -/
def message : ClassFileError → String
  | badIndex index => s!"classfile: constant pool index out of range: {index.toNat}"
  | notUtf8 index found => s!"classfile: entry #{index.toNat} is {found.name}, not Utf8"
  | notClass index found => s!"classfile: entry #{index.toNat} is {found.name}, not Class"
  | wrongTag index found expected =>
    s!"classfile: entry #{index.toNat} is {found.name}, expected {expected.name}"
  | noCode => "classfile: method has no Code attribute"
  | truncated => "classfile: unexpected end of data"
  | badMagic => "classfile: bad magic number"
  | trailing count => s!"classfile: {count} trailing bytes"
  | unsupportedTag tag => s!"unsupported tag {tag.toNat}"
  | malformedUtf8 => "classfile: malformed modified utf8"
  | poolTooLarge entries => s!"classfile: {entries} constant pool entries do not fit"
  | utf8TooLong length => s!"classfile: utf8 constant of {length} bytes is too long"
  | unwritableTag tag => s!"classfile: cannot encode constant with tag {tag.toNat}"
  | badVersion major minor => s!"classfile: unexpected version {major.toNat}.{minor.toNat}"
  | constantValueLength length => s!"classfile: ConstantValue of length {length}"
  | emptyCode => "empty code"
  | code error => error.message
  | slotOutside slot maxLocals => s!"local {slot} outside max_locals {maxLocals.toNat}"
  | branchTarget target => s!"branch target {target} is not an instruction"
  | fallsOff => "code can fall off its end"
  | inConstant index error => s!"classfile: constant #{index}: {error.message}"
  | inMethod name error => s!"classfile: method {name.shown}: {error.message}"
  | atPc pc error => s!"pc {pc}: {error.message}"

/-- The innermost error. -/
def root : ClassFileError → ClassFileError
  | inConstant _ error | inMethod _ error | atPc _ error => error.root
  | error => error

end ClassFileError

/-! ### Well-known names, flags and versions -/

namespace ClassFile

/-- The name of the class that every class extends. -/
def objectClass : Text := Text.ofString "java/lang/Object"

/-- The name of a constructor. -/
def initName : Text := Text.ofString "<init>"

/-- The descriptor of the constructor. -/
def initDescriptor : Text := Text.ofString "()V"

/-- The name of the attribute with the body of a method. -/
def codeAttribute : Text := Text.ofString "Code"

/-- The name of the attribute with the value of a constant. -/
def constantValueAttribute : Text := Text.ofString "ConstantValue"

/-- The descriptor of a number. -/
def intDescriptor : Text := Text.ofString "I"

/-- The flag of a public class or member. -/
def publicFlag : UInt16 := 0x0001

/-- The flag of a member that belongs to the class itself. -/
def staticFlag : UInt16 := 0x0008

/-- The flag of a member that does not change. -/
def finalFlag : UInt16 := 0x0010

/-- The number in the first four bytes of every class file. -/
def magic : Nat := 0xCAFEBABE

/-- The major version that is written. -/
def majorVersion : UInt16 := 0x003B

/-- The minor version that is written. -/
def minorVersion : UInt16 := 0

/-! ### Access -/

/-- The pool entry with an index. -/
def constant (f : ClassFile) (index : UInt16) : Except ClassFileError Constant :=
  if index = 0 then
    .error (.badIndex index)
  else
    match f.pool[index.toNat - 1]? with
    | some c => .ok c
    | none => .error (.badIndex index)

/-- The string with an index. -/
def utf8At (f : ClassFile) (index : UInt16) : Except ClassFileError Text := do
  match ← f.constant index with
  | .utf8 text => .ok text
  | c => .error (.notUtf8 index c.tag)

/-- The name of the class with an index. -/
def className (f : ClassFile) (index : UInt16) : Except ClassFileError Text := do
  match ← f.constant index with
  | .classRef name => f.utf8At name
  | c => .error (.notClass index c.tag)

/-- The name and the descriptor of a field or method. -/
def memberName (f : ClassFile) (m : Member) : Except ClassFileError (Text × Text) := do
  let name ← f.utf8At m.name
  let descriptor ← f.utf8At m.descriptor
  return (name, descriptor)

/-- The first method with a given name and descriptor. -/
def findMethod? (f : ClassFile) (name descriptor : Text) : Option Member :=
  f.methods.find? fun m =>
    match f.memberName m with
    | .ok (n, d) => n == name && d == descriptor
    | .error _ => false

/-- The first attribute of a member with a given name. -/
def attribute? (f : ClassFile) (m : Member) (name : Text) : Option Attribute :=
  m.attributes.find? fun a =>
    match f.utf8At a.name with
    | .ok n => n == name
    | .error _ => false

end ClassFile

end Classwright
