import Classwright.ClassFile.Reader

/-!
# Listing class files

A readable listing of a class file: its header, the pool, the fields, and the methods with or
without their instructions.
-/

namespace Classwright

namespace ClassFile

/-- The string with an index, empty if there is none. -/
def utf8OrEmpty (f : ClassFile) (index : UInt16) : Text :=
  match f.utf8At index with
  | .ok text => text
  | .error _ => []

/-- What a pool entry holds. -/
def describe (f : ClassFile) : Constant → String
  | .utf8 text => text.shown
  | .integer value => toString value.toInt
  | .classRef name => s!"#{name.toNat} // {(f.utf8OrEmpty name).shown}"
  | .nameAndType name descriptor =>
    s!"#{name.toNat}:#{descriptor.toNat} // " ++
      s!"{(f.utf8OrEmpty name).shown}:{(f.utf8OrEmpty descriptor).shown}"
  | .fieldRef owner signature | .methodRef owner signature =>
    s!"#{owner.toNat}.#{signature.toNat}"
  | .other _ _ _ _ => ""

/-- The words for access flags. -/
def flagWords (flags : UInt16) : String :=
  let word (flag : UInt16) (s : String) : List String := if flags &&& flag = 0 then [] else [s]
  String.intercalate " "
    (word publicFlag "public" ++ word staticFlag "static" ++ word finalFlag "final")

/-- The line of a pool entry. -/
def constantLine (f : ClassFile) (index : Nat) (c : Constant) : String :=
  let number := padLeft 5 s!"#{index}"
  s!"  {number} = {padRight 12 c.tag.name}{f.describe c}\n"

/-- The lines of pool entries, of which the first has the index `index`. -/
def constantLines (f : ClassFile) (index : Nat) : List Constant → List String
  | [] => []
  | c :: rest => f.constantLine index c :: f.constantLines (index + 1) rest

/-- The first lines of a field or method. -/
def memberHead (f : ClassFile) (m : Member) : Except ClassFileError String := do
  let (name, descriptor) ← f.memberName m
  return s!"  {flagWords m.flags} {name.shown};\n    descriptor: {descriptor.shown}\n" ++
    s!"    flags: 0x{hexDigits 4 m.flags.toNat}\n"

/-- The lines of a field. -/
def fieldLines (f : ClassFile) (m : Member) : Except ClassFileError String := do
  let head ← f.memberHead m
  let value :=
    match (f.attribute? m constantValueAttribute).map Attribute.data with
    | some [x, y] =>
      match f.constant (UInt16.ofNat (BigEndian.ofTwo x y)) with
      | .ok c => s!"    ConstantValue: int {c.number.toInt}\n"
      | .error _ => "    ConstantValue: int 0\n"
    | _ => ""
  return head ++ value ++ "\n"

/-- The lines of the instructions of a method. -/
def codeLines (f : ClassFile) (m : Member) : Except ClassFileError String := do
  let body ← f.methodCode m
  match Code.decode body.code with
  | .error e => .error (.code e)
  | .ok code =>
    let lines := (Code.locate 0 code).map fun (pc, i) =>
      s!"      {padLeft 4 (toString pc)}: {i.text pc}\n"
    return s!"    Code:\n      stack={body.maxStack.toNat}, locals={body.maxLocals.toNat}\n" ++
      String.join lines

/-- The lines of a method. -/
def methodLines (f : ClassFile) (withCode : Bool) (m : Member) :
    Except ClassFileError String := do
  let head ← f.memberHead m
  let code ← if withCode then f.codeLines m else .ok ""
  return head ++ code ++ "\n"

/-- The listing of a class file. -/
def dump (f : ClassFile) (withCode : Bool) : Except ClassFileError String := do
  let name ← f.className f.this
  let superName ← f.className f.super
  let fields ← f.fields.mapM f.fieldLines
  let methods ← f.methods.mapM (f.methodLines withCode)
  return s!"class {name.shown} extends {superName.shown}\n" ++
    s!"  minor version: {f.minor.toNat}\n  major version: {f.major.toNat}\n" ++
    s!"  flags: 0x{hexDigits 4 f.flags.toNat}\nConstant pool:\n" ++
    String.join (f.constantLines 1 f.pool.toList) ++ "\x7b\n" ++
    String.join fields ++ String.join methods ++ "\x7d\n"

end ClassFile

end Classwright
