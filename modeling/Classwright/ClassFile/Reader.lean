import Classwright.ClassFile.Basic
import Classwright.Text.Modified

/-!
# Reading class files

Each reader takes what it needs from the front of the bytes and leaves the rest.  Interfaces and
the attributes of the class itself are skipped, and nothing may follow them.
-/

namespace Classwright

/-- Reads a value from the front of some bytes and leaves the others. -/
abbrev Reader (α : Type) := List UInt8 → Except ClassFileError (α × List UInt8)

namespace Reader

/-- The first `n` bytes and the others, if there are as many. -/
def split? : Nat → List UInt8 → Option (List UInt8 × List UInt8)
  | 0, rest => some ([], rest)
  | _ + 1, [] => none
  | n + 1, b :: rest => (split? n rest).map fun (taken, rest) => (b :: taken, rest)

/-- Reads `n` bytes. -/
def take (n : Nat) : Reader (List UInt8) := fun bytes =>
  match split? n bytes with
  | some r => .ok r
  | none => .error .truncated

/-- Reads one byte. -/
def one : Reader UInt8
  | b :: rest => .ok (b, rest)
  | _ => .error .truncated

/-- Reads a number of two bytes. -/
def two : Reader UInt16
  | a :: b :: rest => .ok (UInt16.ofNat (BigEndian.ofTwo a b), rest)
  | _ => .error .truncated

/-- Reads a number of four bytes. -/
def four : Reader Nat
  | a :: b :: c :: d :: rest => .ok (BigEndian.ofFour a b c d, rest)
  | _ => .error .truncated

/-- Reads `n` values of a kind. -/
def times {α : Type} (read : Reader α) : Nat → Reader (List α)
  | 0, bytes => .ok ([], bytes)
  | n + 1, bytes => do
    let (value, bytes) ← read bytes
    let (others, bytes) ← times read n bytes
    return (value :: others, bytes)

/-- Reads the bytes of a string of `n` bytes. -/
def text (n : Nat) : Reader Text := fun bytes => do
  let (raw, rest) ← take n bytes
  match ModifiedUtf8.decode? raw with
  | some text => return (text, rest)
  | none => .error .malformedUtf8

/-- Reads a pool entry. -/
def constant : Reader Constant := fun bytes => do
  let (tag, bytes) ← one bytes
  match Tag.ofByte tag with
  | .utf8 =>
    let (length, bytes) ← two bytes
    let (text, bytes) ← text length.toNat bytes
    return (.utf8 text, bytes)
  | .integer =>
    let (value, bytes) ← four bytes
    return (.integer (Int32.ofNat value), bytes)
  | .classRef =>
    let (name, bytes) ← two bytes
    return (.classRef name, bytes)
  | .fieldRef =>
    let (owner, bytes) ← two bytes
    let (signature, bytes) ← two bytes
    return (.fieldRef owner signature, bytes)
  | .methodRef =>
    let (owner, bytes) ← two bytes
    let (signature, bytes) ← two bytes
    return (.methodRef owner signature, bytes)
  | .nameAndType =>
    let (name, bytes) ← two bytes
    let (descriptor, bytes) ← two bytes
    return (.nameAndType name descriptor, bytes)
  | .other tag => .error (.unsupportedTag tag)

/-- Reads `n` pool entries, of which the first has the index `index`. -/
def constants (index : Nat) : Nat → Reader (List Constant)
  | 0, bytes => .ok ([], bytes)
  | n + 1, bytes =>
    match constant bytes with
    | .error e => .error (.inConstant index e)
    | .ok (c, bytes) => do
      let (others, bytes) ← constants (index + 1) n bytes
      return (c :: others, bytes)

/-- Reads an attribute. -/
def oneAttribute : Reader Attribute := fun bytes => do
  let (name, bytes) ← two bytes
  let (length, bytes) ← four bytes
  let (data, bytes) ← take length bytes
  return (⟨name, data⟩, bytes)

/-- Reads attributes behind their number. -/
def attributes : Reader (List Attribute) := fun bytes => do
  let (count, bytes) ← two bytes
  times oneAttribute count.toNat bytes

/-- Reads a field or method. -/
def member : Reader Member := fun bytes => do
  let (flags, bytes) ← two bytes
  let (name, bytes) ← two bytes
  let (descriptor, bytes) ← two bytes
  let (attributes, bytes) ← attributes bytes
  return (⟨flags, name, descriptor, attributes⟩, bytes)

/-- Reads fields or methods behind their number. -/
def members : Reader (List Member) := fun bytes => do
  let (count, bytes) ← two bytes
  times member count.toNat bytes

/-- Reads a class file. -/
def classFile : Reader ClassFile := fun bytes => do
  let (start, bytes) ← four bytes
  if start ≠ ClassFile.magic then .error .badMagic
  let (minor, bytes) ← two bytes
  let (major, bytes) ← two bytes
  let (count, bytes) ← two bytes
  let (pool, bytes) ← constants 1 (count.toNat - 1) bytes
  let (flags, bytes) ← two bytes
  let (this, bytes) ← two bytes
  let (super, bytes) ← two bytes
  let (interfaces, bytes) ← two bytes
  let (_, bytes) ← take (2 * interfaces.toNat) bytes
  let (fields, bytes) ← members bytes
  let (methods, bytes) ← members bytes
  let (_, bytes) ← attributes bytes
  return (⟨minor, major, pool.toArray, flags, this, super, fields, methods⟩, bytes)

/-- Reads the body of a method. -/
def methodCode : Reader MethodCode := fun bytes => do
  let (maxStack, bytes) ← two bytes
  let (maxLocals, bytes) ← two bytes
  let (length, bytes) ← four bytes
  let (code, bytes) ← take length bytes
  let (exceptions, bytes) ← two bytes
  let (_, bytes) ← take (8 * exceptions.toNat) bytes
  let (_, bytes) ← attributes bytes
  return (⟨maxStack, maxLocals, code⟩, bytes)

end Reader

/-- The class file a row of bytes holds. -/
def ClassFile.decode (bytes : List UInt8) : Except ClassFileError ClassFile := do
  let (f, rest) ← Reader.classFile bytes
  if rest.isEmpty then return f else .error (.trailing rest.length)

/-- The method body an attribute holds; bytes behind it are ignored. -/
def MethodCode.decode (bytes : List UInt8) : Except ClassFileError MethodCode := do
  let (m, _) ← Reader.methodCode bytes
  return m

/-- The body of a method. -/
def ClassFile.methodCode (f : ClassFile) (m : Member) : Except ClassFileError MethodCode :=
  match f.attribute? m ClassFile.codeAttribute with
  | some a => MethodCode.decode a.data
  | none => .error .noCode

end Classwright
