import Classwright.ClassFile.Basic
import Classwright.Limits
import Classwright.Text.Modified

/-!
# Writing class files

All numbers are big-endian.  A class file is written without interfaces and without attributes of
its own.  Writing fails when the pool has more than 65534 entries, when a string takes more than
65535 bytes, and when the kind of an entry is unknown; counts and lengths of members and attributes
are cut down to their two or four bytes.
-/

namespace Classwright

namespace MethodCode

/-- The bytes of a `Code` attribute with no exception table and no attributes. -/
def encode (m : MethodCode) : List UInt8 :=
  BigEndian.two m.maxStack.toNat ++ BigEndian.two m.maxLocals.toNat ++
    BigEndian.four m.code.length ++ m.code ++ BigEndian.two 0 ++ BigEndian.two 0

end MethodCode

namespace Constant

/-- The bytes of a pool entry. -/
def encode : Constant → Except ClassFileError (List UInt8)
  | utf8 text =>
    let data := ModifiedUtf8.encode text
    if 0xFFFF < data.length then .error (.utf8TooLong data.length)
    else .ok (Tag.utf8.byte :: (BigEndian.two data.length ++ data))
  | integer value => .ok (Tag.integer.byte :: BigEndian.four value.toUInt32.toNat)
  | classRef name => .ok (Tag.classRef.byte :: BigEndian.two name.toNat)
  | fieldRef owner signature =>
    .ok (Tag.fieldRef.byte :: (BigEndian.two owner.toNat ++ BigEndian.two signature.toNat))
  | methodRef owner signature =>
    .ok (Tag.methodRef.byte :: (BigEndian.two owner.toNat ++ BigEndian.two signature.toNat))
  | nameAndType name descriptor =>
    .ok (Tag.nameAndType.byte :: (BigEndian.two name.toNat ++ BigEndian.two descriptor.toNat))
  | other tag _ _ _ => .error (.unwritableTag tag)

/-- The bytes of several pool entries, one after the other. -/
def encodeAll : List Constant → Except ClassFileError (List UInt8)
  | [] => .ok []
  | c :: rest => do
    let bytes ← encode c
    let others ← encodeAll rest
    return bytes ++ others

end Constant

namespace Attribute

/-- The bytes of an attribute. -/
def encode (a : Attribute) : List UInt8 :=
  BigEndian.two a.name.toNat ++ BigEndian.four a.data.length ++ a.data

end Attribute

namespace Member

/-- The bytes of a field or method. -/
def encode (m : Member) : List UInt8 :=
  BigEndian.two m.flags.toNat ++ BigEndian.two m.name.toNat ++ BigEndian.two m.descriptor.toNat ++
    BigEndian.two m.attributes.length ++ m.attributes.flatMap Attribute.encode

/-- The bytes of several fields or methods, behind their number. -/
def encodeAll (members : List Member) : List UInt8 :=
  BigEndian.two members.length ++ members.flatMap encode

end Member

namespace ClassFile

/-- The bytes of a class file. -/
def encode (f : ClassFile) : Except ClassFileError (List UInt8) :=
  if maxPoolEntries < f.pool.size then
    .error (.poolTooLarge f.pool.size)
  else do
    let pool ← Constant.encodeAll f.pool.toList
    return BigEndian.four magic ++ BigEndian.two f.minor.toNat ++ BigEndian.two f.major.toNat ++
      BigEndian.two (f.pool.size + 1) ++ pool ++
      BigEndian.two f.flags.toNat ++ BigEndian.two f.this.toNat ++ BigEndian.two f.super.toNat ++
      BigEndian.two 0 ++ Member.encodeAll f.fields ++ Member.encodeAll f.methods ++ BigEndian.two 0

end ClassFile

end Classwright
