import Classwright.Text.Basic

/-!
# Opcodes

The instruction set: stack pushes, local loads and stores, arithmetic, comparisons and jumps,
static fields and calls.  Each opcode has a byte, a mnemonic and a kind of operand.  A byte outside
the set is kept as an unlisted opcode, which has no mnemonic of its own and no operand.
-/

namespace Classwright

/-- The kinds of constant pool entries an instruction may refer to, and the other known ones. -/
inductive Tag where
  | utf8 | integer | classRef | fieldRef | methodRef | nameAndType
  /-- A tag outside the known ones. -/
  | other (byte : UInt8)
  deriving Repr, DecidableEq, Inhabited

namespace Tag

/-- The byte of a tag. -/
def byte : Tag → UInt8
  | utf8 => 1
  | integer => 3
  | classRef => 7
  | fieldRef => 9
  | methodRef => 10
  | nameAndType => 12
  | other b => b

/-- The tag of a byte. -/
def ofByte (b : UInt8) : Tag :=
  match b with
  | 1 => utf8
  | 3 => integer
  | 7 => classRef
  | 9 => fieldRef
  | 10 => methodRef
  | 12 => nameAndType
  | b => other b

/-- The name of a tag. -/
def name : Tag → String
  | utf8 => "Utf8"
  | integer => "Integer"
  | classRef => "Class"
  | fieldRef => "Fieldref"
  | methodRef => "Methodref"
  | nameAndType => "NameAndType"
  | other _ => "Unknown"

end Tag

/-- What follows an opcode. -/
inductive OperandKind where
  /-- Nothing. -/
  | none
  /-- A signed byte. -/
  | byte
  /-- A signed number in two bytes. -/
  | short
  /-- A local slot in one byte, in two behind `wide`. -/
  | slot
  /-- A pool index in one byte. -/
  | poolByte
  /-- A pool index in two bytes. -/
  | poolShort
  /-- A signed distance in two bytes, counted from the opcode. -/
  | branch
  /-- Another opcode and a local slot in two bytes. -/
  | wide
  deriving Repr, DecidableEq, Inhabited

namespace OperandKind

/-- All kinds, in the order of their numbers. -/
def all : List OperandKind :=
  [none, byte, short, slot, poolByte, poolShort, branch, wide]

/-- The number of a kind. -/
def number (k : OperandKind) : Nat :=
  all.idxOf k

/-- How many bytes an operand takes. -/
def size : OperandKind → Nat
  | none => 0
  | byte | slot | poolByte => 1
  | short | poolShort | branch => 2
  | wide => 3

/-- The size of the kind with a given number, 0 where there is none. -/
def sizeOfNumber (n : Int) : Nat :=
  if n < 0 then 0 else ((all[n.toNat]?).map size).getD 0

end OperandKind

/-- The opcodes. -/
inductive Opcode where
  | iconst0 | iconst1 | bipush | sipush | ldc | ldcW
  | iload | iload0 | iload1 | iload2 | iload3 | aload0
  | istore | istore0 | istore1 | istore2 | istore3
  | pop | iadd | isub | imul | idiv
  | ifEq | ifNe | ifLt | ifGe | ifGt | ifLe | goto
  | ireturn | vreturn
  | getStatic | putStatic | invokeSpecial | invokeStatic
  | wide
  /-- A byte outside the instruction set. -/
  | unlisted (b : UInt8)
  deriving Repr, DecidableEq, Inhabited

namespace Opcode

/-- The instruction set, in the order of the bytes. -/
def all : List Opcode :=
  [iconst0, iconst1, bipush, sipush, ldc, ldcW, iload, iload0, iload1, iload2, iload3, aload0,
    istore, istore0, istore1, istore2, istore3, pop, iadd, isub, imul, idiv,
    ifEq, ifNe, ifLt, ifGe, ifGt, ifLe, goto, ireturn, vreturn,
    getStatic, putStatic, invokeSpecial, invokeStatic, wide]

/-- The byte of an opcode. -/
def byte : Opcode → UInt8
  | iconst0 => 0x03
  | iconst1 => 0x04
  | bipush => 0x10
  | sipush => 0x11
  | ldc => 0x12
  | ldcW => 0x13
  | iload => 0x15
  | iload0 => 0x1A
  | iload1 => 0x1B
  | iload2 => 0x1C
  | iload3 => 0x1D
  | aload0 => 0x2A
  | istore => 0x36
  | istore0 => 0x3B
  | istore1 => 0x3C
  | istore2 => 0x3D
  | istore3 => 0x3E
  | pop => 0x57
  | iadd => 0x60
  | isub => 0x64
  | imul => 0x68
  | idiv => 0x6C
  | ifEq => 0x9F
  | ifNe => 0xA0
  | ifLt => 0xA1
  | ifGe => 0xA2
  | ifGt => 0xA3
  | ifLe => 0xA4
  | goto => 0xA7
  | ireturn => 0xAC
  | vreturn => 0xB1
  | getStatic => 0xB2
  | putStatic => 0xB3
  | invokeSpecial => 0xB7
  | invokeStatic => 0xB8
  | wide => 0xC4
  | unlisted b => b

/-- The opcode of a byte. -/
def ofByte (b : UInt8) : Opcode :=
  match b with
  | 0x03 => iconst0
  | 0x04 => iconst1
  | 0x10 => bipush
  | 0x11 => sipush
  | 0x12 => ldc
  | 0x13 => ldcW
  | 0x15 => iload
  | 0x1A => iload0
  | 0x1B => iload1
  | 0x1C => iload2
  | 0x1D => iload3
  | 0x2A => aload0
  | 0x36 => istore
  | 0x3B => istore0
  | 0x3C => istore1
  | 0x3D => istore2
  | 0x3E => istore3
  | 0x57 => pop
  | 0x60 => iadd
  | 0x64 => isub
  | 0x68 => imul
  | 0x6C => idiv
  | 0x9F => ifEq
  | 0xA0 => ifNe
  | 0xA1 => ifLt
  | 0xA2 => ifGe
  | 0xA3 => ifGt
  | 0xA4 => ifLe
  | 0xA7 => goto
  | 0xAC => ireturn
  | 0xB1 => vreturn
  | 0xB2 => getStatic
  | 0xB3 => putStatic
  | 0xB7 => invokeSpecial
  | 0xB8 => invokeStatic
  | 0xC4 => wide
  | b => unlisted b

/-- The mnemonic of an opcode. -/
def mnemonic : Opcode → String
  | iconst0 => "iconst_0"
  | iconst1 => "iconst_1"
  | bipush => "bipush"
  | sipush => "sipush"
  | ldc => "ldc"
  | ldcW => "ldc_w"
  | iload => "iload"
  | iload0 => "iload_0"
  | iload1 => "iload_1"
  | iload2 => "iload_2"
  | iload3 => "iload_3"
  | aload0 => "aload_0"
  | istore => "istore"
  | istore0 => "istore_0"
  | istore1 => "istore_1"
  | istore2 => "istore_2"
  | istore3 => "istore_3"
  | pop => "pop"
  | iadd => "iadd"
  | isub => "isub"
  | imul => "imul"
  | idiv => "idiv"
  | ifEq => "if_icmpeq"
  | ifNe => "if_icmpne"
  | ifLt => "if_icmplt"
  | ifGe => "if_icmpge"
  | ifGt => "if_icmpgt"
  | ifLe => "if_icmple"
  | goto => "goto"
  | ireturn => "ireturn"
  | vreturn => "return"
  | getStatic => "getstatic"
  | putStatic => "putstatic"
  | invokeSpecial => "invokespecial"
  | invokeStatic => "invokestatic"
  | wide => "wide"
  | unlisted _ => "unknown"

/-- The bytes of the mnemonic. -/
def spelling (op : Opcode) : Text :=
  op.mnemonic.toList.map fun c => UInt8.ofNat c.toNat

/-- The opcode with a given mnemonic. -/
def ofSpelling? (word : Text) : Option Opcode :=
  all.find? fun op => op.spelling == word

/-- Whether an opcode is in the instruction set. -/
def isListed : Opcode → Bool
  | unlisted _ => false
  | _ => true

/-- What follows an opcode. -/
def operand : Opcode → OperandKind
  | bipush => .byte
  | sipush => .short
  | ldc => .poolByte
  | ldcW | getStatic | putStatic | invokeSpecial | invokeStatic => .poolShort
  | iload | istore => .slot
  | ifEq | ifNe | ifLt | ifGe | ifGt | ifLe | goto => .branch
  | wide => .wide
  | _ => .none

/-- How many bytes an instruction takes, the opcode included. -/
def size (op : Opcode) : Nat :=
  1 + op.operand.size

/-- Whether an opcode carries a distance. -/
def isBranch (op : Opcode) : Bool :=
  op.operand == .branch

/-- The tag of the pool entry an operand must refer to. -/
def poolTag? : Opcode → Option Tag
  | ldc | ldcW => some .integer
  | getStatic | putStatic => some .fieldRef
  | invokeStatic | invokeSpecial => some .methodRef
  | _ => none

end Opcode

end Classwright
