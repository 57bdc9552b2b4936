import Classwright.Bytecode.BigEndian
import Classwright.Bytecode.Opcode

/-!
# Instructions

An instruction is an opcode with its operand: the number pushed, a local slot, a pool index, or for
a branch the distance from its own opcode.  `wide` gives a load or store a slot of two bytes.  Code
is a row of instructions; each starts where those in front of it end.
-/

namespace Classwright

/-- An instruction. -/
structure Instruction where
  /-- The opcode; for a wide instruction the one that is modified. -/
  op : Opcode
  /-- The operand, 0 where there is none. -/
  operand : Int := 0
  /-- Whether the slot takes two bytes. -/
  wide : Bool := false
  deriving Repr, DecidableEq, Inhabited

/-- Why a row of bytes is no code. -/
inductive CodecError where
  /-- A byte is no opcode. -/
  | unknownOpcode (b : UInt8) (pc : Nat)
  /-- The bytes end inside an instruction. -/
  | truncated (op : Opcode) (pc : Nat)
  /-- `wide` stands before something other than a load or store. -/
  | badWide (op : Opcode) (pc : Nat)
  deriving Repr, DecidableEq, Inhabited

namespace CodecError

/-- The wording of an error. -/
def message : CodecError → String
  | unknownOpcode b pc => s!"classfile: unknown opcode 0x{hexDigits 2 b.toNat} at pc {pc}"
  | truncated op pc => s!"classfile: truncated {op.mnemonic} at pc {pc}"
  | badWide op pc => s!"classfile: wide cannot modify {op.mnemonic} at pc {pc}"

end CodecError

namespace Instruction

/-- How many bytes an instruction takes. -/
def size (i : Instruction) : Nat :=
  if i.wide then Opcode.wide.size else i.op.size

/-- The last byte of an operand. -/
def operandByte (n : Int) : UInt8 :=
  UInt8.ofNat (n % 0x100).toNat

/-- The last two bytes of an operand. -/
def operandTwo (n : Int) : List UInt8 :=
  BigEndian.two (n % 0x10000).toNat

/-- The bytes of an instruction; an operand is cut down to the bytes it has. -/
def encode (i : Instruction) : List UInt8 :=
  if i.wide then
    Opcode.wide.byte :: i.op.byte :: operandTwo i.operand
  else
    i.op.byte ::
      match i.op.operand with
      | .byte | .slot | .poolByte => [operandByte i.operand]
      | .short | .poolShort | .branch => operandTwo i.operand
      | .none | .wide => []

/-- The pc a branch at `pc` goes to. -/
def target (i : Instruction) (pc : Nat) : Int :=
  pc + i.operand

/-- The text of an instruction at `pc`, in which a branch is shown with the pc it goes to. -/
def text (i : Instruction) (pc : Nat) : String :=
  if i.wide then
    s!"wide {i.op.mnemonic} {i.operand}"
  else
    match i.op.operand with
    | .branch => s!"{i.op.mnemonic} {i.target pc}"
    | .poolByte | .poolShort => s!"{i.op.mnemonic} #{i.operand}"
    | .none => i.op.mnemonic
    | _ => s!"{i.op.mnemonic} {i.operand}"

/-- The instruction that an opcode at `pc` makes with the bytes of its operand. -/
def ofOperand (op : Opcode) (pc : Nat) (bytes : List UInt8) : Except CodecError Instruction :=
  match op.operand, bytes with
  | .byte, [x] => .ok ⟨op, signed 8 x.toNat, false⟩
  | .slot, [x] | .poolByte, [x] => .ok ⟨op, x.toNat, false⟩
  | .short, [x, y] | .branch, [x, y] => .ok ⟨op, signed 16 (BigEndian.ofTwo x y), false⟩
  | .poolShort, [x, y] => .ok ⟨op, BigEndian.ofTwo x y, false⟩
  | .wide, [m, x, y] =>
    let modified := Opcode.ofByte m
    if modified = .iload ∨ modified = .istore then
      .ok ⟨modified, BigEndian.ofTwo x y, true⟩
    else
      .error (.badWide modified pc)
  | _, _ => .ok ⟨op, 0, false⟩

end Instruction

/-- An instruction where it is read. -/
structure LocatedInstruction extends Instruction where
  /-- The pc it starts at. -/
  pc : Nat
  /-- The number of bytes it takes. -/
  length : Nat
  deriving Repr, DecidableEq, Inhabited

/-- A row of instructions. -/
abbrev Code := List Instruction

namespace Code

/-- How many bytes the instructions take. -/
def size : Code → Nat
  | [] => 0
  | i :: rest => i.size + size rest

/-- The bytes of the instructions. -/
def encode (code : Code) : List UInt8 :=
  code.flatMap Instruction.encode

/-- The instructions with the pc each starts at, counted from `pc`. -/
def locate (pc : Nat) : Code → List (Nat × Instruction)
  | [] => []
  | i :: rest => (pc, i) :: locate (pc + i.size) rest

/-- Reads instructions that start at `pc`. -/
def decodeFrom (pc : Nat) : List UInt8 → Except CodecError Code
  | [] => .ok []
  | b :: rest =>
    let op := Opcode.ofByte b
    if op.isListed then
      match op.operand, rest with
      | .none, rest => do
        let others ← decodeFrom (pc + 1) rest
        return ⟨op, 0, false⟩ :: others
      | .byte, x :: rest => do
        let others ← decodeFrom (pc + 2) rest
        return ⟨op, signed 8 x.toNat, false⟩ :: others
      | .slot, x :: rest | .poolByte, x :: rest => do
        let others ← decodeFrom (pc + 2) rest
        return ⟨op, x.toNat, false⟩ :: others
      | .short, x :: y :: rest | .branch, x :: y :: rest => do
        let others ← decodeFrom (pc + 3) rest
        return ⟨op, signed 16 (BigEndian.ofTwo x y), false⟩ :: others
      | .poolShort, x :: y :: rest => do
        let others ← decodeFrom (pc + 3) rest
        return ⟨op, BigEndian.ofTwo x y, false⟩ :: others
      | .wide, m :: x :: y :: rest =>
        let modified := Opcode.ofByte m
        if modified = .iload ∨ modified = .istore then do
          let others ← decodeFrom (pc + 4) rest
          return ⟨modified, BigEndian.ofTwo x y, true⟩ :: others
        else
          .error (.badWide modified pc)
      | _, _ => .error (.truncated op pc)
    else
      .error (.unknownOpcode b pc)

/-- The instructions of a row of bytes. -/
def decode (bytes : List UInt8) : Except CodecError Code :=
  decodeFrom 0 bytes

/-- The instructions with the pc each starts at, counted from `pc`, and the bytes each takes. -/
def located (pc : Nat) (code : Code) : List LocatedInstruction :=
  (locate pc code).map fun (pc, i) => { toInstruction := i, pc, length := i.size }

/-- Reads instructions that start at `pc`, with their places and lengths. -/
def decodeLocatedFrom (pc : Nat) (bytes : List UInt8) :
    Except CodecError (List LocatedInstruction) :=
  match bytes with
  | [] => .ok []
  | b :: rest =>
    let op := Opcode.ofByte b
    if op.isListed then
      if rest.length < op.operand.size then
        .error (.truncated op pc)
      else do
        let i ← Instruction.ofOperand op pc (rest.take op.operand.size)
        let others ← decodeLocatedFrom (pc + op.size) (rest.drop op.operand.size)
        return { toInstruction := i, pc, length := op.size } :: others
    else
      .error (.unknownOpcode b pc)
termination_by bytes.length
decreasing_by
  rw [List.length_drop]
  exact Nat.lt_succ_of_le (Nat.sub_le _ _)

/-- The instructions of a row of bytes, with their places and lengths. -/
def decodeLocated (bytes : List UInt8) : Except CodecError (List LocatedInstruction) :=
  decodeLocatedFrom 0 bytes

/-- The listing of some instructions, one line each. -/
def listing (code : Code) : String :=
  String.join ((locate 0 code).map fun (pc, i) => i.text pc ++ "\n")

end Code

end Classwright
