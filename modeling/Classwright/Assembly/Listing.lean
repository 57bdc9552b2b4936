import Std.Data.HashMap
import Std.Data.HashSet
import Classwright.Bytecode.Instruction
import Classwright.Limits
import Classwright.Text.Blank
import Classwright.Text.Decimal

/-!
# Listings

A listing has one instruction on each line: a mnemonic with its operand, where pool indexes are
written behind `#` and the target of a branch is a label or the pc of an instruction.  `label:`
names the place of the next instruction, also for branches in front of it, and `//` starts a
comment.

An assembler reads listings one after the other and keeps its lines, labels and instructions; branch
targets are resolved over everything read so far at the end of each listing, and the distances found
up to the first branch that goes nowhere are kept.
-/

namespace Classwright

/-- Why a line of a listing is refused. -/
inductive ListingFault where
  | wrongLabel
  | duplicateLabel
  | unknownInstruction (word : Text)
  | takesNoOperand (op : Opcode)
  | takesOneOperand (op : Opcode)
  | wideOperands
  | wideModifies (word : Text)
  | notDecimal (word : Text)
  | outOfRange (value low high : Int)
  | poolIndexWithoutHash (word : Text)
  | undefinedLabel (label : Text)
  | noInstructionAt (pc : Nat)
  | branchTooFar (distance : Int)
  deriving Repr, DecidableEq, Inhabited

namespace ListingFault

/-- The wording of a fault. -/
def message : ListingFault → String
  | wrongLabel => "wrong label format"
  | duplicateLabel => "found duplicate label"
  | unknownInstruction word => s!"unknown instruction {word.shown}"
  | takesNoOperand op => s!"{op.mnemonic} takes no operand"
  | takesOneOperand op => s!"{op.mnemonic} takes exactly one operand"
  | wideOperands => "wide takes an instruction and a local index"
  | wideModifies word => s!"wide cannot modify {word.shown}"
  | notDecimal word => s!"wrong decimal value format {word.shown}"
  | outOfRange value low high => s!"value {value} out of range {low}..{high}"
  | poolIndexWithoutHash word =>
    s!"constant pool index must start with #, found {word.shown}"
  | undefinedLabel label => s!"undefined label {label.shown}"
  | noInstructionAt pc => s!"branch target {pc} is not an instruction"
  | branchTooFar distance => s!"branch offset {distance} out of range"

end ListingFault

/-- A fault with the line it is on. -/
structure ListingError where
  /-- The line, counted from 1. -/
  line : Nat
  /-- What is wrong there. -/
  fault : ListingFault
  deriving Repr, DecidableEq, Inhabited

/-- The wording of an error. -/
def ListingError.message (e : ListingError) : String :=
  s!"syntax err at line {e.line}: {e.fault.message}"

/-- Where a branch goes. -/
inductive BranchTarget where
  /-- To the instruction behind a label. -/
  | label (name : Text)
  /-- To the instruction at a pc. -/
  | address (pc : Nat)
  deriving Repr, DecidableEq, Inhabited

/-- An instruction of a listing. -/
structure Command where
  /-- The instruction; the distance of a branch is filled in at the end. -/
  instruction : Instruction
  /-- Where a branch goes. -/
  target : Option BranchTarget := none
  /-- Where the instruction starts. -/
  pc : Nat
  /-- The line it stands on. -/
  line : Nat
  /-- The line without comment and outer blanks. -/
  text : Text
  deriving Repr, DecidableEq, Inhabited

/-- The description of a command. -/
def Command.describe (c : Command) : String :=
  s!"Command: \x7bOp: {c.instruction.op.mnemonic}, Wide: {c.instruction.wide}, " ++
    s!"Operand: {c.instruction.operand}, PC: {c.pc}, Line: {c.line}, " ++
    s!"OriginalContent: {c.text.shown}\x7d"

/-- The descriptions of commands, each on a line of its own. -/
def Command.report (commands : List Command) : String :=
  String.join (commands.map fun c => c.describe ++ "\n")

/-! ### Lines -/

namespace Listing

/-- A line up to its comment. -/
def withoutComment : Text → Text
  | [] => []
  | b :: rest =>
    if b = 0x2F ∧ rest.head? = some 0x2F then [] else b :: withoutComment rest

/-- A byte a label may start with. -/
def isLabelStart (b : UInt8) : Bool :=
  Character.isLetter b || b == 0x5F || b == 0x2E || b == 0x24

/-- A byte a label may go on with. -/
def isLabelPart (b : UInt8) : Bool :=
  isLabelStart b || Character.isDigit b

/-- Whether a word can be a label. -/
def isLabel : Text → Bool
  | [] => false
  | b :: rest => isLabelStart b && rest.all isLabelPart

/-- The number a word stands for, in a given range. -/
def readNumber (word : Text) (low high : Int) : Except ListingFault Int :=
  match readDecimal? 64 word with
  | none => .error (.notDecimal word)
  | some n => if low ≤ n ∧ n ≤ high then .ok n else .error (.outOfRange n low high)

/-- The pool index a word stands for. -/
def readPoolIndex (word : Text) (high : Int) : Except ListingFault Int :=
  match word with
  | 0x23 :: digits => readNumber digits 1 high
  | _ => .error (.poolIndexWithoutHash word)

/-- The target a word stands for. -/
def readTarget (word : Text) : Except ListingFault BranchTarget :=
  if isLabel word then .ok (.label word)
  else do
    let pc ← readNumber word 0 0xFFFF
    return .address pc.toNat

/-- The instruction with an operand. -/
def readOperand (op : Opcode) (word : Text) :
    Except ListingFault (Instruction × Option BranchTarget) := do
  match op.operand with
  | .byte =>
    let n ← readNumber word (-128) 127
    return ({ op, operand := n }, none)
  | .short =>
    let n ← readNumber word (-32768) 32767
    return ({ op, operand := n }, none)
  | .slot =>
    let n ← readNumber word 0 0xFF
    return ({ op, operand := n }, none)
  | .poolByte =>
    let n ← readPoolIndex word 0xFF
    return ({ op, operand := n }, none)
  | .poolShort =>
    let n ← readPoolIndex word 0xFFFF
    return ({ op, operand := n }, none)
  | .branch =>
    let target ← readTarget word
    return ({ op }, some target)
  | .none | .wide => return ({ op }, none)

/-- The wide instruction that the words behind `wide` stand for. -/
def readWide : List Text → Except ListingFault Instruction
  | [word, slot] =>
    match Opcode.ofSpelling? word with
    | some .iload => do
      let n ← readNumber slot 0 0xFFFF
      return { op := .iload, operand := n, wide := true }
    | some .istore => do
      let n ← readNumber slot 0 0xFFFF
      return { op := .istore, operand := n, wide := true }
    | _ => .error (.wideModifies word)
  | _ => .error .wideOperands

/-- The instruction that the words of a line stand for. -/
def readInstruction : List Text → Except ListingFault (Instruction × Option BranchTarget)
  | [] => .error (.unknownInstruction [])
  | word :: operands =>
    match Opcode.ofSpelling? word with
    | none => .error (.unknownInstruction word)
    | some .wide => do
      let i ← readWide operands
      return (i, none)
    | some op =>
      match op.operand, operands with
      | .none, [] => .ok ({ op }, none)
      | .none, _ => .error (.takesNoOperand op)
      | _, [operand] => readOperand op operand
      | _, _ => .error (.takesOneOperand op)

/-- What a line of a listing says. -/
inductive Item where
  /-- Nothing. -/
  | blank
  /-- The next instruction has a label. -/
  | label (name : Text)
  /-- An instruction. -/
  | instruction (instruction : Instruction) (target : Option BranchTarget)
  deriving Repr, DecidableEq, Inhabited

/-- Reads a line without comment and outer blanks. -/
def readItem (text : Text) : Except ListingFault Item :=
  match text.getLast? with
  | none => .ok .blank
  | some 0x3A => if isLabel text.dropLast then .ok (.label text.dropLast) else .error .wrongLabel
  | some _ => do
    let (instruction, target) ← readInstruction text.words
    return .instruction instruction target

end Listing

/-! ### The assembler -/

/-- An assembler between two lines. -/
structure Assembler where
  /-- The current line, counted from 1. -/
  line : Nat := 1
  /-- Where the next instruction starts. -/
  pc : Nat := 0
  /-- The place of each label. -/
  labels : Std.HashMap Text Nat := {}
  /-- The instructions so far. -/
  commands : Array Command := #[]
  deriving Inhabited

namespace Assembler

/-- Whether a line repeats a label. -/
def repeats (a : Assembler) : Listing.Item → Bool
  | .label name => a.labels.contains name
  | _ => false

/-- Takes in what the current line, `text`, says. -/
def accept (a : Assembler) (text : Text) : Listing.Item → Assembler
  | .blank => a
  | .label name => { a with labels := a.labels.insert name a.pc }
  | .instruction instruction target =>
    { a with
      commands := a.commands.push { instruction, target, pc := a.pc, line := a.line, text }
      pc := a.pc + instruction.size }

/-- Reads lines up to the first error and counts those that are followed by another one. -/
def readLines (a : Assembler) : List Text → Assembler × Option ListingError
  | [] => (a, none)
  | line :: rest =>
    let text := (Listing.withoutComment line).trim
    match Listing.readItem text with
    | .error fault => (a, some ⟨a.line, fault⟩)
    | .ok item =>
      if a.repeats item then (a, some ⟨a.line, .duplicateLabel⟩) else
      let a := a.accept text item
      match rest with
      | [] => (a, none)
      | _ :: _ => readLines { a with line := a.line + 1 } rest

/-- The pc a branch goes to. -/
def targetPc (a : Assembler) : BranchTarget → Except ListingFault Nat
  | .address pc => .ok pc
  | .label name =>
    match a.labels[name]? with
    | some pc => .ok pc
    | none => .error (.undefinedLabel name)

/-- A command with the distance of its branch, when instructions start at `starts`. -/
def resolveCommand (a : Assembler) (starts : Std.HashSet Nat) (c : Command) :
    Except ListingError Command :=
  match c.target with
  | none => .ok c
  | some target =>
    match a.targetPc target with
    | .error fault => .error ⟨c.line, fault⟩
    | .ok pc =>
      let distance := (pc : Int) - c.pc
      if !starts.contains pc then .error ⟨c.line, .noInstructionAt pc⟩
      else if !fitsBranch distance then .error ⟨c.line, .branchTooFar distance⟩
      else .ok { c with instruction := { c.instruction with operand := distance } }

/-- All commands with the distances of their branches. -/
def resolve (a : Assembler) : Except ListingError (List Command) :=
  let commands := a.commands.toList
  let starts := Std.HashSet.ofList (commands.map Command.pc)
  commands.mapM (a.resolveCommand starts)

/-- Commands with the distances of the branches in front of the first that goes nowhere; the ones
behind stay as they are. -/
def settled (a : Assembler) (starts : Std.HashSet Nat) : List Command → List Command
  | [] => []
  | c :: rest =>
    match a.resolveCommand starts c with
    | .error _ => c :: rest
    | .ok c' => c' :: settled a starts rest

/-- Keeps the distances that were found, up to the first branch that goes nowhere. -/
def settle (a : Assembler) : Assembler :=
  let commands := a.commands.toList
  let starts := Std.HashSet.ofList (commands.map Command.pc)
  { a with commands := (a.settled starts commands).toArray }

/-- Reads one more listing. -/
def read (a : Assembler) (text : Text) : Assembler × Except ListingError (List Command) :=
  match a.readLines text.lines with
  | (a, some e) => (a, .error e)
  | (a, none) => (a.settle, a.resolve)

/-- The labels with their places, in byte order. -/
def sortedLabels (a : Assembler) : List (Text × Nat) :=
  a.labels.toList.mergeSort fun x y => x.1.precedes y.1

end Assembler

/-- The instructions of some commands. -/
def Command.code (commands : List Command) : Code :=
  commands.map Command.instruction

/-- The bytes of a listing. -/
def assemble (text : Text) : Except ListingError (List UInt8) := do
  let commands ← (({} : Assembler).read text).2
  return (Command.code commands).encode

end Classwright
