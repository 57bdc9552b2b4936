import Classwright.ClassFile.Basic

/-!
# Errors of the machine
-/

namespace Classwright

/-- What is wrong with code the machine runs or loads. -/
inductive BadCode where
  /-- The attribute with the value of a constant is no index. -/
  | constantValueLength (length : Nat)
  /-- The bytes of a method are no code. -/
  | undecodable (method : Text) (error : CodecError)
  /-- A descriptor is not of numbers to a number or nothing. -/
  | descriptor (text : Text)
  /-- A pool index is 0. -/
  | poolIndex (index : Nat)
  /-- A pool entry cannot be used. -/
  | pool (error : ClassFileError)
  /-- A pool entry is not of the expected kind. -/
  | wrongTag (index : Nat) (found expected : Tag)
  /-- A field does not belong to the class. -/
  | noField (owner name : Text)
  /-- A method has fewer slots than arguments. -/
  | tooFewLocals (method : Text) (arguments maxLocals : Nat)
  /-- Control runs past the last instruction. -/
  | fallsOff (method : Text)
  /-- A method without result returns a number. -/
  | valueReturned (method : Text)
  /-- A method with a result returns none. -/
  | nothingReturned (method : Text)
  /-- An instruction cannot be run. -/
  | unsupported (op : Opcode)
  /-- A branch goes to no instruction. -/
  | branch (method : Text) (pc : Nat) (target : Int)
  /-- The stack grows beyond its limit. -/
  | stackFull (method : Text) (maxStack : Nat)
  /-- A value is taken from an empty stack. -/
  | stackEmpty (method : Text)
  /-- A slot that does not exist is read. -/
  | readsSlot (method : Text) (slot maxLocals : Nat)
  /-- A slot that does not exist is written. -/
  | writesSlot (method : Text) (slot maxLocals : Nat)
  /-- The stack holds fewer values than a method takes. -/
  | tooFewArguments (method callee : Text) (values : Nat)
  deriving Repr, DecidableEq, Inhabited

namespace BadCode

/-- The wording of what is wrong. -/
def message : BadCode → String
  | constantValueLength length => s!"ConstantValue of length {length}"
  | undecodable method error => s!"method {method.shown}: {error.message}"
  | descriptor text => s!"descriptor {text.shown}"
  | poolIndex index => s!"constant pool index {index}"
  | pool error => error.message
  | wrongTag index found expected => s!"entry #{index} is {found.name}, expected {expected.name}"
  | noField owner name => s!"no field {owner.shown}.{name.shown}"
  | tooFewLocals method arguments maxLocals =>
    s!"{method.shown} needs {arguments} locals, max_locals is {maxLocals}"
  | fallsOff method => s!"{method.shown} falls off the end of its code"
  | valueReturned method => s!"ireturn in void method {method.shown}"
  | nothingReturned method => s!"return in int method {method.shown}"
  | unsupported op => s!"unsupported instruction {op.mnemonic}"
  | branch method pc target => s!"{method.shown} pc {pc} branches to {target}"
  | stackFull method maxStack => s!"{method.shown} exceeds max_stack {maxStack}"
  | stackEmpty method => s!"{method.shown} pops an empty stack"
  | readsSlot method slot maxLocals => s!"{method.shown} reads local {slot} of {maxLocals}"
  | writesSlot method slot maxLocals => s!"{method.shown} writes local {slot} of {maxLocals}"
  | tooFewArguments method callee values =>
    s!"{method.shown} calls {callee.shown} with {values} values on the stack"

end BadCode

/-- A method that does not exist. -/
inductive MissingMethod where
  /-- No method has the name and takes so many arguments. -/
  | invoked (name : Text) (arguments : Nat)
  /-- There is no constructor. -/
  | constructor
  /-- A constructor other than that of the extended class is called. -/
  | special (owner name descriptor : Text)
  /-- A method does not belong to the class. -/
  | static (owner name descriptor : Text)
  deriving Repr, DecidableEq, Inhabited

namespace MissingMethod

/-- The wording for a missing method. -/
def message : MissingMethod → String
  | invoked name arguments => s!"{name.shown} with {arguments} argument(s)"
  | constructor => "<init>()V"
  | special owner name descriptor =>
    s!"invokespecial {owner.shown}.{(name ++ descriptor).shown}"
  | static owner name descriptor => s!"{owner.shown}.{(name ++ descriptor).shown}"

end MissingMethod

/-- Why loading or running a class fails. -/
inductive MachineError where
  /-- A division by zero. -/
  | divisionByZero
  /-- More instructions than allowed. -/
  | stepLimit (limit : Nat)
  /-- More calls inside each other than allowed. -/
  | callDepth (frames : Nat)
  /-- A method does not exist. -/
  | noMethod (missing : MissingMethod)
  /-- Code is wrong. -/
  | badCode (reason : BadCode)
  /-- A class file is wrong. -/
  | classFile (error : ClassFileError)
  /-- A field that does not exist is set. -/
  | noField (name : Text)
  /-- An error in loading a field. -/
  | inField (name : Text) (error : MachineError)
  /-- An error in loading a method. -/
  | inMethod (name : Text) (error : MachineError)
  deriving Repr, DecidableEq, Inhabited

namespace MachineError

/-- The wording of an error. -/
def message : MachineError → String
  | divisionByZero => "vm: division by zero"
  | stepLimit limit => s!"vm: step limit exceeded: {limit}"
  | callDepth frames => s!"vm: call depth exceeded: {frames} frames"
  | noMethod missing => s!"vm: no such method: {missing.message}"
  | badCode reason => s!"vm: bad code: {reason.message}"
  | classFile error => error.message
  | noField name => s!"vm: no such field {name.shown}"
  | inField name error => s!"vm: field {name.shown}: {error.message}"
  | inMethod name error => s!"vm: method {name.shown}: {error.message}"

/-- The innermost error. -/
def root : MachineError → MachineError
  | inField _ error | inMethod _ error => error.root
  | error => error

end MachineError

end Classwright
