import Classwright.Machine.Run

/-!
# Machines

A machine is a loaded class with the values of its fields and a count of the operations run.  It
stands between calls, when no call is in progress.  Fields start at the value of their constant or
at 0.  Calls share the limit on the number of operations, and what a failed call stored into fields
stays.
-/

namespace Classwright

/-- How far a machine may run. -/
structure Limits where
  /-- How many operations may run over the lifetime of the machine. -/
  maxSteps : Nat := 10000000
  /-- How many calls may be in progress at once. -/
  maxDepth : Nat := 1000
  deriving Repr, Inhabited

/-- The limits with the given numbers; one that is not positive stands for the usual limit. -/
def Limits.ofNumbers (maxSteps maxDepth : Int) : Limits :=
  let usual : Limits := {}
  { maxSteps := if 0 < maxSteps then maxSteps.toNat else usual.maxSteps
    maxDepth := if 0 < maxDepth then maxDepth.toNat else usual.maxDepth }

/-- A loaded class. -/
structure Machine where
  /-- Its methods. -/
  methods : Array Method
  /-- The number of each method, by its name and descriptor put together. -/
  methodIndex : Std.HashMap Text Nat
  /-- The number of each field, by its name. -/
  fieldIndex : Std.HashMap Text Nat
  /-- The values of the fields. -/
  statics : Array Int32
  /-- How far it may run. -/
  limits : Limits
  /-- The number of operations counted so far. -/
  steps : Nat := 0
  deriving Inhabited

namespace Machine

/-! ### Loading -/

/-- The fields of a class that is being loaded. -/
structure Fields where
  /-- The number of each field, by its name. -/
  index : Std.HashMap Text Nat := {}
  /-- The values. -/
  values : Array Int32 := #[]
  deriving Inhabited

/-- Adds a field, or gives a field of the same name a new value. -/
def Fields.insert (fields : Fields) (name : Text) (value : Int32) : Fields :=
  match fields.index[name]? with
  | some n => { fields with values := fields.values.setIfInBounds n value }
  | none =>
    { index := fields.index.insert name fields.values.size
      values := fields.values.push value }

/-- The value a field starts with. -/
def startValue (f : ClassFile) (m : Member) : Except MachineError Int32 :=
  match f.attribute? m ClassFile.constantValueAttribute with
  | none => .ok 0
  | some a =>
    match a.data with
    | [x, y] => LinkContext.integer f (BigEndian.ofTwo x y)
    | data => .error (.badCode (.constantValueLength data.length))

/-- An error in a class file as an error of the machine. -/
def inFile {α : Type} (r : Except ClassFileError α) : Except MachineError α :=
  match r with
  | .ok a => .ok a
  | .error e => .error (.classFile e)

/-- Puts the name of a method in front of an error. -/
def inMethod {α : Type} (name : Text) (r : Except MachineError α) : Except MachineError α :=
  match r with
  | .ok a => .ok a
  | .error e => .error (.inMethod name e)

/-- Loads the fields, in order. -/
def loadFields (f : ClassFile) (fields : Fields) : List Member → Except MachineError Fields
  | [] => .ok fields
  | m :: rest => do
    let (name, _) ← inFile (f.memberName m)
    match startValue f m with
    | .error e => .error (.inField name e)
    | .ok value => loadFields f (fields.insert name value) rest

/-- Decodes a method. -/
def loadMethod (f : ClassFile) (m : Member) : Except MachineError RawMethod := do
  let (name, descriptor) ← inFile (f.memberName m)
  let type ← inMethod name (MethodType.ofDescriptor descriptor)
  let body ← inMethod name (inFile (f.methodCode m))
  match Code.decode body.code with
  | .error e => .error (.badCode (.undecodable name e))
  | .ok code => return { name, descriptor, type, body, code }

/-- Numbers methods by name and descriptor; the last of equal ones counts. -/
def indexMethods (methods : List RawMethod) : Std.HashMap Text Nat :=
  (methods.foldl (fun (index, n) m => (index.insert (m.name ++ m.descriptor) n, n + 1))
    (({} : Std.HashMap Text Nat), 0)).1

/-- Loads a class file. -/
def load (f : ClassFile) (limits : Limits) : Except MachineError Machine := do
  let className ← inFile (f.className f.this)
  let fields ← loadFields f {} f.fields
  let raw ← f.methods.mapM (loadMethod f)
  let methods := indexMethods raw
  let context : LinkContext := { file := f, className, fields := fields.index, methods }
  return {
    methods := (raw.map context.link).toArray
    methodIndex := methods
    fieldIndex := fields.index
    statics := fields.values
    limits }

/-! ### Calls -/

/-- The method with a given name that takes `arguments` numbers; one that returns a number goes
before one that does not. -/
def findMethod? (m : Machine) (name : Text) (arguments : Nat) : Option Nat :=
  match m.methodIndex[name ++ MethodType.descriptor ⟨arguments, true⟩]? with
  | some n => some n
  | none => m.methodIndex[name ++ MethodType.descriptor ⟨arguments, false⟩]?

/-- Calls a method with arguments.  Yields the machine behind the call, what the call returned, and
the lines of its trace. -/
def callMethod (m : Machine) (tracing : Bool) (method : Method) (arguments : List Int32) :
    Machine × Except MachineError Int32 × List String :=
  match Frame.enter method arguments with
  | .error e => (m, .error e, [])
  | .ok frame =>
    let context : RunContext :=
      { methods := m.methods
        maxSteps := m.limits.maxSteps
        maxDepth := m.limits.maxDepth
        tracing }
    let steps := m.steps
    let statics := m.statics
    let r := context.run (m.limits.maxSteps - steps) steps [] { statics, frame }
    ({ m with statics := r.statics, steps := r.steps }, r.result, r.trace.reverse)

/-- Calls the method with a given name.  A method that returns nothing yields 0. -/
def invoke (m : Machine) (name : Text) (arguments : List Int32) (tracing : Bool) :
    Machine × Except MachineError Int32 × List String :=
  match (m.findMethod? name arguments.length).bind fun n => m.methods[n]? with
  | none => (m, .error (.noMethod (.invoked name arguments.length)), [])
  | some method => m.callMethod tracing method arguments

/-- Calls the constructor, whose receiver is represented by 0. -/
def construct (m : Machine) (tracing : Bool) :
    Machine × Except MachineError Int32 × List String :=
  match m.methodIndex[ClassFile.initName ++ ClassFile.initDescriptor]?.bind
      fun n => m.methods[n]? with
  | none => (m, .error (.noMethod .constructor), [])
  | some method => m.callMethod tracing method [0]

/-! ### Fields -/

/-- The value of a field. -/
def static? (m : Machine) (name : Text) : Option Int32 :=
  m.fieldIndex[name]?.bind fun n => m.statics[n]?

/-- Gives a field a value. -/
def setStatic (m : Machine) (name : Text) (value : Int32) : Except MachineError Machine :=
  match m.fieldIndex[name]? with
  | some n => .ok { m with statics := m.statics.setIfInBounds n value }
  | none => .error (.noField name)

/-- All fields with their values, in byte order of their names. -/
def sortedStatics (m : Machine) : List (Text × Int32) :=
  (m.fieldIndex.toList.mergeSort fun x y => x.1.precedes y.1).map fun (name, n) =>
    (name, (m.statics[n]?).getD 0)

end Machine

end Classwright
