import Classwright.Machine.Basic

/-!
# Interpreters

A machine counts operations in a word of 64 bits.  The count wraps around behind the greatest
number, and under a limit that is the greatest number no count is beyond it, so a run need not end;
one that never does yields `none`.  The calls in progress are counted as well: each call raises the
count and lowers it again on every way out.

A `Machine` stands between calls and counts on without end.  It is what an interpreter is as long
as the count does not wrap around.
-/

namespace Classwright

/-- The count of calls in progress once the calls that wait are left: each of them lowers it on its
way out. -/
def RunState.lowered (s : RunState) : Nat :=
  s.depth - s.callers.length

/-- The limits in force under two words; one that is not positive stands for the usual limit. -/
def Limits.ofWords (maxSteps maxDepth : Int64) : Limits :=
  .ofNumbers maxSteps.toInt maxDepth.toInt

/-- A loaded class, with the words it counts in. -/
structure Interpreter where
  /-- Its methods. -/
  methods : Array Method
  /-- The number of each method, by its name and descriptor put together. -/
  methodIndex : Std.HashMap Text Nat
  /-- The number of each field, by its name. -/
  fieldIndex : Std.HashMap Text Nat
  /-- The values of the fields. -/
  statics : Array Int32
  /-- How many operations may run over its lifetime. -/
  maxSteps : Int64
  /-- How many calls may be in progress at once. -/
  maxDepth : Nat
  /-- The number of operations counted so far, as far as a word holds it. -/
  steps : Int64 := 0
  /-- The number of calls in progress.  A call compares it with the limit before raising it, so it
  does not wrap around. -/
  depth : Nat := 0
  deriving Inhabited

namespace Interpreter

/-- The interpreter that starts as a machine stands. -/
def ofMachine (m : Machine) : Interpreter :=
  { methods := m.methods
    methodIndex := m.methodIndex
    fieldIndex := m.fieldIndex
    statics := m.statics
    maxSteps := .ofNat m.limits.maxSteps
    maxDepth := m.limits.maxDepth
    steps := .ofNat m.steps }

/-- The machine with the same class, values of fields and numbers. -/
def machine (i : Interpreter) : Machine :=
  { methods := i.methods
    methodIndex := i.methodIndex
    fieldIndex := i.fieldIndex
    statics := i.statics
    limits := { maxSteps := i.maxSteps.toNatClampNeg, maxDepth := i.maxDepth }
    steps := i.steps.toNatClampNeg }

/-- Loads a class file. -/
def load (f : ClassFile) (maxSteps maxDepth : Int64) : Except MachineError Interpreter :=
  (Machine.load f (.ofWords maxSteps maxDepth)).map ofMachine

/-! ### Running code -/

/-- How a run ends. -/
structure Ending where
  /-- The value returned, or the error. -/
  result : Except MachineError Int32
  /-- The values of the fields. -/
  statics : Array Int32
  /-- The count of operations. -/
  steps : Int64
  /-- The count of calls in progress, the one that was run included. -/
  depth : Nat
  /-- The trace, the latest line first. -/
  trace : List String

/-- Runs on behind `steps` operations, if the run ends. -/
def run (i : Interpreter) (tracing : Bool) (steps : Int64) (trace : List String) (s : RunState) :
    Option Ending :=
  match s.frame.method.operations[s.frame.next]? with
  | none =>
    some ⟨.error (.badCode (.fallsOff s.frame.method.name)), s.statics, steps, s.lowered, trace⟩
  | some op =>
    let steps := steps + 1
    if i.maxSteps < steps then
      some ⟨.error (.stepLimit i.maxSteps.toNatClampNeg), s.statics, steps, s.lowered, trace⟩
    else
      let trace := if tracing then s.traceLine :: trace else trace
      match s.step i.methods i.maxDepth op with
      | .next s => i |>.run tracing steps trace s
      | .halt value statics => some ⟨.ok value, statics, steps, s.lowered, trace⟩
      | .fail e statics => some ⟨.error e, statics, steps, s.lowered, trace⟩
partial_fixpoint

/-! ### Calls -/

/-- Calls a method with arguments.  Yields the interpreter behind the call, what the call returned,
and the lines of its trace, if the call ends. -/
def callMethod (i : Interpreter) (tracing : Bool) (method : Method) (arguments : List Int32) :
    Option (Interpreter × Except MachineError Int32 × List String) :=
  if i.maxDepth ≤ i.depth then
    some (i, .error (.callDepth i.depth), [])
  else
    match Frame.enter method arguments with
    | .error e => some (i, .error e, [])
    | .ok frame =>
      let start : RunState := { statics := i.statics, frame, depth := i.depth + 1 }
      (i.run tracing i.steps [] start).map fun r =>
        ({ i with statics := r.statics, steps := r.steps, depth := r.depth - 1 }, r.result,
          r.trace.reverse)

/-- Calls the method with a given name.  A method that returns nothing yields 0. -/
def invoke (i : Interpreter) (name : Text) (arguments : List Int32) (tracing : Bool) :
    Option (Interpreter × Except MachineError Int32 × List String) :=
  match (i.machine.findMethod? name arguments.length).bind fun n => i.methods[n]? with
  | none => some (i, .error (.noMethod (.invoked name arguments.length)), [])
  | some method => i.callMethod tracing method arguments

/-- Calls the constructor, whose receiver is represented by 0. -/
def construct (i : Interpreter) (tracing : Bool) :
    Option (Interpreter × Except MachineError Int32 × List String) :=
  match i.methodIndex[ClassFile.initName ++ ClassFile.initDescriptor]?.bind
      fun n => i.methods[n]? with
  | none => some (i, .error (.noMethod .constructor), [])
  | some method => i.callMethod tracing method [0]

/-! ### Fields -/

/-- Gives a field a value. -/
def setStatic (i : Interpreter) (name : Text) (value : Int32) : Except MachineError Interpreter :=
  (i.machine.setStatic name value).map fun m => { i with statics := m.statics }

end Interpreter

end Classwright
