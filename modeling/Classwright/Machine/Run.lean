import Classwright.Machine.Link

/-!
# Running code

Each call has a frame with local slots and an operand stack.  Frames of calls that wait for another
one are kept in a list, so a step is a function of the whole state, and a run is as many steps as
the limit allows.
-/

namespace Classwright

/-- An operand stack that knows its height. -/
structure OperandStack where
  /-- The values, the topmost first. -/
  items : List Int32 := []
  /-- The number of values. -/
  height : Nat := 0
  /-- The height is right. -/
  height_eq : items.length = height := by rfl

namespace OperandStack

/-- Puts a value on top. -/
@[inline] def push (s : OperandStack) (v : Int32) : OperandStack :=
  ⟨v :: s.items, s.height + 1, by simp [s.height_eq]⟩

/-- The topmost value and what is below it. -/
@[inline] def pop? (s : OperandStack) : Option (Int32 × OperandStack) :=
  match s with
  | ⟨[], _, _⟩ => none
  | ⟨v :: rest, height, h⟩ => some (v, ⟨rest, height - 1, by simp at h; omega⟩)

/-- The `n` topmost values, the lowest first, and what is below them. -/
def split (s : OperandStack) (n : Nat) : List Int32 × OperandStack :=
  ((s.items.take n).reverse,
    ⟨s.items.drop n, s.height - n, by rw [List.length_drop, s.height_eq]⟩)

instance : Inhabited OperandStack := ⟨{}⟩

end OperandStack

/-- A call in progress. -/
structure Frame where
  /-- The method. -/
  method : Method
  /-- The number of the next operation. -/
  next : Nat := 0
  /-- The local slots. -/
  locals : Array Int32
  /-- The operand stack. -/
  stack : OperandStack := {}
  deriving Inhabited

/-- A run in progress. -/
structure RunState where
  /-- The values of the fields. -/
  statics : Array Int32
  /-- The current call. -/
  frame : Frame
  /-- The calls that wait for it, the latest first. -/
  callers : List Frame := []
  /-- The number of calls in progress. -/
  depth : Nat := 1
  deriving Inhabited

/-- What an operation leads to. -/
inductive Transition where
  /-- The run goes on. -/
  | next (s : RunState)
  /-- The first call returns; a call that returns nothing counts as returning 0. -/
  | halt (value : Int32) (statics : Array Int32)
  /-- The run fails. -/
  | fail (error : MachineError) (statics : Array Int32)
  deriving Inhabited

/-- A frame for a call, unless the method has fewer slots than there are arguments; slots behind
the arguments start at 0. -/
def Frame.enter (m : Method) (arguments : List Int32) : Except MachineError Frame :=
  if m.maxLocals < arguments.length then
    .error (.badCode (.tooFewLocals m.name arguments.length m.maxLocals))
  else
    .ok {
      method := m
      locals := arguments.toArray ++ Array.replicate (m.maxLocals - arguments.length) 0 }

namespace RunState

/-- Fails with an error. -/
@[inline] def failWith (s : RunState) (e : MachineError) : Transition :=
  .fail e s.statics

/-- Fails because the code is wrong. -/
@[inline] def bad (s : RunState) (reason : BadCode) : Transition :=
  .fail (.badCode reason) s.statics

/-- Goes on at the operation `next` with a given stack. -/
@[inline] def proceed (s : RunState) (next : Nat) (stack : OperandStack) : Transition :=
  .next { s with frame := { s.frame with next, stack } }

/-- Pushes a value on a given stack and goes on. -/
@[inline] def pushing (s : RunState) (stack : OperandStack) (v : Int32) : Transition :=
  if s.frame.method.maxStack ≤ stack.height then
    s.bad (.stackFull s.frame.method.name s.frame.method.maxStack)
  else
    s.proceed (s.frame.next + 1) (stack.push v)

/-- Takes a value from the stack. -/
@[inline] def popping (s : RunState) (stack : OperandStack)
    (f : Int32 → OperandStack → Transition) : Transition :=
  match stack.pop? with
  | none => s.bad (.stackEmpty s.frame.method.name)
  | some (v, rest) => f v rest

/-- Goes on at a resolved branch target. -/
@[inline] def goingTo (s : RunState) (stack : OperandStack) (target : Except MachineError Nat) :
    Transition :=
  match target with
  | .error e => s.failWith e
  | .ok n => s.proceed n stack

/-- Returns a value to the waiting call. -/
def returning (s : RunState) (value : Int32) : Transition :=
  match s.callers with
  | [] => .halt value s.statics
  | caller :: rest =>
    let back : RunState :=
      { statics := s.statics, frame := caller, callers := rest, depth := s.depth - 1 }
    if s.frame.method.type.returnsInt then
      if caller.method.maxStack ≤ caller.stack.height then
        back.bad (.stackFull caller.method.name caller.method.maxStack)
      else
        .next { back with frame := { caller with stack := caller.stack.push value } }
    else
      .next back

/-- Calls a method with the topmost values of the stack. -/
def calling (maxDepth : Nat) (s : RunState) (callee : Method) (name : Text) : Transition :=
  if s.frame.stack.height < callee.type.params then
    s.bad (.tooFewArguments s.frame.method.name name s.frame.stack.height)
  else
    let (arguments, stack) := s.frame.stack.split callee.type.params
    if maxDepth ≤ s.depth then
      s.failWith (.callDepth s.depth)
    else
      match Frame.enter callee arguments with
      | .error e => s.failWith e
      | .ok frame =>
        .next {
          statics := s.statics
          frame
          callers := { s.frame with next := s.frame.next + 1, stack } :: s.callers
          depth := s.depth + 1 }

/-- Runs an operation. -/
def step (methods : Array Method) (maxDepth : Nat) (s : RunState) (op : Operation) : Transition :=
  match op with
  | .push v => s.pushing s.frame.stack v
  | .load slot =>
    match s.frame.locals[slot]? with
    | some v => s.pushing s.frame.stack v
    | none => s.bad (.readsSlot s.frame.method.name slot s.frame.locals.size)
  | .store slot =>
    s.popping s.frame.stack fun v stack =>
      if slot < s.frame.locals.size then
        .next { s with
          frame := { s.frame with
            next := s.frame.next + 1
            locals := s.frame.locals.setIfInBounds slot v
            stack } }
      else
        s.bad (.writesSlot s.frame.method.name slot s.frame.locals.size)
  | .pop => s.popping s.frame.stack fun _ stack => s.proceed (s.frame.next + 1) stack
  | .arithmetic op =>
    s.popping s.frame.stack fun right stack =>
      s.popping stack fun left stack =>
        match op.compute? left right with
        | some v => s.pushing stack v
        | none => s.failWith .divisionByZero
  | .branch test target =>
    s.popping s.frame.stack fun right stack =>
      s.popping stack fun left stack =>
        if test.holds left right then s.goingTo stack target
        else s.proceed (s.frame.next + 1) stack
  | .jump target => s.goingTo s.frame.stack target
  | .returnValue => s.popping s.frame.stack fun v _ => s.returning v
  | .returnNothing => s.returning 0
  | .getField field =>
    match s.statics[field]? with
    | some v => s.pushing s.frame.stack v
    | none => s.pushing s.frame.stack 0
  | .putField field =>
    s.popping s.frame.stack fun v stack =>
      .next { s with
        statics := s.statics.setIfInBounds field v
        frame := { s.frame with next := s.frame.next + 1, stack } }
  | .callSuper => s.popping s.frame.stack fun _ stack => s.proceed (s.frame.next + 1) stack
  | .call n name =>
    match methods[n]? with
    | some callee => s.calling maxDepth callee name
    | none => s.bad (.fallsOff name)
  | .fail e => s.failWith e

/-- The line of the trace for the next operation. -/
def traceLine (s : RunState) : String :=
  let m := s.frame.method
  let values := String.intercalate " "
    (s.frame.stack.items.reverse.map fun v => toString v.toInt)
  match m.source[s.frame.next]? with
  | none => ""
  | some (pc, i) =>
    s!"vm: {(m.name ++ m.descriptor).shown} {padLeft 4 (toString pc)}: " ++
      s!"{padRight 20 (i.text pc)} stack=[{values}]"

end RunState

/-- How a run ends. -/
structure RunResult where
  /-- The value returned, or the error. -/
  result : Except MachineError Int32
  /-- The values of the fields. -/
  statics : Array Int32
  /-- The number of operations counted, one more than were run if the limit was hit. -/
  steps : Nat
  /-- The trace, the latest line first. -/
  trace : List String
  deriving Inhabited

/-- What a run depends on. -/
structure RunContext where
  /-- The methods. -/
  methods : Array Method
  /-- How many operations may run over the lifetime of a machine. -/
  maxSteps : Nat
  /-- How many calls may be in progress at once. -/
  maxDepth : Nat
  /-- Whether a trace is kept. -/
  tracing : Bool := false
  deriving Inhabited

namespace RunContext

/-- Runs up to `fuel` operations behind `steps` earlier ones. -/
def run (c : RunContext) (fuel steps : Nat) (trace : List String) (s : RunState) : RunResult :=
  match s.frame.method.operations[s.frame.next]? with
  | none => ⟨.error (.badCode (.fallsOff s.frame.method.name)), s.statics, steps, trace⟩
  | some op =>
    match fuel with
    | 0 => ⟨.error (.stepLimit c.maxSteps), s.statics, steps + 1, trace⟩
    | fuel + 1 =>
      let trace := if c.tracing then s.traceLine :: trace else trace
      match s.step c.methods c.maxDepth op with
      | .next s => c.run fuel (steps + 1) trace s
      | .halt value statics => ⟨.ok value, statics, steps + 1, trace⟩
      | .fail e statics => ⟨.error e, statics, steps + 1, trace⟩

end RunContext

end Classwright
