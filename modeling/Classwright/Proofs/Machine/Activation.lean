import Classwright.Proofs.Bytecode.Codec
import Classwright.Proofs.Machine.Execution
import Classwright.Proofs.Numbering

/-!
# Calls in progress

Inside one call only the fields, the local slots, the stack and the place in the code change.
`Activation.state` is the state of a run in which they are given, and the lemmas say which state
each operation leads to from there.
-/

namespace Classwright

namespace LinkContext

theorem startsOf_eq (located : List (Nat × Instruction)) :
    startsOf located = (numberFrom Prod.fst {} 0 located).1 := rfl

/-- The operation behind `pre` starts where the code of `pre` ends. -/
theorem getElem?_startsOf (pre : Code) (i : Instruction) (post : Code) :
    (startsOf (Code.locate 0 (pre ++ i :: post)))[pre.size]? = some pre.length := by
  rw [startsOf_eq, getElem?_numbering _ (Code.nodup_locate 0 _), List.getElem?_map,
    Code.getElem?_locate]
  simp

/-- A branch whose distance ends at an instruction goes to that instruction. -/
theorem target_eq_ok {m : RawMethod} {j : Instruction} {pre post : Code}
    (hcode : m.code = pre ++ j :: post) (i : Instruction) (pc : Nat)
    (h : (pc : Int) + i.operand = pre.size) :
    target m (startsOf (Code.locate 0 m.code)) pc i = .ok pre.length := by
  rw [target, Instruction.target, h]
  simp [hcode, getElem?_startsOf]

end LinkContext

/-- A call in progress: its method and the calls that wait for it. -/
structure Activation where
  /-- The names that instructions refer to. -/
  context : LinkContext
  /-- The method. -/
  raw : RawMethod
  /-- The calls that wait for it. -/
  callers : List Frame
  /-- The number of calls in progress. -/
  depth : Nat

namespace Activation

/-- The linked method. -/
def method (a : Activation) : Method :=
  a.context.link a.raw

/-- The frame in front of the operation `next`. -/
def frame (a : Activation) (locals : Array Int32) (next : Nat) (stack : List Int32) : Frame :=
  { method := a.method, next, locals, stack := ⟨stack, stack.length, rfl⟩ }

/-- The state of a run in front of the operation `next`. -/
def state (a : Activation) (statics locals : Array Int32) (next : Nat) (stack : List Int32) :
    RunState :=
  { statics, frame := a.frame locals next stack, callers := a.callers, depth := a.depth }

/-- The call of another method, behind which a call goes on at `next`. -/
def enter (a : Activation) (raw : RawMethod) (locals : Array Int32) (next : Nat)
    (stack : List Int32) : Activation :=
  { context := a.context, raw, callers := a.frame locals next stack :: a.callers,
    depth := a.depth + 1 }

/-- What a return leads to. -/
def answer (a : Activation) (statics : Array Int32) (v : Int32) : Transition :=
  (a.state statics #[] 0 []).returning v

/-- The operation of the instruction behind `pre`. -/
def operation (a : Activation) (pre : Code) (i : Instruction) : Operation :=
  a.context.operation a.raw (LinkContext.startsOf (Code.locate 0 a.raw.code)) pre.size i

variable {a : Activation} {c : RunContext} {pre post : Code} {i : Instruction}
  {statics locals : Array Int32} {stack : List Int32}

theorem getElem?_operations (hcode : a.raw.code = pre ++ i :: post) :
    a.method.operations[pre.length]? = some (a.operation pre i) := by
  simp only [method, LinkContext.link, List.getElem?_toArray, List.getElem?_map]
  rw [hcode, Code.getElem?_locate, operation, hcode]
  simp

theorem steps (hcode : a.raw.code = pre ++ i :: post) {op : Operation}
    (hop : a.operation pre i = op) {t : Transition}
    (ht : (a.state statics locals pre.length stack).step c.methods c.maxDepth op = t) :
    c.Steps (a.state statics locals pre.length stack) t :=
  ⟨op, hop ▸ getElem?_operations hcode, ht⟩

/-! ### Operations -/

variable {v x y : Int32}

theorem length_concat (pre : Code) (i : Instruction) : (pre ++ [i]).length = pre.length + 1 := by
  rw [List.length_append, List.length_singleton]

/-- A value on a stack that has room for it. -/
theorem pushing_eq {next : Nat} {stack' : List Int32} (h : stack.length < a.method.maxStack) :
    (a.state statics locals next stack').pushing ⟨stack, stack.length, rfl⟩ v =
      .next (a.state statics locals (next + 1) (v :: stack)) := by
  exact if_neg (Nat.not_le.2 h)

section Straight

variable (hcode : a.raw.code = pre ++ i :: post)

include hcode

theorem steps_push (hop : a.operation pre i = .push v) (h : stack.length < a.method.maxStack) :
    c.Steps (a.state statics locals pre.length stack)
      (.next (a.state statics locals (pre ++ [i]).length (v :: stack))) := by
  rw [length_concat]
  exact steps hcode hop (pushing_eq h)

theorem steps_load {slot : Nat} (hop : a.operation pre i = .load slot)
    (hv : locals[slot]? = some v) (h : stack.length < a.method.maxStack) :
    c.Steps (a.state statics locals pre.length stack)
      (.next (a.state statics locals (pre ++ [i]).length (v :: stack))) := by
  rw [length_concat]
  refine steps hcode hop ?_
  have hslot : (a.state statics locals pre.length stack).frame.locals[slot]? = some v := hv
  simp only [RunState.step, hslot]
  exact pushing_eq h

theorem steps_getField {field : Nat} (hop : a.operation pre i = .getField field)
    (hv : statics[field]? = some v) (h : stack.length < a.method.maxStack) :
    c.Steps (a.state statics locals pre.length stack)
      (.next (a.state statics locals (pre ++ [i]).length (v :: stack))) := by
  rw [length_concat]
  refine steps hcode hop ?_
  have hfield : (a.state statics locals pre.length stack).statics[field]? = some v := hv
  simp only [RunState.step, hfield]
  exact pushing_eq h

theorem steps_store {slot : Nat} (hop : a.operation pre i = .store slot)
    (h : slot < locals.size) :
    c.Steps (a.state statics locals pre.length (v :: stack))
      (.next (a.state statics (locals.setIfInBounds slot v) (pre ++ [i]).length stack)) := by
  rw [length_concat]
  refine steps hcode hop ?_
  exact if_pos h

theorem steps_putField {field : Nat} (hop : a.operation pre i = .putField field) :
    c.Steps (a.state statics locals pre.length (v :: stack))
      (.next (a.state (statics.setIfInBounds field v) locals (pre ++ [i]).length stack)) := by
  rw [length_concat]
  exact steps hcode hop rfl

theorem steps_pop (hop : a.operation pre i = .pop ∨ a.operation pre i = .callSuper) :
    c.Steps (a.state statics locals pre.length (v :: stack))
      (.next (a.state statics locals (pre ++ [i]).length stack)) := by
  rw [length_concat]
  rcases hop with hop | hop <;> exact steps hcode hop rfl

theorem steps_arithmetic {op : Operator} (hop : a.operation pre i = .arithmetic op)
    (hv : op.compute? x y = some v) (h : stack.length < a.method.maxStack) :
    c.Steps (a.state statics locals pre.length (y :: x :: stack))
      (.next (a.state statics locals (pre ++ [i]).length (v :: stack))) := by
  rw [length_concat]
  refine steps hcode hop ?_
  simp only [RunState.step, RunState.popping, OperandStack.pop?, state, frame, hv]
  exact pushing_eq h

theorem fails_arithmetic {op : Operator} (hop : a.operation pre i = .arithmetic op)
    (hv : op.compute? x y = none) :
    c.Steps (a.state statics locals pre.length (y :: x :: stack))
      (.fail .divisionByZero statics) := by
  refine steps hcode hop ?_
  simp only [RunState.step, RunState.popping, OperandStack.pop?, state, frame, hv]
  rfl

theorem steps_jump {n : Nat} (hop : a.operation pre i = .jump (.ok n)) :
    c.Steps (a.state statics locals pre.length stack)
      (.next (a.state statics locals n stack)) :=
  steps hcode hop rfl

theorem steps_branch {test : Test} {n : Nat} (hop : a.operation pre i = .branch test (.ok n)) :
    c.Steps (a.state statics locals pre.length (y :: x :: stack))
      (.next (a.state statics locals
        (if test.holds x y then n else (pre ++ [i]).length) stack)) := by
  rw [length_concat]
  refine steps hcode hop ?_
  simp only [RunState.step, RunState.popping, OperandStack.pop?, state, frame]
  split <;> rfl

/-- A return of the value on the stack. -/
theorem steps_returnValue (hop : a.operation pre i = .returnValue) :
    c.Steps (a.state statics locals pre.length (v :: stack)) (a.answer statics v) :=
  steps hcode hop rfl

/-- A return of nothing. -/
theorem steps_returnNothing (hop : a.operation pre i = .returnNothing) :
    c.Steps (a.state statics locals pre.length stack) (a.answer statics 0) :=
  steps hcode hop rfl

end Straight

/-! ### Calls -/

theorem split_append (arguments stack : List Int32) :
    OperandStack.split ⟨arguments.reverse ++ stack, (arguments.reverse ++ stack).length, rfl⟩
      arguments.length = (arguments, ⟨stack, stack.length, rfl⟩) := by
  simp [OperandStack.split, List.take_left', List.drop_left']

/-- A call of a method, whose arguments stand on the stack. -/
theorem calling_eq {maxDepth next : Nat} {raw : RawMethod} {arguments : List Int32} (name : Text)
    (hparams : raw.type.params = arguments.length)
    (hlocals : arguments.length ≤ raw.body.maxLocals.toNat) :
    (a.state statics locals next (arguments.reverse ++ stack)).calling maxDepth
      (a.context.link raw) name =
      if maxDepth ≤ a.depth then .fail (.callDepth a.depth) statics
      else .next ((a.enter raw locals (next + 1) stack).state statics
        (arguments.toArray ++ Array.replicate (raw.body.maxLocals.toNat - arguments.length) 0)
        0 []) := by
  have hheight : ¬ (a.state statics locals next (arguments.reverse ++ stack)).frame.stack.height <
      (a.context.link raw).type.params := by
    change ¬ (arguments.reverse ++ stack).length < raw.type.params
    rw [hparams, List.length_append, List.length_reverse]
    omega
  have hsplit : (a.state statics locals next (arguments.reverse ++ stack)).frame.stack.split
      (a.context.link raw).type.params = (arguments, ⟨stack, stack.length, rfl⟩) := by
    change OperandStack.split ⟨_, _, _⟩ raw.type.params = _
    rw [hparams]
    exact split_append arguments stack
  have henter : Frame.enter (a.context.link raw) arguments = .ok {
      method := a.context.link raw
      locals := arguments.toArray ++
        Array.replicate (raw.body.maxLocals.toNat - arguments.length) 0 } :=
    if_neg (Nat.not_lt.2 hlocals)
  rw [RunState.calling, if_neg hheight]
  simp only [hsplit, henter]
  rfl

/-- The return of the first call ends the run. -/
theorem answer_of_nil (h : a.callers = []) : a.answer statics v = .halt v statics := by
  rw [answer, RunState.returning]
  simp only [state, h]

/-- A return to the call that waits for it. -/
theorem answer_enter {raw : RawMethod} {next : Nat}
    (h : raw.type.returnsInt = true → stack.length < a.method.maxStack) :
    (a.enter raw locals next stack).answer statics v =
      .next (a.state statics locals next
        (if raw.type.returnsInt then v :: stack else stack)) := by
  have hreturns : ((a.enter raw locals next stack).state statics #[] 0 []).frame.method.type =
      raw.type := rfl
  rw [answer, RunState.returning]
  simp only [hreturns]
  simp only [state, enter]
  split
  · rename_i hint
    exact if_neg (Nat.not_le.2 (h hint))
  · rfl

end Activation

end Classwright
