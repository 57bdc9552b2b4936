import Classwright.Proofs.Machine.Invariant

/-!
# What operations ask for

`Frame.effect` says what an operation asks for from the values of the fields and its own frame
alone, whatever other calls wait: a failure, another position of the frame, a return or a call.  A
step turns the run into what its frame asks for (`RunState.step_eq_transition`), and
`Frame.sound_effect` is everything that holds of it in general.
-/

namespace Classwright

/-! ### What an operation asks for -/

/-- What an operation asks of the run of its frame. -/
inductive Effect where
  /-- The run fails. -/
  | fail (error : MachineError)
  /-- The frame goes on, and the fields have new values. -/
  | move (statics : Array Int32) (frame : Frame)
  /-- The frame returns a value. -/
  | leave (value : Int32)
  /-- A method is called, and `waiting` goes on behind it. -/
  | enter (callee : Method) (arguments : List Int32) (waiting : Frame)

namespace Frame

/-- The code of a frame is wrong. -/
def refuses (reason : BadCode) : Effect :=
  .fail (.badCode reason)

/-- The frame goes on at the operation `next` with a given stack. -/
def goesOn (f : Frame) (statics : Array Int32) (next : Nat) (stack : OperandStack) : Effect :=
  .move statics { f with next, stack }

/-- The frame pushes a value on a given stack. -/
def pushes (f : Frame) (statics : Array Int32) (stack : OperandStack) (v : Int32) : Effect :=
  if f.method.maxStack ≤ stack.height then
    refuses (.stackFull f.method.name f.method.maxStack)
  else
    f.goesOn statics (f.next + 1) (stack.push v)

/-- The frame takes a value from a given stack. -/
def pops (f : Frame) (stack : OperandStack) (rest : Int32 → OperandStack → Effect) : Effect :=
  match stack.pop? with
  | none => refuses (.stackEmpty f.method.name)
  | some (v, below) => rest v below

/-- The frame goes on at a branch target. -/
def branches (f : Frame) (statics : Array Int32) (stack : OperandStack)
    (target : Except MachineError Nat) : Effect :=
  match target with
  | .error e => .fail e
  | .ok n => f.goesOn statics n stack

/-- The frame calls a method with the topmost values of its stack. -/
def calls (f : Frame) (callee : Method) (name : Text) : Effect :=
  if f.stack.height < callee.type.params then
    refuses (.tooFewArguments f.method.name name f.stack.height)
  else
    .enter callee (f.stack.split callee.type.params).1
      { f with next := f.next + 1, stack := (f.stack.split callee.type.params).2 }

/-- What an operation asks for, from the values of the fields and its own frame alone. -/
def effect (methods : Array Method) (statics : Array Int32) (f : Frame) : Operation → Effect
  | .push v => f.pushes statics f.stack v
  | .load slot =>
    match f.locals[slot]? with
    | some v => f.pushes statics f.stack v
    | none => refuses (.readsSlot f.method.name slot f.locals.size)
  | .store slot =>
    f.pops f.stack fun v stack =>
      if slot < f.locals.size then
        .move statics { f with
          next := f.next + 1, locals := f.locals.setIfInBounds slot v, stack }
      else
        refuses (.writesSlot f.method.name slot f.locals.size)
  | .pop => f.pops f.stack fun _ stack => f.goesOn statics (f.next + 1) stack
  | .arithmetic op =>
    f.pops f.stack fun right stack =>
      f.pops stack fun left stack =>
        match op.compute? left right with
        | some v => f.pushes statics stack v
        | none => .fail .divisionByZero
  | .branch test target =>
    f.pops f.stack fun right stack =>
      f.pops stack fun left stack =>
        if test.holds left right then f.branches statics stack target
        else f.goesOn statics (f.next + 1) stack
  | .jump target => f.branches statics f.stack target
  | .returnValue => f.pops f.stack fun v _ => .leave v
  | .returnNothing => .leave 0
  | .getField field => f.pushes statics f.stack (statics[field]?.getD 0)
  | .putField field =>
    f.pops f.stack fun v stack => f.goesOn (statics.setIfInBounds field v) (f.next + 1) stack
  | .callSuper => f.pops f.stack fun _ stack => f.goesOn statics (f.next + 1) stack
  | .call n name =>
    match methods[n]? with
    | some callee => f.calls callee name
    | none => refuses (.fallsOff name)
  | .fail e => .fail e

/-- A frame that waits for a call goes on with what it returned. -/
def receive (f : Frame) (callee : Method) (v : Int32) : Except MachineError Frame :=
  if callee.type.returnsInt then
    if f.method.maxStack ≤ f.stack.height then
      .error (.badCode (.stackFull f.method.name f.method.maxStack))
    else
      .ok { f with stack := f.stack.push v }
  else
    .ok f

end Frame

/-- Where a frame asks for something, this is what becomes of the whole run. -/
def Effect.transition (maxDepth : Nat) (s : RunState) : Effect → Transition
  | .fail e => s.failWith e
  | .move statics frame => .next { s with statics, frame }
  | .leave v => s.returning v
  | .enter callee arguments waiting =>
    if maxDepth ≤ s.depth then s.failWith (.callDepth s.depth)
    else
      match Frame.enter callee arguments with
      | .error e => s.failWith e
      | .ok frame =>
        .next { statics := s.statics, frame, callers := waiting :: s.callers, depth := s.depth + 1 }

namespace RunState

variable {s : RunState} {maxDepth : Nat}

theorem transition_pushes (stack : OperandStack) (v : Int32) :
    (s.frame.pushes s.statics stack v).transition maxDepth s = s.pushing stack v := by
  unfold Frame.pushes pushing
  split <;> rfl

theorem transition_pops {stack : OperandStack} {rest : Int32 → OperandStack → Effect}
    {rest' : Int32 → OperandStack → Transition}
    (h : ∀ v below, (rest v below).transition maxDepth s = rest' v below) :
    (s.frame.pops stack rest).transition maxDepth s = s.popping stack rest' := by
  unfold Frame.pops popping
  cases stack.pop? with
  | none => rfl
  | some r => exact h r.1 r.2

theorem transition_branches (stack : OperandStack) (target : Except MachineError Nat) :
    (s.frame.branches s.statics stack target).transition maxDepth s = s.goingTo stack target := by
  cases target <;> rfl

theorem transition_calls (callee : Method) (name : Text) :
    (s.frame.calls callee name).transition maxDepth s = s.calling maxDepth callee name := by
  unfold Frame.calls calling
  split
  · rfl
  · rfl

/-- **What a step does**: an operation turns the run into what its frame asks for. -/
theorem step_eq_transition (s : RunState) (methods : Array Method) (maxDepth : Nat)
    (op : Operation) :
    s.step methods maxDepth op =
      (s.frame.effect methods s.statics op).transition maxDepth s := by
  cases op with
  | push v => exact (transition_pushes _ v).symm
  | load slot =>
    simp only [step, Frame.effect]
    cases s.frame.locals[slot]? with
    | none => rfl
    | some v => exact (transition_pushes _ v).symm
  | store slot =>
    refine (transition_pops fun v below => ?_).symm
    split <;> rfl
  | pop =>
    refine (transition_pops fun _ _ => ?_).symm
    rfl
  | arithmetic op =>
    refine (transition_pops fun right below => transition_pops fun left below => ?_).symm
    cases op.compute? left right with
    | none => rfl
    | some v => exact transition_pushes below v
  | branch test target =>
    refine (transition_pops fun right below => transition_pops fun left below => ?_).symm
    split
    · exact transition_branches below target
    · rfl
  | jump target => exact (transition_branches _ target).symm
  | returnValue =>
    refine (transition_pops fun _ _ => ?_).symm
    rfl
  | returnNothing => rfl
  | getField field =>
    simp only [step, Frame.effect]
    -- a field that does not exist reads as 0
    cases s.statics[field]? with
    | none => exact (transition_pushes _ 0).symm
    | some v => exact (transition_pushes _ v).symm
  | putField field =>
    refine (transition_pops fun _ _ => ?_).symm
    rfl
  | callSuper =>
    refine (transition_pops fun _ _ => ?_).symm
    rfl
  | call n name =>
    simp only [step, Frame.effect]
    cases methods[n]? with
    | none => rfl
    | some callee => exact (transition_calls callee name).symm
  | fail e => rfl

/-- A return goes on in the frame that waits for it. -/
theorem returning_cons {waiting : Frame} {callers : List Frame} (h : s.callers = waiting :: callers)
    (v : Int32) : s.returning v =
      match waiting.receive s.frame.method v with
      | .error e => .fail e s.statics
      | .ok frame => .next { statics := s.statics, frame, callers, depth := s.depth - 1 } := by
  unfold returning Frame.receive
  rw [h]
  dsimp only
  split
  · split <;> rfl
  · rfl

end RunState

/-! ### What effects keep -/

/-- What becomes of a frame by one of its operations, while it stays in its method. -/
structure Frame.Continues (f : Frame) (op : Operation) (g : Frame) : Prop where
  /-- The method is the same. -/
  method_eq : g.method = f.method
  /-- No slots are added or removed. -/
  size_eq : g.locals.size = f.locals.size
  /-- The operation leads to the next one. -/
  leads : op.LeadsTo f.next g.next
  /-- A stack within its limit stays within it. -/
  height_le : f.stack.height ≤ f.method.maxStack → g.stack.height ≤ f.method.maxStack

/-- The values of the fields behind an operation: a store changes the field it names to the value on
top of the stack, and no other operation changes a field. -/
def Frame.Stores (f : Frame) (op : Operation) (statics statics' : Array Int32) : Prop :=
  statics' = statics ∨ ∃ field v below, op = .putField field ∧ f.stack.pop? = some (v, below) ∧
    statics' = statics.setIfInBounds field v

/-- What holds of everything an operation can ask for: it fails by the error it was linked with, by
a division by zero or because the code is wrong, it moves its own frame and changes no field but by a
store, and it calls the method it names with as many arguments as that takes. -/
def Effect.Sound (methods : Array Method) (statics : Array Int32) (f : Frame) (op : Operation) :
    Effect → Prop
  | .fail e => op.error? = some e ∨ e = .divisionByZero ∨ ∃ reason, e = .badCode reason
  | .move statics' g => f.Stores op statics statics' ∧ f.Continues op g
  | .leave _ => True
  | .enter callee arguments waiting =>
    (∃ n name, op = .call n name ∧ methods[n]? = some callee) ∧
      arguments.length = callee.type.params ∧ f.Continues op waiting

theorem Frame.Stores.size_eq {f : Frame} {op : Operation} {statics statics' : Array Int32}
    (h : f.Stores op statics statics') : statics'.size = statics.size := by
  rcases h with rfl | ⟨field, v, below, -, -, rfl⟩
  · rfl
  · exact Array.size_setIfInBounds

namespace OperandStack

theorem height_of_pop? {stack below : OperandStack} {v : Int32}
    (h : stack.pop? = some (v, below)) : below.height + 1 = stack.height := by
  obtain ⟨items, height, hheight⟩ := stack
  cases items with
  | nil => cases h
  | cons x rest =>
    obtain ⟨-, rfl⟩ := Prod.mk.inj (Option.some.inj h)
    rw [List.length_cons] at hheight
    exact Nat.sub_add_cancel (hheight ▸ Nat.le_add_left 1 _)

theorem height_le_of_pop? {stack below : OperandStack} {v : Int32}
    (h : stack.pop? = some (v, below)) : below.height ≤ stack.height :=
  Nat.le_of_succ_le (height_of_pop? h).le

end OperandStack

namespace Frame

variable {methods : Array Method} {statics : Array Int32} {f : Frame} {op : Operation}

theorem sound_refuses (reason : BadCode) :
    (refuses reason).Sound methods statics f op :=
  Or.inr (Or.inr ⟨reason, rfl⟩)

theorem sound_goesOn {next : Nat} {stack : OperandStack} (hnext : op.LeadsTo f.next next)
    (hstack : stack.height ≤ f.stack.height) :
    (f.goesOn statics next stack).Sound methods statics f op :=
  ⟨Or.inl rfl, rfl, rfl, hnext, Nat.le_trans hstack⟩

theorem sound_pushes (hnext : op.LeadsTo f.next (f.next + 1)) (stack : OperandStack) (v : Int32) :
    (f.pushes statics stack v).Sound methods statics f op := by
  unfold pushes
  split
  · exact sound_refuses _
  · rename_i hroom
    exact ⟨Or.inl rfl, rfl, rfl, hnext, fun _ => Nat.not_le.1 hroom⟩

theorem sound_pops {stack : OperandStack} {rest : Int32 → OperandStack → Effect}
    (h : ∀ v below, stack.pop? = some (v, below) → (rest v below).Sound methods statics f op) :
    (f.pops stack rest).Sound methods statics f op := by
  unfold pops
  cases hpop : stack.pop? with
  | none => exact sound_refuses _
  | some r => exact h r.1 r.2 hpop

theorem sound_branches {stack : OperandStack} {target : Except MachineError Nat}
    (hstack : stack.height ≤ f.stack.height) (hnext : ∀ n, target = .ok n → op.LeadsTo f.next n)
    (herror : ∀ e, target = .error e → op.error? = some e) :
    (f.branches statics stack target).Sound methods statics f op := by
  cases target with
  | error e => exact Or.inl (herror e rfl)
  | ok n => exact sound_goesOn (hnext n rfl) hstack

/-- A call takes as many values from the stack as the method has parameters. -/
theorem sound_calls {n : Nat} {callee : Method} (hcallee : methods[n]? = some callee)
    (name : Text) : (f.calls callee name).Sound methods statics f (.call n name) := by
  unfold calls
  split
  · exact sound_refuses _
  · rename_i henough
    refine ⟨⟨n, name, rfl, hcallee⟩, ?_, rfl, rfl, rfl, Nat.le_trans (Nat.sub_le _ _)⟩
    rw [OperandStack.split, List.length_reverse, List.length_take, f.stack.height_eq]
    exact Nat.min_eq_left (Nat.not_lt.1 henough)

theorem sound_effect (methods : Array Method) (statics : Array Int32) (f : Frame)
    (op : Operation) : (f.effect methods statics op).Sound methods statics f op := by
  cases op with
  | push v => exact sound_pushes (by rfl) _ v
  | load slot =>
    simp only [effect]
    cases f.locals[slot]? with
    | none => exact sound_refuses _
    | some v => exact sound_pushes (by rfl) _ v
  | store slot =>
    refine sound_pops fun v below hpop => ?_
    split
    · exact ⟨Or.inl rfl, rfl, Array.size_setIfInBounds, rfl,
        Nat.le_trans (OperandStack.height_le_of_pop? hpop)⟩
    · exact sound_refuses _
  | pop => exact sound_pops fun _ _ hpop => sound_goesOn rfl (OperandStack.height_le_of_pop? hpop)
  | arithmetic op =>
    refine sound_pops fun right below _ => sound_pops fun left below _ => ?_
    cases op.compute? left right with
    | none => exact Or.inr (Or.inl rfl)
    | some v => exact sound_pushes (by rfl) _ v
  | branch test target =>
    refine sound_pops fun right above hpop => sound_pops fun left below hpop' => ?_
    -- wherever control goes, the two values are gone
    have hstack := Nat.le_trans (OperandStack.height_le_of_pop? hpop')
      (OperandStack.height_le_of_pop? hpop)
    split
    · exact sound_branches hstack (fun n hn => Or.inr hn) (by rintro e rfl; rfl)
    · exact sound_goesOn (Or.inl rfl) hstack
  | jump target => exact sound_branches (Nat.le_refl _) (fun n hn => hn) (by rintro e rfl; rfl)
  | returnValue => exact sound_pops fun _ _ _ => trivial
  | returnNothing => trivial
  | getField field => exact sound_pushes (by rfl) _ _
  | putField field =>
    exact sound_pops fun v below hpop =>
      ⟨Or.inr ⟨field, v, below, rfl, hpop, rfl⟩, rfl, rfl, rfl,
        Nat.le_trans (OperandStack.height_le_of_pop? hpop)⟩
  | callSuper =>
    exact sound_pops fun _ _ hpop => sound_goesOn rfl (OperandStack.height_le_of_pop? hpop)
  | call n name =>
    simp only [effect]
    cases hcallee : methods[n]? with
    | none => exact sound_refuses _
    | some callee => exact sound_calls hcallee name
  | fail e => exact Or.inl rfl

/-- A frame that goes on with a result changes its stack only, and keeps it within its limit. -/
theorem exists_of_receive {waiting g : Frame} {callee : Method} {v : Int32}
    (h : waiting.receive callee v = .ok g) : ∃ stack, g = { waiting with stack } ∧
      (waiting.stack.height ≤ waiting.method.maxStack →
        stack.height ≤ waiting.method.maxStack) := by
  unfold receive at h
  split at h
  · split at h
    · cases h
    · rename_i hroom
      exact ⟨_, (Except.ok.inj h).symm, fun _ => Nat.not_le.1 hroom⟩
  · exact ⟨_, (Except.ok.inj h).symm, id⟩

/-- A result is refused only because the stack is full. -/
theorem eq_of_receive_eq_error {waiting : Frame} {callee : Method} {v : Int32} {e : MachineError}
    (h : waiting.receive callee v = .error e) :
    e = .badCode (.stackFull waiting.method.name waiting.method.maxStack) := by
  unfold receive at h
  split at h
  · split at h
    · exact (Except.error.inj h).symm
    · cases h
  · cases h

theorem method_of_receive {waiting g : Frame} {callee : Method} {v : Int32}
    (h : waiting.receive callee v = .ok g) : g.method = waiting.method := by
  obtain ⟨stack, rfl, -⟩ := exists_of_receive h
  rfl

end Frame

end Classwright
