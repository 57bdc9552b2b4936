import Classwright.Proofs.Machine.Effects

/-!
# Calls inside each other

A run keeps the calls that wait in a list and counts them.  `RunContext.Performs` describes the same
from the inside: a call raises the counter of calls, its frame runs, with each call it makes as a
part of its own, and on every way out the counter is lowered again.  There is no bound on how long
this goes on other than the limits themselves.

Every call ends in one way and no other (`RunContext.exists_performs`, `RunContext.Performs.unique`),
the run with the list of frames ends in the same way (`RunContext.Performs.matches`), and behind a
call the counter is what it was in front of it (`RunContext.Performs.depth_eq`).
-/

namespace Classwright

/-! ### Calls with shared counters -/

/-- What the calls of a machine share while they run. -/
structure CallState where
  /-- The values of the fields. -/
  statics : Array Int32
  /-- The number of operations counted. -/
  steps : Nat
  /-- The number of calls in progress. -/
  depth : Nat

namespace CallState

/-- One operation more is counted. -/
def counted (st : CallState) : CallState :=
  { st with steps := st.steps + 1 }

/-- A call is entered. -/
def deeper (st : CallState) : CallState :=
  { st with depth := st.depth + 1 }

/-- A call has ended. -/
def shallower (st : CallState) : CallState :=
  { st with depth := st.depth - 1 }

end CallState

/-- What is done with the counters: a method is called, or the frame of a call in progress runs. -/
inductive Activity where
  /-- A method is called with arguments. -/
  | call (method : Method) (arguments : List Int32)
  /-- A frame runs to its return. -/
  | run (frame : Frame)

namespace RunContext

/-- The next operation of a frame may run and asks for something. -/
def Asks (c : RunContext) (st : CallState) (f : Frame) (effect : Effect) : Prop :=
  ∃ op, f.current? = some op ∧ st.steps < c.maxSteps ∧ f.effect c.methods st.statics op = effect

theorem Asks.sound {c : RunContext} {st : CallState} {f : Frame} {effect : Effect}
    (h : c.Asks st f effect) :
    ∃ op, f.current? = some op ∧ effect.Sound c.methods st.statics f op := by
  obtain ⟨op, hop, -, rfl⟩ := h
  exact ⟨op, hop, Frame.sound_effect c.methods st.statics f op⟩

/-- `c.Performs st a r st'`: the activity `a` comes to the result `r` and turns what the calls share
from `st` into `st'`. -/
inductive Performs (c : RunContext) :
    CallState → Activity → Except MachineError Int32 → CallState → Prop
  /-- No more calls may be in progress. -/
  | tooDeep {st : CallState} {method : Method} {arguments : List Int32}
      (h : c.maxDepth ≤ st.depth) :
      Performs c st (.call method arguments) (.error (.callDepth st.depth)) st
  /-- The arguments do not fit into the slots of the method. -/
  | refused {st : CallState} {method : Method} {arguments : List Int32} {e : MachineError}
      (h : st.depth < c.maxDepth) (he : Frame.enter method arguments = .error e) :
      Performs c st (.call method arguments) (.error e) st
  /-- The call is in progress while its frame runs. -/
  | entered {st st' : CallState} {method : Method} {arguments : List Int32} {f : Frame}
      {r : Except MachineError Int32} (h : st.depth < c.maxDepth)
      (hf : Frame.enter method arguments = .ok f)
      (hr : Performs c st.deeper (.run f) r st') :
      Performs c st (.call method arguments) r st'.shallower
  /-- No operation is left. -/
  | fallsOff {st : CallState} {f : Frame} (h : f.current? = none) :
      Performs c st (.run f) (.error (.badCode (.fallsOff f.method.name))) st
  /-- No more operations may run. -/
  | exhausted {st : CallState} {f : Frame} {op : Operation} (h : f.current? = some op)
      (hsteps : c.maxSteps ≤ st.steps) :
      Performs c st (.run f) (.error (.stepLimit c.maxSteps)) st.counted
  /-- The operation fails. -/
  | fails {st : CallState} {f : Frame} {e : MachineError} (h : c.Asks st f (.fail e)) :
      Performs c st (.run f) (.error e) st.counted
  /-- The operation returns. -/
  | leaves {st : CallState} {f : Frame} {v : Int32} (h : c.Asks st f (.leave v)) :
      Performs c st (.run f) (.ok v) st.counted
  /-- The operation moves the frame. -/
  | moves {st st' : CallState} {f g : Frame} {statics : Array Int32}
      {r : Except MachineError Int32} (h : c.Asks st f (.move statics g))
      (hr : Performs c { st.counted with statics } (.run g) r st') : Performs c st (.run f) r st'
  /-- The operation calls a method, and the call fails. -/
  | callFails {st st' : CallState} {f waiting : Frame} {callee : Method} {arguments : List Int32}
      {e : MachineError} (h : c.Asks st f (.enter callee arguments waiting))
      (hcall : Performs c st.counted (.call callee arguments) (.error e) st') :
      Performs c st (.run f) (.error e) st'
  /-- The operation calls a method, whose result the frame has no room for. -/
  | callOverflows {st st' : CallState} {f waiting : Frame} {callee : Method}
      {arguments : List Int32} {v : Int32} {e : MachineError}
      (h : c.Asks st f (.enter callee arguments waiting))
      (hcall : Performs c st.counted (.call callee arguments) (.ok v) st')
      (hw : waiting.receive callee v = .error e) : Performs c st (.run f) (.error e) st'
  /-- The operation calls a method, and the frame goes on with its result. -/
  | callReturns {st st' st'' : CallState} {f waiting g : Frame} {callee : Method}
      {arguments : List Int32} {v : Int32} {r : Except MachineError Int32}
      (h : c.Asks st f (.enter callee arguments waiting))
      (hcall : Performs c st.counted (.call callee arguments) (.ok v) st')
      (hw : waiting.receive callee v = .ok g) (hr : Performs c st' (.run g) r st'') :
      Performs c st (.run f) r st''

variable {c : RunContext} {st st' : CallState} {a : Activity} {r : Except MachineError Int32}

/-- **The counter of calls is restored**: behind an activity as many calls are in progress as in
front of it, whether it succeeds or fails, and however deep inside. -/
theorem Performs.depth_eq (h : c.Performs st a r st') : st'.depth = st.depth := by
  induction h with
  | tooDeep | refused | fallsOff | exhausted | fails | leaves => rfl
  | entered _ _ _ ih => exact congrArg (· - 1) ih
  | moves _ _ ih => exact ih
  | callFails _ _ ih => exact ih
  | callOverflows _ _ _ ih => exact ih
  | callReturns _ _ _ _ ih ih' => exact ih'.trans ih

/-- Operations are only ever counted. -/
theorem Performs.steps_le (h : c.Performs st a r st') : st.steps ≤ st'.steps := by
  induction h with
  | tooDeep | refused | fallsOff => exact Nat.le_refl _
  | exhausted | fails | leaves => exact Nat.le_succ _
  | entered _ _ _ ih => exact ih
  | moves _ _ ih => exact Nat.le_of_succ_le ih
  | callFails _ _ ih => exact Nat.le_of_succ_le ih
  | callOverflows _ _ _ ih => exact Nat.le_of_succ_le ih
  | callReturns _ _ _ _ ih ih' => exact Nat.le_trans (Nat.le_of_succ_le ih) ih'

/-! ### Calls end -/

/-- A call ends if the run of its frame does. -/
theorem exists_performs_call {method : Method} {arguments : List Int32}
    (h : ∀ f, ∃ r st', c.Performs st.deeper (.run f) r st') :
    ∃ r st', c.Performs st (.call method arguments) r st' := by
  rcases Nat.lt_or_ge st.depth c.maxDepth with hlt | hge
  · cases hf : Frame.enter method arguments with
    | error e => exact ⟨_, _, .refused hlt hf⟩
    | ok f =>
      obtain ⟨r, st', hr⟩ := h f
      exact ⟨_, _, .entered hlt hf hr⟩
  · exact ⟨_, _, .tooDeep hge⟩

/-- The run of a frame ends.  Each operation is counted, whatever calls it is in, so fewer and fewer
are left. -/
theorem exists_performs_run (c : RunContext) (st : CallState) (f : Frame) :
    ∃ r st', c.Performs st (.run f) r st' := by
  induction hleft : c.maxSteps - st.steps using Nat.strongRecOn generalizing st f with
  | ind left ih =>
    cases hop : f.current? with
    | none => exact ⟨_, _, .fallsOff hop⟩
    | some op =>
      rcases Nat.lt_or_ge st.steps c.maxSteps with hlt | hge
      · -- each frame that runs from here on starts with more operations counted
        have hnext (st' : CallState) (hst : st.steps < st'.steps) (g : Frame) :
            ∃ r st'', c.Performs st' (.run g) r st'' :=
          ih (c.maxSteps - st'.steps) (by omega) st' g rfl
        have hask : c.Asks st f (f.effect c.methods st.statics op) := ⟨op, hop, hlt, rfl⟩
        cases heffect : f.effect c.methods st.statics op with
        | fail e => exact ⟨_, _, .fails (heffect ▸ hask)⟩
        | leave v => exact ⟨_, _, .leaves (heffect ▸ hask)⟩
        | move statics g =>
          obtain ⟨r, st', hr⟩ := hnext { st.counted with statics } (Nat.lt_succ_self _) g
          exact ⟨_, _, .moves (heffect ▸ hask) hr⟩
        | enter callee arguments waiting =>
          rw [heffect] at hask
          -- the call has an outcome, and the rest of the frame runs with what it has left
          obtain ⟨r, st', hcall⟩ :
              ∃ r st', c.Performs st.counted (.call callee arguments) r st' :=
            exists_performs_call fun g => hnext st.counted.deeper (Nat.lt_succ_self _) g
          cases r with
          | error e => exact ⟨_, _, .callFails hask hcall⟩
          | ok v =>
            cases hw : waiting.receive callee v with
            | error e => exact ⟨_, _, .callOverflows hask hcall hw⟩
            | ok g =>
              obtain ⟨r, st'', hr⟩ := hnext st' hcall.steps_le g
              exact ⟨_, _, .callReturns hask hcall hw hr⟩
      · exact ⟨_, _, .exhausted hop hge⟩

/-- **Calls end**: whatever the code is, an activity comes to a result. -/
theorem exists_performs (c : RunContext) (st : CallState) (a : Activity) :
    ∃ r st', c.Performs st a r st' := by
  cases a with
  | call method arguments => exact exists_performs_call fun f => exists_performs_run c _ f
  | run f => exact exists_performs_run c st f

/-! ### The run with the list of frames -/

end RunContext

/-- The state of a run in front of the frame `f`, with the calls that wait for it. -/
def CallState.running (st : CallState) (f : Frame) (callers : List Frame) : RunState :=
  { statics := st.statics, frame := f, callers, depth := st.depth }

namespace RunContext

variable {c : RunContext} {st st' : CallState} {a : Activity} {r : Except MachineError Int32}

/-- The run behind a transition. -/
def follow (c : RunContext) (steps : Nat) (trace : List String) : Transition → RunResult
  | .next s => c.run (c.maxSteps - steps) steps trace s
  | .halt v statics => ⟨.ok v, statics, steps, trace⟩
  | .fail e statics => ⟨.error e, statics, steps, trace⟩

/-- The run behind a part of it: an error ends the run, behind a value it goes on. -/
def proceed (st : CallState) (trace : List String) (r : Except MachineError Int32)
    (rest : Int32 → RunResult) : RunResult :=
  match r with
  | .error e => ⟨.error e, st.statics, st.steps, trace⟩
  | .ok v => rest v

/-- The run behind the call of a method for which a frame waits. -/
def goOn (c : RunContext) (st : CallState) (trace : List String) (waiting : Frame)
    (callee : Method) (callers : List Frame) (v : Int32) : RunResult :=
  match waiting.receive callee v with
  | .error e => ⟨.error e, st.statics, st.steps, trace⟩
  | .ok g => c.run (c.maxSteps - st.steps) st.steps trace (st.running g callers)

theorem run_eq_follow {f : Frame} {effect : Effect} (h : c.Asks st f effect)
    (callers : List Frame) (trace : List String) :
    ∃ trace', c.run (c.maxSteps - st.steps) st.steps trace (st.running f callers) =
      c.follow (st.steps + 1) trace'
        (effect.transition c.maxDepth (st.counted.running f callers)) := by
  obtain ⟨op, hop, hlt, rfl⟩ := h
  have hop' : (st.running f callers).frame.method.operations[(st.running f callers).frame.next]? =
      some op := hop
  obtain ⟨left, hleft⟩ : ∃ left, c.maxSteps - st.steps = left + 1 :=
    ⟨c.maxSteps - st.steps - 1, by omega⟩
  have hleft' : c.maxSteps - (st.steps + 1) = left := by omega
  refine ⟨if c.tracing then (st.running f callers).traceLine :: trace else trace, ?_⟩
  rw [hleft, run, hop']
  dsimp only
  rw [RunState.step_eq_transition]
  unfold follow
  rw [hleft']
  rfl

/-- The run with the list of frames does the same as an activity. -/
def Matches (c : RunContext) (st st' : CallState) (r : Except MachineError Int32) : Activity → Prop
  | .run f => ∀ callers trace, ∃ g trace', g.method = f.method ∧
      c.run (c.maxSteps - st.steps) st.steps trace (st.running f callers) =
        proceed st' trace' r fun v =>
          c.follow st'.steps trace' ((st'.running g callers).returning v)
  | .call callee arguments => ∀ f waiting callers trace, ∃ trace',
      c.follow st.steps trace
        ((Effect.enter callee arguments waiting).transition c.maxDepth (st.running f callers)) =
        proceed st' trace' r (c.goOn st' trace' waiting callee callers)

theorem matches_tooDeep {method : Method} {arguments : List Int32} (h : c.maxDepth ≤ st.depth) :
    c.Matches st st (.error (.callDepth st.depth)) (.call method arguments) := by
  intro f waiting callers trace
  refine ⟨trace, ?_⟩
  have hdeep : c.maxDepth ≤ (st.running f callers).depth := h
  rw [Effect.transition, if_pos hdeep]
  rfl

theorem matches_refused {method : Method} {arguments : List Int32} {e : MachineError}
    (h : st.depth < c.maxDepth) (he : Frame.enter method arguments = .error e) :
    c.Matches st st (.error e) (.call method arguments) := by
  intro f waiting callers trace
  refine ⟨trace, ?_⟩
  have hdeep : ¬ c.maxDepth ≤ (st.running f callers).depth := Nat.not_le.2 h
  rw [Effect.transition, if_neg hdeep, he]
  rfl

/-- A call does the same as the run of its frame with one more frame that waits. -/
theorem matches_entered {method : Method} {arguments : List Int32} {f : Frame}
    (h : st.depth < c.maxDepth) (hf : Frame.enter method arguments = .ok f)
    (hrun : c.Matches st.deeper st' r (.run f)) :
    c.Matches st st'.shallower r (.call method arguments) := by
  intro f' waiting callers trace
  obtain ⟨g, trace', hg, hrest⟩ := hrun (waiting :: callers) trace
  refine ⟨trace', ?_⟩
  have hdeep : ¬ c.maxDepth ≤ (st.running f' callers).depth := Nat.not_le.2 h
  rw [Effect.transition, if_neg hdeep, hf]
  refine hrest.trans ?_
  cases r with
  | error e => rfl
  | ok v =>
    -- the frame on top is still one of the called method, so its type says what is returned
    have hcallee : (st'.running g (waiting :: callers)).frame.method = method :=
      hg.trans (Frame.method_of_enter hf)
    simp only [proceed, goOn]
    rw [RunState.returning_cons rfl, hcallee]
    cases waiting.receive method v <;> rfl

/-- A frame whose next operation may not run fails at once. -/
theorem matches_stopped {f : Frame} {e : MachineError}
    (h : ∀ callers trace, c.run (c.maxSteps - st.steps) st.steps trace (st.running f callers) =
      ⟨.error e, st'.statics, st'.steps, trace⟩) :
    c.Matches st st' (.error e) (.run f) :=
  fun callers trace => ⟨f, trace, rfl, h callers trace⟩

/-- A frame does what its next operation asks for. -/
theorem matches_asks {f : Frame} {effect : Effect} (h : c.Asks st f effect)
    (hrest : ∀ callers trace, ∃ g trace', g.method = f.method ∧
      c.follow (st.steps + 1) trace
        (effect.transition c.maxDepth (st.counted.running f callers)) =
        proceed st' trace' r fun v =>
          c.follow st'.steps trace' ((st'.running g callers).returning v)) :
    c.Matches st st' r (.run f) := by
  intro callers trace
  obtain ⟨trace', hrun⟩ := run_eq_follow h callers trace
  obtain ⟨g, trace'', hg, hgoes⟩ := hrest callers trace'
  exact ⟨g, trace'', hg, hrun.trans hgoes⟩

/-- **Two views of calls**: what an activity comes to is what the run with the list of frames comes
to, from the same values and counts. -/
theorem Performs.matches (h : c.Performs st a r st') : c.Matches st st' r a := by
  induction h with
  | tooDeep h => exact matches_tooDeep h
  | refused h he => exact matches_refused h he
  | entered h hf _ ih => exact matches_entered h hf ih
  | @fallsOff st f h =>
    refine matches_stopped fun callers trace => ?_
    have hop : (st.running f callers).frame.method.operations[(st.running f callers).frame.next]? =
      none := h
    rw [run, hop]
    rfl
  | @exhausted st f op h hsteps =>
    refine matches_stopped fun callers trace => ?_
    have hop : (st.running f callers).frame.method.operations[(st.running f callers).frame.next]? =
      some op := h
    rw [Nat.sub_eq_zero_of_le hsteps, run, hop]
    rfl
  | @fails _ f _ h => exact matches_asks h fun _ trace => ⟨f, trace, rfl, rfl⟩
  | @leaves _ f _ h => exact matches_asks h fun _ trace => ⟨f, trace, rfl, rfl⟩
  | moves h _ ih =>
    obtain ⟨op, -, -, hcont⟩ := h.sound
    refine matches_asks h fun callers trace => ?_
    obtain ⟨g, trace', hg, hrest⟩ := ih callers trace
    exact ⟨g, trace', hg.trans hcont.method_eq, hrest⟩
  | @callFails _ _ f waiting _ _ _ h _ ih =>
    refine matches_asks h fun callers trace => ?_
    obtain ⟨trace', hcall⟩ := ih f waiting callers trace
    exact ⟨f, trace', rfl, hcall⟩
  | @callOverflows _ _ f waiting _ _ _ _ h _ hw ih =>
    refine matches_asks h fun callers trace => ?_
    obtain ⟨trace', hcall⟩ := ih f waiting callers trace
    refine ⟨f, trace', rfl, hcall.trans ?_⟩
    simp only [proceed, goOn, hw]
  | @callReturns _ _ _ f waiting _ _ _ _ _ h _ hw _ ih ih' =>
    obtain ⟨op, -, -, -, hcont⟩ := h.sound
    refine matches_asks h fun callers trace => ?_
    -- first the call, then the rest of the frame that waited for it
    obtain ⟨trace', hcall⟩ := ih f waiting callers trace
    obtain ⟨g, trace'', hg, hrest⟩ := ih' callers trace'
    refine ⟨g, trace'', hg.trans ((Frame.method_of_receive hw).trans hcont.method_eq),
      hcall.trans ?_⟩
    simp only [proceed, goOn, hw]
    exact hrest

/-- The outermost frame of a run ends as its activity does. -/
theorem Performs.run_eq {f : Frame} (h : c.Performs st (.run f) r st') (trace : List String) :
    ∃ trace', c.run (c.maxSteps - st.steps) st.steps trace (st.running f []) =
      ⟨r, st'.statics, st'.steps, trace'⟩ := by
  obtain ⟨g, trace', -, hrun⟩ := h.matches [] trace
  refine ⟨trace', hrun.trans ?_⟩
  cases r <;> rfl

theorem Performs.unique_run {f : Frame} (h : c.Performs st (.run f) r st')
    {r' : Except MachineError Int32} {st'' : CallState} (h' : c.Performs st (.run f) r' st'') :
    r' = r ∧ st'' = st' := by
  -- both are what the run with the list of frames comes to, and that is a function
  obtain ⟨trace, hrun⟩ := h.run_eq []
  obtain ⟨trace', hrun'⟩ := h'.run_eq []
  have hsame := RunResult.mk.inj (hrun'.symm.trans hrun)
  have hdepth : st''.depth = st'.depth := h'.depth_eq.trans h.depth_eq.symm
  obtain ⟨statics, steps, depth⟩ := st'
  obtain ⟨statics', steps', depth'⟩ := st''
  obtain ⟨rfl, rfl, rfl, -⟩ := hsame
  obtain rfl : depth' = depth := hdepth
  exact ⟨rfl, rfl⟩

/-- An activity comes to one result only. -/
theorem Performs.unique (h : c.Performs st a r st') {r' : Except MachineError Int32}
    {st'' : CallState} (h' : c.Performs st a r' st'') : r' = r ∧ st'' = st' := by
  cases a with
  | run f => exact h.unique_run h'
  | call method arguments =>
    cases h with
    | tooDeep hdeep =>
      cases h' with
      | tooDeep => exact ⟨rfl, rfl⟩
      | refused hlt _ => exact absurd hdeep (Nat.not_le.2 hlt)
      | entered hlt _ _ => exact absurd hdeep (Nat.not_le.2 hlt)
    | refused hlt he =>
      cases h' with
      | tooDeep hdeep => exact absurd hdeep (Nat.not_le.2 hlt)
      | refused _ he' =>
        obtain rfl := Except.error.inj (he'.symm.trans he)
        exact ⟨rfl, rfl⟩
      | entered _ hf _ => cases he.symm.trans hf
    | entered hlt hf hr =>
      cases h' with
      | tooDeep hdeep => exact absurd hdeep (Nat.not_le.2 hlt)
      | refused _ he => cases he.symm.trans hf
      | entered _ hf' hr' =>
        obtain rfl := Except.ok.inj (hf.symm.trans hf')
        obtain ⟨rfl, rfl⟩ := hr.unique_run hr'
        exact ⟨rfl, rfl⟩

end RunContext

end Classwright
