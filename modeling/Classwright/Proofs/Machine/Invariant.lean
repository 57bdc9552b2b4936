import Classwright.Proofs.Machine.Control
import Classwright.Proofs.Machine.Requests

/-!
# Invariants of frames

A `FrameInvariant` is a property of frames together with the errors that are allowed to arise.  Its
laws speak about one frame at a time: how it is entered, how it moves from one operation to the
next, and which errors its operations may run into.  From these, proved once for all invariants,
each operation keeps the property of all frames of a run (`FrameInvariant.step`), and whatever is
asked of a machine is answered without an error other than the allowed ones
(`FrameInvariant.allows_of_mem`).
-/

namespace Classwright

/-- The errors that arise from the values and the limits of a run, not from what its instructions
refer to. -/
def MachineError.isOrdinary : MachineError → Bool
  | divisionByZero | stepLimit _ | callDepth _ | noMethod _ | noField _ => true
  | badCode (.stackFull _ _) | badCode (.stackEmpty _) | badCode (.tooFewArguments _ _ _)
  | badCode (.tooFewLocals _ _ _) => true
  | _ => false

/-- The error an operation was linked with because something it refers to is missing. -/
def Operation.error? : Operation → Option MachineError
  | fail e | branch _ (.error e) | jump (.error e) => some e
  | _ => none

/-- The slot an operation reads or writes. -/
def Operation.slot? : Operation → Option Nat
  | load slot | store slot => some slot
  | _ => none

/-- The operation in front of which a frame is. -/
def Frame.current? (f : Frame) : Option Operation :=
  f.method.operations[f.next]?

/-- A property of frames that the operations of some methods keep, and the errors they allow. -/
structure FrameInvariant (methods : Array Method) where
  /-- What holds of the frames of a run. -/
  frame : Frame → Prop
  /-- The errors that may arise. -/
  allows : MachineError → Prop
  /-- It holds at the start of a call. -/
  enter : ∀ method ∈ methods, ∀ arguments f, Frame.enter method arguments = .ok f → frame f
  /-- It holds where an operation leads to. -/
  move : ∀ (f : Frame) (op : Operation) (next : Nat) (locals : Array Int32) (stack : OperandStack),
    frame f → f.current? = some op → op.LeadsTo f.next next → locals.size = f.locals.size →
      frame { f with next, locals, stack }
  /-- It does not depend on the stack. -/
  restack : ∀ (f : Frame) (stack : OperandStack), frame f → frame { f with stack }
  /-- The errors that operations were linked with are allowed. -/
  linked : ∀ (f : Frame) (op : Operation) (e : MachineError), frame f → f.current? = some op →
    op.error? = some e → allows e
  /-- If a slot that is read does not exist, that is allowed. -/
  load : ∀ (f : Frame) (slot : Nat), frame f → f.current? = some (.load slot) →
    f.locals.size ≤ slot → allows (.badCode (.readsSlot f.method.name slot f.locals.size))
  /-- If a slot that is written does not exist, that is allowed. -/
  store : ∀ (f : Frame) (slot : Nat), frame f → f.current? = some (.store slot) →
    f.locals.size ≤ slot → allows (.badCode (.writesSlot f.method.name slot f.locals.size))
  /-- If a method that is called does not exist, that is allowed. -/
  callee : ∀ (f : Frame) (n : Nat) (name : Text), frame f → f.current? = some (.call n name) →
    methods[n]? = none → allows (.badCode (.fallsOff name))
  /-- If no operation is left, running past the end is allowed. -/
  ending : ∀ f : Frame, frame f → f.current? = none → allows (.badCode (.fallsOff f.method.name))
  /-- Errors of values and limits are allowed. -/
  ordinary : ∀ e : MachineError, e.isOrdinary = true → allows e

namespace FrameInvariant

variable {methods : Array Method} (inv : FrameInvariant methods)

/-- All frames of a state have the property. -/
structure Holds (s : RunState) : Prop where
  /-- The current call has it, -/
  frame : inv.frame s.frame
  /-- and so have those that wait. -/
  callers : ∀ caller ∈ s.callers, inv.frame caller

/-- A transition to a state with the property, to the end, or to a failure by an allowed error. -/
def Keeps : Transition → Prop
  | .next s => inv.Holds s
  | .halt _ _ => True
  | .fail e _ => inv.allows e

variable {inv} {s : RunState} {op : Operation}

/-! ### Steps -/

theorem Holds.proceed (h : inv.Holds s) (hop : s.frame.current? = some op) {next : Nat}
    (hnext : op.LeadsTo s.frame.next next) (stack : OperandStack) :
    inv.Keeps (s.proceed next stack) :=
  ⟨inv.move s.frame op next s.frame.locals stack h.frame hop hnext rfl, h.callers⟩

theorem Holds.pushing (h : inv.Holds s) (hop : s.frame.current? = some op)
    (hnext : op.LeadsTo s.frame.next (s.frame.next + 1)) (stack : OperandStack) (v : Int32) :
    inv.Keeps (s.pushing stack v) := by
  unfold RunState.pushing
  split
  · exact inv.ordinary _ rfl
  · exact h.proceed hop hnext _

theorem keeps_popping (stack : OperandStack) {f : Int32 → OperandStack → Transition}
    (hf : ∀ v rest, inv.Keeps (f v rest)) : inv.Keeps (s.popping stack f) := by
  unfold RunState.popping
  split
  · exact inv.ordinary _ rfl
  · exact hf _ _

theorem Holds.goingTo (h : inv.Holds s) (hop : s.frame.current? = some op) (stack : OperandStack)
    {target : Except MachineError Nat}
    (hnext : ∀ next, target = .ok next → op.LeadsTo s.frame.next next)
    (herror : ∀ e, target = .error e → op.error? = some e) :
    inv.Keeps (s.goingTo stack target) := by
  cases target with
  | error e => exact inv.linked s.frame op e h.frame hop (herror e rfl)
  | ok next => exact h.proceed hop (hnext next rfl) stack

/-- A return goes back to the frame that waits for it. -/
theorem Holds.returning (h : inv.Holds s) (v : Int32) : inv.Keeps (s.returning v) := by
  have hcallers := h.callers
  unfold RunState.returning
  cases hs : s.callers with
  | nil => exact trivial
  | cons caller rest =>
    rw [hs, List.forall_mem_cons] at hcallers
    obtain ⟨hcaller, hrest⟩ := hcallers
    dsimp only
    split
    · split
      · exact inv.ordinary _ rfl
      · exact ⟨inv.restack caller _ hcaller, hrest⟩
    · exact ⟨hcaller, hrest⟩

theorem allows_of_enter {m : Method} {arguments : List Int32} {e : MachineError}
    (h : Frame.enter m arguments = .error e) : inv.allows e := by
  obtain rfl := Frame.eq_of_enter_eq_error h
  exact inv.ordinary _ rfl

/-- The frame of a call has the property, and so has the one that waits for it. -/
theorem Holds.calling (h : inv.Holds s) {n : Nat} {name : Text}
    (hop : s.frame.current? = some (.call n name)) {callee : Method} (hcallee : callee ∈ methods)
    (maxDepth : Nat) : inv.Keeps (s.calling maxDepth callee name) := by
  unfold RunState.calling
  split
  · exact inv.ordinary _ rfl
  · dsimp only
    split
    · exact inv.ordinary _ rfl
    · split
      · rename_i e he
        exact allows_of_enter he
      · rename_i frame hframe
        refine ⟨inv.enter callee hcallee _ frame hframe, List.forall_mem_cons.2 ⟨?_, h.callers⟩⟩
        exact inv.move s.frame _ _ s.frame.locals _ h.frame hop rfl rfl

/-- **Preservation**: an operation keeps the property of all frames or fails by an allowed error. -/
theorem Holds.step (h : inv.Holds s) (hop : s.frame.current? = some op) (maxDepth : Nat) :
    inv.Keeps (s.step methods maxDepth op) := by
  cases op with
  | push v => exact h.pushing hop rfl _ v
  | load slot =>
    unfold RunState.step
    dsimp only
    split
    · exact h.pushing hop rfl _ _
    · rename_i hnone
      -- a slot behind the last one
      exact inv.load s.frame slot h.frame hop (Array.getElem?_eq_none_iff.1 hnone)
  | store slot =>
    refine keeps_popping _ fun v rest => ?_
    split
    · exact ⟨inv.move s.frame _ _ _ rest h.frame hop rfl (Array.size_setIfInBounds ..), h.callers⟩
    · rename_i hlt
      exact inv.store s.frame slot h.frame hop (Nat.not_lt.1 hlt)
  | pop => exact keeps_popping _ fun _ rest => h.proceed hop rfl rest
  | arithmetic op =>
    refine keeps_popping _ fun right rest => keeps_popping _ fun left rest => ?_
    split
    · exact h.pushing hop rfl _ _
    · exact inv.ordinary _ rfl
  -- both ways out of a branch keep the property
  | branch test target =>
    refine keeps_popping _ fun right rest => keeps_popping _ fun left rest => ?_
    split
    · exact h.goingTo hop rest (fun next hnext => Or.inr hnext) (by rintro e rfl; rfl)
    · exact h.proceed hop (Or.inl rfl) rest
  | jump target => exact h.goingTo hop _ (fun next hnext => hnext) (by rintro e rfl; rfl)
  | returnValue => exact keeps_popping _ fun v _ => h.returning v
  | returnNothing => exact h.returning 0
  | getField field =>
    unfold RunState.step
    dsimp only
    split <;> exact h.pushing hop rfl _ _
  | putField field =>
    refine keeps_popping _ fun v rest => ?_
    exact ⟨inv.move s.frame _ _ s.frame.locals rest h.frame hop rfl rfl, h.callers⟩
  | callSuper => exact keeps_popping _ fun _ rest => h.proceed hop rfl rest
  | call n name =>
    unfold RunState.step
    dsimp only
    split
    · rename_i callee hcallee
      exact h.calling hop (Array.mem_of_getElem? hcallee) maxDepth
    · rename_i hnone
      -- there is no such method
      exact inv.callee s.frame n name h.frame hop hnone
  | fail e => exact inv.linked s.frame _ e h.frame hop rfl

/-! ### Runs and requests -/

/-- A run from a state with the property ends without an error other than the allowed ones. -/
theorem Holds.allows_of_run {c : RunContext} (hc : c.methods = methods) (fuel steps : Nat)
    (trace : List String) (h : inv.Holds s) {e : MachineError}
    (he : (c.run fuel steps trace s).result = .error e) : inv.allows e := by
  induction fuel generalizing steps trace s with
  | zero =>
    unfold RunContext.run at he
    cases hop : s.frame.method.operations[s.frame.next]? with
    | none =>
      rw [hop] at he
      exact Except.error.inj he ▸ inv.ending s.frame h.frame hop
    | some op =>
      rw [hop] at he
      exact Except.error.inj he ▸ inv.ordinary _ rfl
  | succ fuel ih =>
    unfold RunContext.run at he
    cases hop : s.frame.method.operations[s.frame.next]? with
    | none =>
      rw [hop] at he
      exact Except.error.inj he ▸ inv.ending s.frame h.frame hop
    | some op =>
      have hstep := h.step hop c.maxDepth
      rw [hop] at he
      dsimp only at he
      rw [hc] at he
      cases ht : s.step methods c.maxDepth op with
      | next t =>
        rw [ht] at he hstep
        exact ih _ _ hstep he
      | halt value statics =>
        rw [ht] at he
        cases he
      | fail e' statics =>
        rw [ht] at he hstep
        exact Except.error.inj he ▸ hstep

variable (inv) {m : Machine}

theorem allows_of_callMethod (hm : m.methods = methods) {method : Method}
    (hmethod : method ∈ methods) (tracing : Bool) (arguments : List Int32) {e : MachineError}
    (he : (m.callMethod tracing method arguments).2.1 = .error e) : inv.allows e := by
  unfold Machine.callMethod at he
  cases hframe : Frame.enter method arguments with
  | error e' =>
    rw [hframe] at he
    exact Except.error.inj he ▸ allows_of_enter hframe
  | ok frame =>
    rw [hframe] at he
    have hstart : inv.Holds { statics := m.statics, frame } :=
      ⟨inv.enter method hmethod arguments frame hframe, by simp⟩
    exact hstart.allows_of_run (c := m.runContext tracing) hm _ _ _ he

/-- A request is answered without an error other than the allowed ones. -/
theorem allows_of_respond (hm : m.methods = methods) (tracing : Bool) (request : Request)
    {e : MachineError} (he : (m.respond tracing request).2.1 = .error e) : inv.allows e := by
  cases request with
  | construct =>
    simp only [Machine.respond, Machine.construct] at he
    split at he
    · exact Except.error.inj he ▸ inv.ordinary _ rfl
    · rename_i method hfind
      obtain ⟨n, -, hmethod⟩ := Option.bind_eq_some_iff.1 hfind
      exact inv.allows_of_callMethod hm (hm ▸ Array.mem_of_getElem? hmethod) tracing _ he
  | setStatic name value =>
    simp only [Machine.respond, Machine.setStatic] at he
    cases hn : m.fieldIndex[name]? with
    | none =>
      rw [hn] at he
      exact Except.error.inj he ▸ inv.ordinary _ rfl
    | some n =>
      rw [hn] at he
      cases he
  | invoke name arguments =>
    simp only [Machine.respond, Machine.invoke] at he
    split at he
    · exact Except.error.inj he ▸ inv.ordinary _ rfl
    · rename_i method hfind
      obtain ⟨n, -, hmethod⟩ := Option.bind_eq_some_iff.1 hfind
      exact inv.allows_of_callMethod hm (hm ▸ Array.mem_of_getElem? hmethod) tracing _ he

/-- Whatever is asked of a machine, no answer is an error other than the allowed ones. -/
theorem allows_of_mem (hm : m.methods = methods) (tracing : Bool) {requests : List Request}
    {e : MachineError} {trace : List String}
    (he : (.error e, trace) ∈ (m.respondAll tracing requests).2) : inv.allows e := by
  induction requests generalizing m with
  | nil => cases he
  | cons request rest ih =>
    have hafter : (m.respond tracing request).1.methods = methods :=
      (m.methods_respond tracing request).1.trans hm
    rcases List.mem_cons.1 he with he | he
    · exact inv.allows_of_respond hm tracing request (congrArg Prod.fst he).symm
    · exact ih hafter he

end FrameInvariant

end Classwright
