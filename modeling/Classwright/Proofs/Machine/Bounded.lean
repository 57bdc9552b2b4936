import Classwright.Proofs.Machine.Compiled
import Classwright.Proofs.Machine.InRange
import Classwright.Proofs.Machine.Nested
import Classwright.Proofs.Machine.VerifiedRuns

/-!
# Bounded runs

What a machine does with requests, whatever code its class file holds.  The states of a call keep
to the limits of its methods and of the machine (`RunState.Within.leads`), and a call does what the
activity does that counts the calls in progress (`Machine.performs_callMethod`).  No more operations
run than allowed (`Machine.operationsRun_le`), tracing changes nothing
(`Machine.untraced_respondAll`), and once the limit on operations was hit, calls fail and change no
field (`Machine.fails_of_lt`).
-/

namespace Classwright

/-! ### States of a run -/

/-- A frame that keeps to the limits of its method. -/
structure Frame.Fits (methods : Array Method) (f : Frame) : Prop where
  /-- The method is one of those of the class. -/
  mem : f.method ∈ methods
  /-- It has as many slots as the method says. -/
  locals_eq : f.locals.size = f.method.maxLocals
  /-- Its stack is no higher than the method says. -/
  stack_le : f.stack.height ≤ f.method.maxStack
  /-- It is in front of an operation or behind the last one. -/
  next_le : f.next ≤ f.method.operations.size

/-- A state of a run that keeps to the limits of the machine. -/
structure RunState.Within (m : Machine) (s : RunState) : Prop where
  /-- All frames keep to the limits of their methods. -/
  frames : ∀ f ∈ s.frame :: s.callers, f.Fits m.methods
  /-- The calls in progress are counted. -/
  depth_eq : s.depth = s.callers.length + 1
  /-- There are no more of them than allowed. -/
  depth_le : s.depth ≤ m.limits.maxDepth
  /-- There is a value for each field. -/
  size_eq : s.statics.size = m.statics.size

namespace Frame

variable {methods : Array Method} {f g : Frame} {op : Operation}

theorem fits_of_enter {m : Method} (hm : m ∈ methods) {arguments : List Int32}
    (h : Frame.enter m arguments = .ok f) : f.Fits methods := by
  have hsize := size_locals_of_enter h
  obtain ⟨-, rfl⟩ := enter_eq_ok.1 h
  exact ⟨hm, hsize, Nat.zero_le _, Nat.zero_le _⟩

/-- Control stays in the code of a method or comes to its end. -/
theorem le_of_leadsTo {fields calls operations k next : Nat}
    (h : op.Resolved fields calls operations) (hk : k < operations) (hnext : op.LeadsTo k next) :
    next ≤ operations := by
  cases op with
  | branch test target =>
    rcases hnext with rfl | htarget
    · exact hk
    · exact (h next htarget).le
  | jump target => exact (h next hnext).le
  | returnValue | returnNothing | fail => exact hnext.elim
  | _ =>
    obtain rfl : next = k + 1 := hnext
    exact hk

theorem Fits.continues (hf : f.Fits methods) (hop : f.current? = some op) {fields calls : Nat}
    (hres : op.Resolved fields calls f.method.operations.size) (h : f.Continues op g) :
    g.Fits methods := by
  have hlt : f.next < f.method.operations.size := (Array.getElem?_eq_some_iff.1 hop).1
  constructor
  · rw [h.method_eq]
    exact hf.mem
  · rw [h.size_eq, h.method_eq]
    exact hf.locals_eq
  · rw [h.method_eq]
    exact h.height_le hf.stack_le
  · rw [h.method_eq]
    exact le_of_leadsTo hres hlt h.leads

theorem Fits.receive (hf : f.Fits methods) {callee : Method} {v : Int32}
    (h : f.receive callee v = .ok g) : g.Fits methods := by
  obtain ⟨stack, rfl, hstack⟩ := exists_of_receive h
  exact ⟨hf.mem, hf.locals_eq, hstack hf.stack_le, hf.next_le⟩

end Frame

namespace Machine

variable {f : ClassFile} {m : Machine}

/-- An operation of a resolved method is one that an instruction was linked to. -/
theorem Resolved.links (hm : m.Resolved f) {g : Frame} (hg : g.method ∈ m.methods)
    {op : Operation} (hop : g.current? = some op) : ∃ pc i,
      g.method.source[g.next]? = some (pc, i) ∧
        op.Links f m.statics.size m.methods.size g.method.operations.size i := by
  have hmethod := hm g.method hg
  have hlt : g.next < g.method.source.size :=
    hmethod.size_eq ▸ (Array.getElem?_eq_some_iff.1 hop).1
  exact ⟨_, _, Array.getElem?_eq_getElem hlt,
    hmethod.links g.next _ _ op (Array.getElem?_eq_getElem hlt) hop⟩

end Machine

namespace RunState

variable {f : ClassFile} {m : Machine} {s t : RunState} {tracing : Bool}

/-- A return keeps to the limits: the frame that waits goes on, and one call less is in progress. -/
theorem Within.returning (hs : s.Within m) {v : Int32} (h : s.returning v = .next t) :
    t.Within m := by
  cases hwaiting : s.callers with
  | nil =>
    unfold RunState.returning at h
    rw [hwaiting] at h
    cases h
  | cons waiting rest =>
    have hframes := hs.frames
    rw [hwaiting, List.forall_mem_cons, List.forall_mem_cons] at hframes
    obtain ⟨-, hfits, hrest⟩ := hframes
    have hdepth := hs.depth_eq
    rw [hwaiting, List.length_cons] at hdepth
    rw [returning_cons hwaiting] at h
    split at h
    · cases h
    · rename_i g hg
      obtain rfl := Transition.next.inj h
      exact ⟨List.forall_mem_cons.2 ⟨hfits.receive hg, hrest⟩, congrArg (· - 1) hdepth,
        Nat.le_trans (Nat.sub_le _ _) hs.depth_le, hs.size_eq⟩

/-- A call keeps to the limits: it is made only if one more may be in progress. -/
theorem Within.entering (hs : s.Within m) {callee : Method} {arguments : List Int32}
    {waiting : Frame} (hcallee : callee ∈ m.methods) (hwaiting : waiting.Fits m.methods)
    (h : (Effect.enter callee arguments waiting).transition m.limits.maxDepth s = .next t) :
    t.Within m := by
  simp only [Effect.transition] at h
  split at h
  · cases h
  · rename_i hroom
    split at h
    · cases h
    · rename_i g hg
      obtain rfl := Transition.next.inj h
      have hcallers := (List.forall_mem_cons.1 hs.frames).2
      exact ⟨List.forall_mem_cons.2 ⟨Frame.fits_of_enter hcallee hg,
        List.forall_mem_cons.2 ⟨hwaiting, hcallers⟩⟩, congrArg (· + 1) hs.depth_eq,
        Nat.not_le.1 hroom, hs.size_eq⟩

/-- **One step** keeps to the limits. -/
theorem Within.step (hm : m.Resolved f) (hs : s.Within m)
    (h : (m.runContext tracing).Steps s (.next t)) : t.Within m := by
  obtain ⟨op, hop, hstep⟩ := h
  obtain ⟨hframe, hcallers⟩ := List.forall_mem_cons.1 hs.frames
  obtain ⟨pc, i, -, hlinks⟩ := hm.links hframe.mem hop
  have hsound := Frame.sound_effect m.methods s.statics s.frame op
  rw [step_eq_transition] at hstep
  change ((s.frame.effect m.methods s.statics op).transition m.limits.maxDepth s) = _ at hstep
  cases heffect : s.frame.effect m.methods s.statics op with
  | fail e =>
    rw [heffect] at hstep
    cases hstep
  | move statics g =>
    rw [heffect] at hstep hsound
    obtain rfl := Transition.next.inj hstep
    obtain ⟨hstores, hcont⟩ := hsound
    exact ⟨List.forall_mem_cons.2 ⟨hframe.continues hop hlinks.resolved hcont, hcallers⟩,
      hs.depth_eq, hs.depth_le, hstores.size_eq.trans hs.size_eq⟩
  | leave v =>
    rw [heffect] at hstep
    exact hs.returning hstep
  | enter callee arguments waiting =>
    rw [heffect] at hstep hsound
    obtain ⟨⟨n, name, -, hcallee⟩, -, hcont⟩ := hsound
    exact hs.entering (Array.mem_of_getElem? hcallee)
      (hframe.continues hop hlinks.resolved hcont) hstep

/-- A run keeps to the limits. -/
theorem Within.leads (hm : m.Resolved f) {n : Nat} (h : (m.runContext tracing).Leads n s t)
    (hs : s.Within m) : t.Within m := by
  induction h with
  | refl s => exact hs
  | step hstep _ ih => exact ih (hs.step hm hstep)

end RunState

/-! ### Requests -/

namespace Machine

/-- What the calls of a machine share while none is in progress. -/
def rest (m : Machine) : CallState :=
  { statics := m.statics, steps := m.steps, depth := 0 }

/-- The call that a request asks for, unless it asks for none or there is no such method. -/
def activity? (m : Machine) : Request → Option Activity
  | .construct =>
    (m.methodIndex[ClassFile.initName ++ ClassFile.initDescriptor]?.bind fun n => m.methods[n]?).map
      fun method => .call method [0]
  | .setStatic _ _ => none
  | .invoke name arguments =>
    ((m.findMethod? name arguments.length).bind fun n => m.methods[n]?).map
      fun method => .call method arguments

end Machine

/-- A request to construct an object or to call a method. -/
def Request.isCall : Request → Bool
  | construct | invoke _ _ => true
  | setStatic _ _ => false

/-- The method that is missing if a request for a call is refused. -/
def Request.missing : Request → MissingMethod
  | invoke name arguments => .invoked name arguments.length
  | construct | setStatic _ _ => .constructor

namespace Machine

variable {f : ClassFile} {m : Machine} {tracing : Bool} {request : Request}

/-- A request for a call that is known calls its method. -/
theorem respond_of_activity {activity : Activity} (h : m.activity? request = some activity)
    (tracing : Bool) : ∃ method ∈ m.methods, ∃ arguments, activity = .call method arguments ∧
      m.respond tracing request = m.callMethod tracing method arguments := by
  cases request with
  | construct =>
    obtain ⟨method, hmethod, rfl⟩ := Option.map_eq_some_iff.1 h
    obtain ⟨n, -, hn⟩ := Option.bind_eq_some_iff.1 hmethod
    refine ⟨method, Array.mem_of_getElem? hn, [0], rfl, ?_⟩
    simp only [respond, construct, hmethod]
  | setStatic name value => cases h
  | invoke name arguments =>
    obtain ⟨method, hmethod, rfl⟩ := Option.map_eq_some_iff.1 h
    obtain ⟨n, -, hn⟩ := Option.bind_eq_some_iff.1 hmethod
    refine ⟨method, Array.mem_of_getElem? hn, arguments, rfl, ?_⟩
    simp only [respond, invoke, hmethod]

/-- A request for a call that is not known is refused. -/
theorem respond_of_missing (hcall : request.isCall = true) (h : m.activity? request = none)
    (tracing : Bool) : m.respond tracing request = (m, .error (.noMethod request.missing), []) := by
  cases request with
  | construct => simp only [respond, construct, Option.map_eq_none_iff.1 h, Request.missing]
  | setStatic name value => cases hcall
  | invoke name arguments =>
    simp only [respond, invoke, Option.map_eq_none_iff.1 h, Request.missing]

/-- What a machine does with a request: it gives a field a value, it refuses a call that is not
known, or it calls one of its methods. -/
theorem respond_cases (m : Machine) (tracing : Bool) (request : Request) :
    (∃ name value, request = .setStatic name value) ∨
      m.respond tracing request = (m, .error (.noMethod request.missing), []) ∨
      ∃ method ∈ m.methods, ∃ arguments,
        m.respond tracing request = m.callMethod tracing method arguments := by
  cases hcall : request.isCall with
  | false =>
    cases request with
    | construct | invoke => cases hcall
    | setStatic name value => exact Or.inl ⟨name, value, rfl⟩
  | true =>
    cases hactivity : m.activity? request with
    | none => exact Or.inr (Or.inl (respond_of_missing hcall hactivity tracing))
    | some activity =>
      obtain ⟨method, hmethod, arguments, -, hrespond⟩ := respond_of_activity hactivity tracing
      exact Or.inr (Or.inr ⟨method, hmethod, arguments, hrespond⟩)

/-- **What a call does** is what its activity does while no other call is in progress. -/
theorem performs_callMethod (hdepth : 0 < m.limits.maxDepth) (tracing : Bool) (method : Method)
    (arguments : List Int32) :
    (m.runContext tracing).Performs m.rest (.call method arguments)
      (m.callMethod tracing method arguments).2.1
      (m.callMethod tracing method arguments).1.rest := by
  -- the call comes to a result, which is what the run of its frame yields
  obtain ⟨r, st, h⟩ := (m.runContext tracing).exists_performs m.rest (.call method arguments)
  have hdone := h
  have hdepth' : st.depth = 0 := h.depth_eq
  have hrest : st = ⟨st.statics, st.steps, 0⟩ :=
    congrArg (CallState.mk st.statics st.steps) hdepth'
  cases h with
  | tooDeep hdeep => exact absurd hdeep (Nat.not_le.2 hdepth)
  | refused _ he =>
    unfold callMethod
    rw [he]
    exact hdone
  | @entered _ st _ _ frame _ _ hf hr =>
    obtain ⟨trace, hrun⟩ := hr.run_eq []
    have hcall : m.callMethod tracing method arguments =
        ({ m with statics := st.statics, steps := st.steps }, r, trace.reverse) := by
      unfold callMethod
      rw [hf]
      exact congrArg (fun result : RunResult =>
        (({ m with statics := result.statics, steps := result.steps } : Machine), result.result,
          result.trace.reverse)) hrun
    rw [hcall]
    rw [hrest] at hdone
    exact hdone

end Machine

/-! ### Operations that run -/

namespace RunContext

/-- A run counts each operation and notes it in the trace; there are no more than the fuel
allows. -/
theorem run_counts (c : RunContext) (fuel steps : Nat) (trace : List String) (s : RunState) :
    steps ≤ (c.run fuel steps trace s).steps ∧
      (c.run fuel steps trace s).steps ≤ steps + fuel + 1 ∧
      (c.run fuel steps trace s).trace.length ≤ trace.length + fuel ∧
      (c.run fuel steps trace s).trace.length + steps ≤
        trace.length + (c.run fuel steps trace s).steps := by
  induction fuel generalizing steps trace s with
  | zero =>
    unfold run
    cases s.frame.method.operations[s.frame.next]? with
    | none => exact ⟨Nat.le_refl _, Nat.le_succ _, Nat.le_refl _, Nat.le_refl _⟩
    | some op => exact ⟨Nat.le_succ _, Nat.le_refl _, Nat.le_refl _, Nat.le_succ _⟩
  | succ fuel ih =>
    have hline : (if c.tracing then s.traceLine :: trace else trace).length ≤ trace.length + 1 := by
      split
      · exact Nat.le_refl _
      · exact Nat.le_succ _
    unfold run
    generalize (if c.tracing then s.traceLine :: trace else trace) = lines at hline ⊢
    cases s.frame.method.operations[s.frame.next]? with
    | none =>
      dsimp only
      omega
    | some op =>
      dsimp only
      cases s.step c.methods c.maxDepth op with
      | next t =>
        obtain ⟨hle, hsteps, hfuel, hlines⟩ := ih (steps + 1) lines t
        dsimp only
        omega
      | halt v statics =>
        dsimp only
        omega
      | fail e statics =>
        dsimp only
        omega

/-- Whether a run is traced makes no difference to anything but the trace. -/
theorem run_untraced (c : RunContext) (tracing : Bool) (fuel steps : Nat)
    (trace trace' : List String) (s : RunState) :
    (({ c with tracing } : RunContext).run fuel steps trace' s).result =
        (c.run fuel steps trace s).result ∧
      (({ c with tracing } : RunContext).run fuel steps trace' s).statics =
        (c.run fuel steps trace s).statics ∧
      (({ c with tracing } : RunContext).run fuel steps trace' s).steps =
        (c.run fuel steps trace s).steps := by
  induction fuel generalizing steps trace trace' s with
  | zero =>
    unfold run
    cases s.frame.method.operations[s.frame.next]? <;> exact ⟨rfl, rfl, rfl⟩
  | succ fuel ih =>
    unfold run
    cases s.frame.method.operations[s.frame.next]? with
    | none => exact ⟨rfl, rfl, rfl⟩
    | some op =>
      dsimp only
      cases s.step c.methods c.maxDepth op with
      | next t => exact ih _ _ _ t
      | halt v statics => exact ⟨rfl, rfl, rfl⟩
      | fail e statics => exact ⟨rfl, rfl, rfl⟩

end RunContext

namespace Machine

variable {f : ClassFile} {m : Machine} {tracing : Bool} {request : Request}

/-- What an answer that a machine gives is like: it changes the values of fields and the count of
operations only, each operation that ran is counted, and no more ran than were left.  One operation
more may be counted, the one that was not to run. -/
structure Counts (m : Machine) (answer : Machine × Except MachineError Int32 × List String) :
    Prop where
  /-- Only the values of the fields and the count change. -/
  eq_with : answer.1 = { m with statics := answer.1.statics, steps := answer.1.steps }
  /-- There is a value for each field. -/
  size_eq : answer.1.statics.size = m.statics.size
  /-- Operations that ran are counted. -/
  lines_le : answer.2.2.length + m.steps ≤ answer.1.steps
  /-- No more operations ran than were left. -/
  lines_le_left : answer.2.2.length ≤ m.limits.maxSteps - m.steps
  /-- One operation at most is counted beyond the limit. -/
  steps_le : answer.1.steps ≤ m.steps + (m.limits.maxSteps - m.steps) + 1

theorem Counts.limits_eq {answer : Machine × Except MachineError Int32 × List String}
    (h : m.Counts answer) : answer.1.limits = m.limits := by
  rw [h.eq_with]

theorem counts_nothing (m : Machine) (r : Except MachineError Int32) : m.Counts (m, r, []) :=
  ⟨rfl, rfl, (Nat.zero_add _).le, Nat.zero_le _, by dsimp only; omega⟩

theorem counts_callMethod (m : Machine) (tracing : Bool) (method : Method)
    (arguments : List Int32) : m.Counts (m.callMethod tracing method arguments) := by
  unfold callMethod
  cases Frame.enter method arguments with
  | error e => exact m.counts_nothing _
  | ok frame =>
    obtain ⟨-, hsteps, hfuel, hlines⟩ :=
      (m.runContext tracing).run_counts (m.limits.maxSteps - m.steps) m.steps []
        { statics := m.statics, frame }
    rw [List.length_nil, Nat.zero_add] at hfuel hlines
    refine ⟨rfl, RunContext.size_run _ _ _ _ _, ?_, ?_, hsteps⟩
    · rw [List.length_reverse]
      exact hlines
    · rw [List.length_reverse]
      exact hfuel

theorem counts_respond (m : Machine) (tracing : Bool) (request : Request) :
    m.Counts (m.respond tracing request) := by
  rcases m.respond_cases tracing request with
    ⟨name, value, rfl⟩ | hmissing | ⟨method, -, arguments, hrespond⟩
  · simp only [respond, setStatic]
    cases m.fieldIndex[name]? with
    | none => exact m.counts_nothing _
    | some n =>
      exact ⟨rfl, Array.size_setIfInBounds, (Nat.zero_add _).le, Nat.zero_le _, by
        dsimp only
        omega⟩
  · rw [hmissing]
    exact m.counts_nothing _
  · rw [hrespond]
    exact m.counts_callMethod tracing method arguments

/-- Giving a field a value counts nothing. -/
theorem steps_respond (m : Machine) (tracing : Bool) {request : Request}
    (h : request.isCall = false) : (m.respond tracing request).1.steps = m.steps := by
  cases request with
  | construct | invoke => cases h
  | setStatic name value =>
    simp only [respond, setStatic]
    cases m.fieldIndex[name]? <;> rfl

/-- The number of operations that run to answer requests: there is a line of the trace for each. -/
def operationsRun (m : Machine) (requests : List Request) : Nat :=
  ((m.respondAll true requests).2.map fun answer => answer.2.length).sum

/-- **No more operations run than allowed**, over all requests. -/
theorem operationsRun_le (m : Machine) (requests : List Request) :
    m.operationsRun requests ≤ m.limits.maxSteps - m.steps := by
  induction requests generalizing m with
  | nil => exact Nat.zero_le _
  | cons request rest ih =>
    have hcounts := m.counts_respond true request
    have hlimits : (m.respond true request).1.limits = m.limits := hcounts.limits_eq
    have hlines := hcounts.lines_le
    have hleft := hcounts.lines_le_left
    have hrest := ih (m.respond true request).1
    rw [hlimits] at hrest
    change (m.respond true request).2.2.length + (m.respond true request).1.operationsRun rest ≤ _
    omega

/-- What holds of a machine and stays if the values of its fields and the count of operations
change, the count not getting smaller, holds of it whatever it is asked. -/
theorem holds_respondAll {P : Machine → Prop} (hP : ∀ m statics steps, P m →
      statics.size = m.statics.size → m.steps ≤ steps → P { m with statics, steps })
    (tracing : Bool) (requests : List Request) (hm : P m) :
    P (m.respondAll tracing requests).1 := by
  induction requests generalizing m with
  | nil => exact hm
  | cons request rest ih =>
    have hcounts := m.counts_respond tracing request
    have hafter : P (m.respond tracing request).1 := by
      rw [hcounts.eq_with]
      exact hP m _ _ hm hcounts.size_eq (Nat.le_of_add_left_le hcounts.lines_le)
    exact ih hafter

theorem limits_respondAll (m : Machine) (tracing : Bool) (requests : List Request) :
    (m.respondAll tracing requests).1.limits = m.limits :=
  holds_respondAll (P := fun now => now.limits = m.limits) (fun _ _ _ hnow _ _ => hnow) tracing
    requests rfl

theorem untraced_callMethod (m : Machine) (tracing tracing' : Bool) (method : Method)
    (arguments : List Int32) :
    (m.callMethod tracing method arguments).1 = (m.callMethod tracing' method arguments).1 ∧
      (m.callMethod tracing method arguments).2.1 =
        (m.callMethod tracing' method arguments).2.1 := by
  unfold callMethod
  cases Frame.enter method arguments with
  | error e => exact ⟨rfl, rfl⟩
  | ok frame =>
    obtain ⟨hresult, hstatics, hsteps⟩ := (m.runContext tracing').run_untraced tracing
      (m.limits.maxSteps - m.steps) m.steps [] [] { statics := m.statics, frame }
    refine ⟨?_, hresult⟩
    rw [Machine.mk.injEq]
    exact ⟨rfl, rfl, rfl, hstatics, rfl, hsteps⟩

theorem untraced_respond (m : Machine) (tracing tracing' : Bool) (request : Request) :
    (m.respond tracing request).1 = (m.respond tracing' request).1 ∧
      (m.respond tracing request).2.1 = (m.respond tracing' request).2.1 := by
  cases request with
  | construct =>
    simp only [respond, construct]
    split
    · exact ⟨rfl, rfl⟩
    · exact m.untraced_callMethod tracing tracing' _ _
  | setStatic name value => exact ⟨rfl, rfl⟩
  | invoke name arguments =>
    simp only [respond, invoke]
    split
    · exact ⟨rfl, rfl⟩
    · exact m.untraced_callMethod tracing tracing' _ _

/-- Whether requests are traced makes no difference to the machine and the answers. -/
theorem untraced_respondAll (m : Machine) (tracing tracing' : Bool) (requests : List Request) :
    (m.respondAll tracing requests).1 = (m.respondAll tracing' requests).1 ∧
      (m.respondAll tracing requests).2.map Prod.fst =
        (m.respondAll tracing' requests).2.map Prod.fst := by
  induction requests generalizing m with
  | nil => exact ⟨rfl, rfl⟩
  | cons request rest ih =>
    obtain ⟨hafter, hanswer⟩ := m.untraced_respond tracing tracing' request
    obtain ⟨hlast, hanswers⟩ := ih (m.respond tracing request).1
    simp only [respondAll, List.map_cons]
    rw [← hafter, ← hanswer]
    exact ⟨hlast, congrArg _ hanswers⟩

end Machine

/-! ### Behind the limit -/

/-- The method that an activity runs is one of those of the class. -/
def Activity.Within (methods : Array Method) : Activity → Prop
  | .call method _ => method ∈ methods
  | .run frame => frame.method ∈ methods

theorem Activity.within_run {methods : Array Method} {f : Frame} {m : Method} (h : f.method = m)
    (hm : m ∈ methods) : (Activity.run f).Within methods := by
  change f.method ∈ methods
  rwa [h]

/-- The limit on operations was hit only if more were counted than allowed. -/
theorem RunContext.Performs.lt_of_stepLimit {c : RunContext}
    (hc : ∀ f : Frame, f.method ∈ c.methods → ∀ op e, f.current? = some op → op.error? = some e →
      e.isLinking = true)
    {st st' : CallState} {a : Activity} {r : Except MachineError Int32}
    (h : c.Performs st a r st') (ha : a.Within c.methods) {limit : Nat}
    (hr : r = .error (.stepLimit limit)) : c.maxSteps < st'.steps := by
  induction h with
  | tooDeep | fallsOff | leaves => cases hr
  | refused _ he => cases (Frame.eq_of_enter_eq_error he).symm.trans (Except.error.inj hr)
  | entered _ hf _ ih => exact ih (Activity.within_run (Frame.method_of_enter hf) ha) hr
  | exhausted _ hsteps => exact Nat.lt_succ_of_le hsteps
  | fails h =>
    -- no operation fails by a limit: by linking, by a division or because the code is wrong
    obtain ⟨op, hop, hsound⟩ := h.sound
    obtain rfl := Except.error.inj hr
    rcases hsound with hlinked | hzero | ⟨reason, hreason⟩
    · cases hc _ ha op _ hop hlinked
    · cases hzero
    · cases hreason
  | moves h _ ih =>
    obtain ⟨op, -, -, hcont⟩ := h.sound
    exact ih (Activity.within_run hcont.method_eq ha) hr
  | callFails h _ ih =>
    obtain ⟨op, -, ⟨n, name, -, hcallee⟩, -⟩ := h.sound
    exact ih (Array.mem_of_getElem? hcallee) hr
  | callOverflows _ _ hw => cases (Frame.eq_of_receive_eq_error hw).symm.trans (Except.error.inj hr)
  | callReturns h _ hw _ _ ih =>
    obtain ⟨op, -, -, -, hcont⟩ := h.sound
    exact ih (Activity.within_run ((Frame.method_of_receive hw).trans hcont.method_eq) ha) hr

/-- Where no operations are left, an activity fails and changes no field. -/
theorem RunContext.Performs.fails_of_le {c : RunContext} {st st' : CallState} {a : Activity}
    {r : Except MachineError Int32} (h : c.Performs st a r st') (hsteps : c.maxSteps ≤ st.steps) :
    (∃ e, r = .error e) ∧ st'.statics = st.statics := by
  induction h with
  | tooDeep | refused | fallsOff | exhausted => exact ⟨⟨_, rfl⟩, rfl⟩
  | entered _ _ _ ih => exact ih hsteps
  | fails h | leaves h | moves h | callFails h | callOverflows h | callReturns h =>
    obtain ⟨-, -, hlt, -⟩ := h
    exact absurd hsteps (Nat.not_le.2 hlt)

namespace Machine

variable {f : ClassFile} {m : Machine} {tracing : Bool} {request : Request}

theorem Resolved.with (hm : m.Resolved f) {statics : Array Int32}
    (hsize : statics.size = m.statics.size) (steps : Nat) :
    ({ m with statics, steps } : Machine).Resolved f := by
  intro method hmethod
  change method.Resolved f statics.size m.methods.size
  rw [hsize]
  exact hm method hmethod

theorem Resolved.respondAll (hm : m.Resolved f) (tracing : Bool) (requests : List Request) :
    (m.respondAll tracing requests).1.Resolved f :=
  holds_respondAll (P := fun now => now.Resolved f)
    (fun _ _ steps hnow hsize _ => hnow.with hsize steps) tracing requests hm

/-- An answer that the limit on operations was hit is given only if more were counted than
allowed. -/
theorem Resolved.lt_of_respond (hm : m.Resolved f) (hdepth : 0 < m.limits.maxDepth)
    {limit : Nat} (h : (m.respond tracing request).2.1 = .error (.stepLimit limit)) :
    m.limits.maxSteps < (m.respond tracing request).1.steps := by
  rcases m.respond_cases tracing request with
    ⟨name, value, rfl⟩ | hmissing | ⟨method, hmethod, arguments, hrespond⟩
  · simp only [respond, setStatic] at h
    cases hn : m.fieldIndex[name]? <;> simp [hn] at h
  · rw [hmissing] at h
    cases h
  · rw [hrespond] at h ⊢
    refine (performs_callMethod hdepth tracing method arguments).lt_of_stepLimit ?_ hmethod h
    intro g hg op e hop he
    obtain ⟨pc, i, -, hlinks⟩ := hm.links hg hop
    exact hlinks.error e he

/-- Once the limit on operations was hit, more are counted than allowed. -/
theorem Resolved.lt_of_mem (hm : m.Resolved f) (hdepth : 0 < m.limits.maxDepth)
    {requests : List Request} {limit : Nat} {trace : List String}
    (h : (.error (.stepLimit limit), trace) ∈ (m.respondAll tracing requests).2) :
    m.limits.maxSteps < (m.respondAll tracing requests).1.steps := by
  induction requests generalizing m with
  | nil => cases h
  | cons request rest ih =>
    have hcounts := m.counts_respond tracing request
    have hlimits : (m.respond tracing request).1.limits = m.limits := hcounts.limits_eq
    -- the count does not get smaller behind the request that hit the limit
    rcases List.mem_cons.1 h with h | h
    · have hlt := hm.lt_of_respond hdepth (congrArg Prod.fst h).symm
      exact holds_respondAll (P := fun now => m.limits.maxSteps < now.steps)
        (fun _ _ _ hnow _ hsteps => Nat.lt_of_lt_of_le hnow hsteps) tracing rest hlt
    · have hafter : (m.respond tracing request).1.Resolved f := by
        rw [hcounts.eq_with]
        exact hm.with hcounts.size_eq _
      rw [← hlimits]
      exact ih hafter (hlimits ▸ hdepth) h

/-- Where more operations are counted than allowed, a call fails and changes no field. -/
theorem fails_of_lt (hdepth : 0 < m.limits.maxDepth) (hsteps : m.limits.maxSteps < m.steps)
    (hcall : request.isCall = true) (tracing : Bool) :
    (∃ e, (m.respond tracing request).2.1 = .error e) ∧
      (m.respond tracing request).1.statics = m.statics := by
  cases hactivity : m.activity? request with
  | none =>
    rw [respond_of_missing hcall hactivity tracing]
    exact ⟨⟨_, rfl⟩, rfl⟩
  | some activity =>
    obtain ⟨method, -, arguments, -, hrespond⟩ := respond_of_activity hactivity tracing
    rw [hrespond]
    exact (performs_callMethod hdepth tracing method arguments).fails_of_le hsteps.le

end Machine

theorem Limits.ofNumbers_pos (maxSteps maxDepth : Int) :
    0 < (Limits.ofNumbers maxSteps maxDepth).maxDepth := by
  simp only [ofNumbers]
  split
  · omega
  · exact Nat.zero_lt_succ _

end Classwright
