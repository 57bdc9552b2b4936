import Classwright.Machine.Interpreter
import Classwright.Proofs.Machine.Bounded

/-!
# Machines and interpreters

As long as the count of operations does not wrap around, an interpreter does what the machine with
the same class, values and numbers does (`Interpreter.respondAll_ofMachine`).  A call counts one
operation more than it may run, so there is room for it if the limit and the count are both smaller
than the greatest number (`Interpreter.HasRoom`).
-/

namespace Classwright

/-! ### Calls in progress -/

/-- A step leaves the count of calls as it is once the calls that wait are left. -/
theorem RunState.lowered_step {s t : RunState} {methods : Array Method} {maxDepth : Nat}
    {op : Operation} (h : s.step methods maxDepth op = .next t) : t.lowered = s.lowered := by
  rw [step_eq_transition] at h
  cases heffect : s.frame.effect methods s.statics op with
  | fail e =>
    rw [heffect] at h
    cases h
  | move statics frame =>
    rw [heffect] at h
    obtain rfl := Transition.next.inj h
    rfl
  | leave v =>
    rw [heffect] at h
    -- the frame that waited goes on, and both numbers are one smaller
    change s.returning v = .next t at h
    cases hcallers : s.callers with
    | nil =>
      unfold returning at h
      rw [hcallers] at h
      cases h
    | cons waiting callers =>
      rw [returning_cons hcallers] at h
      split at h
      · cases h
      · obtain rfl := Transition.next.inj h
        simp only [lowered, hcallers, List.length_cons]
        omega
  | enter callee arguments waiting =>
    rw [heffect, Effect.transition] at h
    split at h
    · cases h
    · split at h
      · cases h
      · obtain rfl := Transition.next.inj h
        simp only [lowered, List.length_cons]
        omega

namespace Interpreter

/-! ### Runs -/

section Run

variable {i : Interpreter} {s : RunState} {op : Operation}

theorem run_of_none (h : s.frame.method.operations[s.frame.next]? = none) (tracing : Bool)
    (steps : Int64) (trace : List String) :
    i.run tracing steps trace s = some ⟨.error (.badCode (.fallsOff s.frame.method.name)),
      s.statics, steps, s.lowered, trace⟩ := by
  rw [run, h]

theorem run_of_limit (h : s.frame.method.operations[s.frame.next]? = some op) {steps : Int64}
    (hlimit : i.maxSteps < steps + 1) (tracing : Bool) (trace : List String) :
    i.run tracing steps trace s = some ⟨.error (.stepLimit i.maxSteps.toNatClampNeg), s.statics,
      steps + 1, s.lowered, trace⟩ := by
  rw [run, h]
  exact if_pos hlimit

/-- The run behind a transition. -/
def follow (i : Interpreter) (tracing : Bool) (steps : Int64) (trace : List String) (depth : Nat) :
    Transition → Option Ending
  | .next s => i.run tracing steps trace s
  | .halt value statics => some ⟨.ok value, statics, steps, depth, trace⟩
  | .fail e statics => some ⟨.error e, statics, steps, depth, trace⟩

theorem run_of_step (h : s.frame.method.operations[s.frame.next]? = some op) {steps : Int64}
    (hlimit : ¬ i.maxSteps < steps + 1) (tracing : Bool) (trace : List String) :
    i.run tracing steps trace s =
      i.follow tracing (steps + 1) (if tracing then s.traceLine :: trace else trace) s.lowered
        (s.step i.methods i.maxDepth op) := by
  rw [run, h]
  refine (if_neg hlimit).trans ?_
  cases s.step i.methods i.maxDepth op <;> rfl

end Run

variable {m : Machine}

@[simp] theorem methods_ofMachine : (ofMachine m).methods = m.methods := rfl

@[simp] theorem maxDepth_ofMachine : (ofMachine m).maxDepth = m.limits.maxDepth := rfl

@[simp] theorem methodIndex_ofMachine : (ofMachine m).methodIndex = m.methodIndex := rfl

@[simp] theorem findMethod?_ofMachine (name : Text) (arguments : Nat) :
    (ofMachine m).machine.findMethod? name arguments = m.findMethod? name arguments := rfl

@[simp] theorem setStatic_ofMachine (name : Text) (value : Int32) :
    (ofMachine m).setStatic name value = (m.setStatic name value).map ofMachine := by
  have hindex : (ofMachine m).machine.fieldIndex = m.fieldIndex := rfl
  unfold setStatic Machine.setStatic
  rw [hindex]
  cases m.fieldIndex[name]? <;> rfl

/-- The end of a run that counts on, in words. -/
def Ending.ofResult (depth : Nat) (r : RunResult) : Ending :=
  { result := r.result, statics := r.statics, steps := .ofNat r.steps, depth, trace := r.trace }

/-- One operation more is beyond the limit in words exactly if it is one too many. -/
theorem exceeds_ofMachine (hlimit : m.limits.maxSteps + 1 < 2 ^ 63) {steps : Nat}
    (hsteps : steps + 1 < 2 ^ 63) :
    (ofMachine m).maxSteps < Int64.ofNat steps + 1 ↔ m.limits.maxSteps - steps = 0 := by
  have hcount : Int64.ofNat steps + 1 = .ofNat (steps + 1) := (Int64.ofNat_add steps 1).symm
  change Int64.ofNat m.limits.maxSteps < _ ↔ _
  rw [hcount, Int64.lt_iff_toInt_lt, Int64.toInt_ofNat_of_lt (Nat.lt_of_succ_lt hlimit),
    Int64.toInt_ofNat_of_lt hsteps]
  omega

/-- **A run in words** is the run that counts on, as long as the count does not wrap around. -/
theorem run_ofMachine (hlimit : m.limits.maxSteps + 1 < 2 ^ 63) (tracing : Bool) {steps : Nat}
    (hsteps : steps + 1 < 2 ^ 63) (trace : List String) (s : RunState) :
    (ofMachine m).run tracing (.ofNat steps) trace s =
      some (.ofResult s.lowered
        ((m.runContext tracing).run (m.limits.maxSteps - steps) steps trace s)) := by
  have hcount (n : Nat) : Int64.ofNat n + 1 = .ofNat (n + 1) := (Int64.ofNat_add n 1).symm
  induction hfuel : m.limits.maxSteps - steps generalizing steps trace s with
  | zero =>
    cases hop : s.frame.method.operations[s.frame.next]? with
    | none =>
      rw [run_of_none hop, RunContext.run, hop]
      rfl
    | some op =>
      rw [run_of_limit hop ((exceeds_ofMachine hlimit hsteps).2 hfuel), RunContext.run, hop, hcount]
      simp only [ofMachine, Int64.toNatClampNeg_ofNat_of_lt (Nat.lt_of_succ_lt hlimit)]
      rfl
  | succ fuel ih =>
    cases hop : s.frame.method.operations[s.frame.next]? with
    | none =>
      rw [run_of_none hop, RunContext.run, hop]
      rfl
    | some op =>
      have hleft : ¬ m.limits.maxSteps - steps = 0 := by omega
      rw [run_of_step hop ((exceeds_ofMachine hlimit hsteps).not.2 hleft), RunContext.run, hop,
        hcount, methods_ofMachine, maxDepth_ofMachine]
      dsimp only [Machine.runContext]
      cases hstep : s.step m.methods m.limits.maxDepth op with
      | next t =>
        -- calls come and go together with their count
        have hlowered : t.lowered = s.lowered := RunState.lowered_step hstep
        rw [← hlowered]
        exact ih (by omega) _ t (by omega)
      | halt value statics => rfl
      | fail e statics => rfl

/-! ### Calls -/

/-- **A call in words** is the call that counts on, if there is room for it. -/
theorem callMethod_ofMachine (hdepth : 0 < m.limits.maxDepth)
    (hlimit : m.limits.maxSteps + 1 < 2 ^ 63) (hsteps : m.steps + 1 < 2 ^ 63) (tracing : Bool)
    (method : Method) (arguments : List Int32) :
    (ofMachine m).callMethod tracing method arguments =
      some (ofMachine (m.callMethod tracing method arguments).1,
        (m.callMethod tracing method arguments).2) := by
  have hroom : ¬ (ofMachine m).maxDepth ≤ (ofMachine m).depth := Nat.not_le.2 hdepth
  rw [callMethod, if_neg hroom, Machine.callMethod]
  cases Frame.enter method arguments with
  | error e => rfl
  | ok frame =>
    change ((ofMachine m).run tracing (.ofNat m.steps) []
      { statics := m.statics, frame, depth := 1 }).map _ = _
    rw [run_ofMachine hlimit tracing hsteps]
    rfl

/-- Does what is asked and yields the interpreter behind it, the answer and the lines of its trace,
if that ends.  A request that yields no number counts as yielding 0. -/
def respond (i : Interpreter) (tracing : Bool) :
    Request → Option (Interpreter × Except MachineError Int32 × List String)
  | .construct => i.construct tracing
  | .setStatic name value =>
    match i.setStatic name value with
    | .ok after => some (after, .ok 0, [])
    | .error e => some (i, .error e, [])
  | .invoke name arguments => i.invoke name arguments tracing

/-- Does one thing after the other and notes the answers, if all of them end. -/
def respondAll (i : Interpreter) (tracing : Bool) :
    List Request → Option (Interpreter × List (Except MachineError Int32 × List String))
  | [] => some (i, [])
  | request :: rest =>
    (i.respond tracing request).bind fun (after, answer) =>
      (after.respondAll tracing rest).map fun (last, answers) => (last, answer :: answers)

/-- **An answer in words** is the answer of the machine that counts on, if there is room for it. -/
theorem respond_ofMachine (hdepth : 0 < m.limits.maxDepth) {request : Request}
    (hroom : request.isCall = true → m.limits.maxSteps + 1 < 2 ^ 63 ∧ m.steps + 1 < 2 ^ 63)
    (tracing : Bool) :
    (ofMachine m).respond tracing request =
      some (ofMachine (m.respond tracing request).1, (m.respond tracing request).2) := by
  cases request with
  | construct =>
    obtain ⟨hlimit, hsteps⟩ := hroom rfl
    simp only [respond, construct, Machine.respond, Machine.construct, methodIndex_ofMachine,
      methods_ofMachine]
    cases m.methodIndex[ClassFile.initName ++ ClassFile.initDescriptor]?.bind
        fun n => m.methods[n]? with
    | none => rfl
    | some method => exact callMethod_ofMachine hdepth hlimit hsteps tracing method [0]
  | setStatic name value =>
    simp only [respond, setStatic_ofMachine, Machine.respond]
    cases m.setStatic name value <;> rfl
  | invoke name arguments =>
    obtain ⟨hlimit, hsteps⟩ := hroom rfl
    simp only [respond, invoke, Machine.respond, Machine.invoke, findMethod?_ofMachine,
      methods_ofMachine]
    cases (m.findMethod? name arguments.length).bind fun n => m.methods[n]? with
    | none => rfl
    | some method => exact callMethod_ofMachine hdepth hlimit hsteps tracing method arguments

/-- Answers in words are the answers of the machine that counts on, if there is room for the calls:
each of them counts one operation beyond the limit at most. -/
theorem respondAll_ofMachine (hdepth : 0 < m.limits.maxDepth) {requests : List Request} {k : Nat}
    (hsteps : m.steps ≤ m.limits.maxSteps + k)
    (hroom : m.limits.maxSteps + k + requests.countP Request.isCall < 2 ^ 63) (tracing : Bool) :
    (ofMachine m).respondAll tracing requests =
        some (ofMachine (m.respondAll tracing requests).1, (m.respondAll tracing requests).2) ∧
      (m.respondAll tracing requests).1.steps ≤
        m.limits.maxSteps + k + requests.countP Request.isCall := by
  induction requests generalizing m k with
  | nil => exact ⟨rfl, hsteps⟩
  | cons request rest ih =>
    have hcounts := m.counts_respond tracing request
    have hlimits : (m.respond tracing request).1.limits = m.limits := hcounts.limits_eq
    have hanswer : (ofMachine m).respond tracing request =
        some (ofMachine (m.respond tracing request).1, (m.respond tracing request).2) := by
      refine respond_ofMachine hdepth (fun hcall => ?_) tracing
      rw [List.countP_cons_of_pos hcall] at hroom
      omega
    -- a call may count one operation beyond the limit, any other request counts none
    obtain ⟨k', hafter, hcalls⟩ : ∃ k', (m.respond tracing request).1.steps ≤
        m.limits.maxSteps + k' ∧ k' + rest.countP Request.isCall =
          k + (request :: rest).countP Request.isCall := by
      cases hcall : request.isCall with
      | true =>
        have hle := hcounts.steps_le
        refine ⟨k + 1, by omega, ?_⟩
        rw [List.countP_cons_of_pos hcall]
        omega
      | false =>
        refine ⟨k, (m.steps_respond tracing hcall).le.trans hsteps, ?_⟩
        rw [List.countP_cons_of_neg (Bool.eq_false_iff.1 hcall)]
    rw [Nat.add_assoc, ← hcalls, ← hlimits] at hroom ⊢
    rw [← hlimits] at hdepth hafter
    obtain ⟨hrest, hlast⟩ := ih hdepth hafter (by rwa [Nat.add_assoc])
    refine ⟨?_, by rwa [← Nat.add_assoc]⟩
    rw [respondAll, hanswer, Option.bind_some]
    dsimp only
    rw [hrest]
    rfl

end Interpreter

end Classwright
