import Classwright.Proofs.Machine.Control
import Classwright.Proofs.Machine.Requests
import Mathlib.Data.Set.Basic

/-!
# Slots that start with any value

A new frame has 0 in the slots behind its arguments.  `Machine.respondAllFilled` is the machine that
puts other values there, and `Machine.Assigned.respondAllFilled_eq` says that nobody can tell the two
apart if every method assigns a slot before it reads it (`Method.Assigns`).

Two runs with different values in those slots go in lockstep: they stand at the same operations with
the same stacks and fields, and the slots known to be assigned hold the same values
(`RunState.Alike`).  Each operation preserves this (`RunState.Alike.step`), and so does a whole run
(`RunContext.runFilled_eq`).
-/

namespace Classwright

/-! ### The machine with other values in new slots -/

/-- Values for the slots behind the arguments of new frames: `fill n slot` is the value in the frame
that is entered when a machine has counted `n` operations. -/
abbrev Filling := Nat → Nat → Int32

/-- A frame with given values in all slots but the first `n`. -/
def Frame.refill (values : Nat → Int32) (n : Nat) (f : Frame) : Frame :=
  { f with locals := f.locals.mapIdx fun slot v => if slot < n then v else values slot }

/-- A transition into a frame whose slots behind the arguments get given values. -/
def Transition.refill (values : Nat → Int32) : Transition → Transition
  | .next s => .next { s with frame := s.frame.refill values s.frame.method.type.params }
  | t => t

/-- Runs an operation; a frame that it enters is filled with given values. -/
def RunState.stepFilled (values : Nat → Int32) (methods : Array Method) (maxDepth : Nat)
    (s : RunState) (op : Operation) : Transition :=
  match op with
  | .call _ _ => (s.step methods maxDepth op).refill values
  | _ => s.step methods maxDepth op

/-- Runs up to `fuel` operations behind `steps` earlier ones; the frames that they enter are
filled. -/
def RunContext.runFilled (c : RunContext) (fill : Filling) (fuel steps : Nat) (trace : List String)
    (s : RunState) : RunResult :=
  match s.frame.method.operations[s.frame.next]? with
  | none => ⟨.error (.badCode (.fallsOff s.frame.method.name)), s.statics, steps, trace⟩
  | some op =>
    match fuel with
    | 0 => ⟨.error (.stepLimit c.maxSteps), s.statics, steps + 1, trace⟩
    | fuel + 1 =>
      let trace := if c.tracing then s.traceLine :: trace else trace
      match s.stepFilled (fill (steps + 1)) c.methods c.maxDepth op with
      | .next s => c.runFilled fill fuel (steps + 1) trace s
      | .halt value statics => ⟨.ok value, statics, steps + 1, trace⟩
      | .fail e statics => ⟨.error e, statics, steps + 1, trace⟩

namespace Machine

/-- Calls a method with arguments in filled frames. -/
def callMethodFilled (m : Machine) (fill : Filling) (tracing : Bool) (method : Method)
    (arguments : List Int32) : Machine × Except MachineError Int32 × List String :=
  match Frame.enter method arguments with
  | .error e => (m, .error e, [])
  | .ok frame =>
    let r := (m.runContext tracing).runFilled fill (m.limits.maxSteps - m.steps) m.steps []
      { statics := m.statics, frame := frame.refill (fill m.steps) arguments.length }
    ({ m with statics := r.statics, steps := r.steps }, r.result, r.trace.reverse)

/-- Does what is asked in filled frames. -/
def respondFilled (m : Machine) (fill : Filling) (tracing : Bool) :
    Request → Machine × Except MachineError Int32 × List String
  | .construct =>
    match m.methodIndex[ClassFile.initName ++ ClassFile.initDescriptor]?.bind
        fun n => m.methods[n]? with
    | none => (m, .error (.noMethod .constructor), [])
    | some method => m.callMethodFilled fill tracing method [0]
  | .setStatic name value =>
    match m.setStatic name value with
    | .ok after => (after, .ok 0, [])
    | .error e => (m, .error e, [])
  | .invoke name arguments =>
    match (m.findMethod? name arguments.length).bind fun n => m.methods[n]? with
    | none => (m, .error (.noMethod (.invoked name arguments.length)), [])
    | some method => m.callMethodFilled fill tracing method arguments

/-- Does one thing after the other, each in frames that are filled in their own way. -/
def respondAllFilled (m : Machine) (tracing : Bool) :
    List (Request × Filling) → Machine × List (Except MachineError Int32 × List String)
  | [] => (m, [])
  | (request, fill) :: rest =>
    let (after, answer) := m.respondFilled fill tracing request
    let (last, answers) := after.respondAllFilled tracing rest
    (last, answer :: answers)

end Machine

/-! ### Slots that are assigned before they are read -/

/-- `known` tells for each operation of a method some slots that are assigned in front of it. -/
structure Method.Assigns (m : Method) (known : Nat → Set Nat) : Prop where
  /-- In front of the first operation only parameters are assigned. -/
  start : ∀ slot ∈ known 0, slot < m.type.params
  /-- Only assigned slots are read. -/
  load : ∀ k slot, m.operations[k]? = some (.load slot) → slot ∈ known k
  /-- A slot that is assigned behind an operation was so in front of it, or is written by it. -/
  flow : ∀ k op next slot, m.operations[k]? = some op → op.LeadsTo k next → slot ∈ known next →
    slot ∈ known k ∨ op = .store slot

/-- Two frames that differ only in slots that are not known to be assigned. -/
structure Frame.Alike (f g : Frame) : Prop where
  /-- They are those of the same method, -/
  method_eq : g.method = f.method
  /-- stand at the same operation -/
  next_eq : g.next = f.next
  /-- with the same stack, -/
  stack_eq : g.stack = f.stack
  /-- and have as many slots. -/
  size_eq : g.locals.size = f.locals.size
  /-- The slots that are assigned hold the same values. -/
  locals_eq : ∃ known, f.method.Assigns known ∧
    ∀ slot ∈ known f.next, g.locals[slot]? = f.locals[slot]?

/-- Two states of runs that differ only in slots that are not known to be assigned. -/
structure RunState.Alike (s t : RunState) : Prop where
  /-- The fields have the same values. -/
  statics_eq : t.statics = s.statics
  /-- The current calls are alike, -/
  frame : s.frame.Alike t.frame
  /-- and so are those that wait. -/
  callers : List.Forall₂ Frame.Alike s.callers t.callers
  /-- There are as many calls. -/
  depth_eq : t.depth = s.depth

/-- Two transitions that end alike or go on in states that are alike. -/
inductive Transition.Alike : Transition → Transition → Prop
  | next {s t : RunState} (h : s.Alike t) : Alike (.next s) (.next t)
  | halt (value : Int32) (statics : Array Int32) : Alike (.halt value statics) (.halt value statics)
  | fail (e : MachineError) (statics : Array Int32) : Alike (.fail e statics) (.fail e statics)

/-! ### Lockstep -/

namespace RunState

variable {s t : RunState}

theorem Alike.next_eq (h : s.Alike t) : t.frame.next = s.frame.next :=
  h.frame.next_eq

theorem Alike.method_eq (h : s.Alike t) : t.frame.method = s.frame.method :=
  h.frame.method_eq

theorem Alike.stack_eq (h : s.Alike t) : t.frame.stack = s.frame.stack :=
  h.frame.stack_eq

theorem Alike.traceLine_eq (h : s.Alike t) : t.traceLine = s.traceLine := by
  rw [traceLine, traceLine, h.method_eq, h.next_eq, h.stack_eq]

/-- Alike states fail alike. -/
theorem Alike.failWith (h : s.Alike t) (e : MachineError) :
    (s.failWith e).Alike (t.failWith e) := by
  unfold RunState.failWith
  rw [h.statics_eq]
  exact .fail e s.statics

section Operations

variable {op : Operation} (hop : s.frame.method.operations[s.frame.next]? = some op)
  (h : s.Alike t)

include hop h

/-- Slots that are assigned behind an operation which writes none were assigned in front of it. -/
theorem Alike.frame_at (hstore : ∀ slot, op ≠ .store slot) {next : Nat}
    (hnext : op.LeadsTo s.frame.next next) (stack : OperandStack) :
    Frame.Alike { s.frame with next, stack } { t.frame with next, stack } := by
  obtain ⟨known, hknown, hlocals⟩ := h.frame.locals_eq
  refine ⟨h.method_eq, rfl, rfl, h.frame.size_eq, known, hknown, ?_⟩
  intro slot hslot
  rcases hknown.flow _ op next slot hop hnext hslot with hslot | rfl
  · exact hlocals slot hslot
  · exact absurd rfl (hstore slot)

theorem Alike.proceed (hstore : ∀ slot, op ≠ .store slot) {next : Nat}
    (hnext : op.LeadsTo s.frame.next next) (stack : OperandStack) :
    (s.proceed next stack).Alike (t.proceed next stack) :=
  .next ⟨h.statics_eq, h.frame_at hop hstore hnext stack, h.callers, h.depth_eq⟩

theorem Alike.pushing (hstore : ∀ slot, op ≠ .store slot)
    (hnext : op.LeadsTo s.frame.next (s.frame.next + 1)) (stack : OperandStack) (v : Int32) :
    (s.pushing stack v).Alike (t.pushing stack v) := by
  unfold RunState.pushing
  rw [h.method_eq, h.next_eq]
  split
  · exact h.failWith _
  · exact h.proceed hop hstore hnext _

theorem Alike.goingTo (hstore : ∀ slot, op ≠ .store slot) (stack : OperandStack)
    {target : Except MachineError Nat}
    (hnext : ∀ next, target = .ok next → op.LeadsTo s.frame.next next) :
    (s.goingTo stack target).Alike (t.goingTo stack target) := by
  cases target with
  | error e => exact h.failWith e
  | ok next => exact h.proceed hop hstore (hnext next rfl) stack

omit hop in
theorem Alike.popping (stack : OperandStack) {f g : Int32 → OperandStack → Transition}
    (hfg : ∀ v rest, (f v rest).Alike (g v rest)) :
    (s.popping stack f).Alike (t.popping stack g) := by
  unfold RunState.popping
  rw [h.method_eq]
  split
  · exact h.failWith _
  · exact hfg _ _

/-- A slot that is written holds the same value in both. -/
theorem Alike.store {slot : Nat} (hslot : op = .store slot) (v : Int32) (stack : OperandStack) :
    (Transition.next { s with frame := { s.frame with
      next := s.frame.next + 1, locals := s.frame.locals.setIfInBounds slot v, stack } }).Alike
    (.next { t with frame := { t.frame with
      next := t.frame.next + 1, locals := t.frame.locals.setIfInBounds slot v, stack } }) := by
  obtain ⟨known, hknown, hlocals⟩ := h.frame.locals_eq
  subst hslot
  have hsize := h.frame.size_eq
  refine .next ⟨h.statics_eq, ⟨h.method_eq, by rw [h.next_eq], rfl, by simpa using hsize, known,
    hknown, ?_⟩, h.callers, h.depth_eq⟩
  intro k hk
  show (t.frame.locals.setIfInBounds slot v)[k]? = (s.frame.locals.setIfInBounds slot v)[k]?
  rw [Array.getElem?_setIfInBounds, Array.getElem?_setIfInBounds, hsize]
  by_cases hslot : slot = k
  · rw [if_pos hslot, if_pos hslot]
  · rw [if_neg hslot, if_neg hslot]
    rcases hknown.flow _ _ _ k hop rfl hk with hk | hk
    · exact hlocals k hk
    · exact absurd (Operation.store.inj hk) hslot

end Operations

/-- Alike states return alike. -/
theorem Alike.returning (h : s.Alike t) (v : Int32) : (s.returning v).Alike (t.returning v) := by
  have hcallers := h.callers
  have hstatics := h.statics_eq
  have hdepth := h.depth_eq
  unfold RunState.returning
  rw [h.method_eq]
  cases hs : s.callers with
  | nil =>
    rw [hs] at hcallers
    rw [List.forall₂_nil_left_iff.1 hcallers, hstatics]
    exact .halt v s.statics
  | cons caller rest =>
    rw [hs] at hcallers
    obtain ⟨caller', rest', hcaller, hrest, ht⟩ := List.forall₂_cons_left_iff.1 hcallers
    rw [ht]
    have hback : Alike ⟨s.statics, caller, rest, s.depth - 1⟩
        ⟨t.statics, caller', rest', t.depth - 1⟩ :=
      ⟨hstatics, hcaller, hrest, by rw [hdepth]⟩
    dsimp only
    rw [hcaller.method_eq, hcaller.stack_eq]
    split
    · split
      · exact hback.failWith _
      · exact .next ⟨hstatics, ⟨rfl, hcaller.next_eq, rfl, hcaller.size_eq,
          hcaller.locals_eq⟩, hrest, hback.depth_eq⟩
    · exact .next hback

end RunState

/-- A frame that has just been entered is alike to itself with other values in the slots behind the
arguments. -/
theorem Frame.alike_refill {m : Method} (hm : ∃ known, m.Assigns known) {arguments : List Int32}
    {f : Frame} (h : Frame.enter m arguments = .ok f) {n : Nat} (hn : m.type.params ≤ n)
    (values : Nat → Int32) : f.Alike (f.refill values n) := by
  obtain ⟨known, hm⟩ := hm
  obtain ⟨-, rfl⟩ := Frame.enter_eq_ok.1 h
  refine ⟨rfl, rfl, rfl, Array.size_mapIdx, known, hm, fun slot hslot => ?_⟩
  have hlt : slot < n := Nat.lt_of_lt_of_le (hm.start slot hslot) hn
  simp only [Frame.refill, Array.getElem?_mapIdx, if_pos hlt, Option.map_id']

namespace RunState

variable {s t : RunState} {op : Operation} {methods : Array Method}

/-- Alike states call alike, whatever the slots behind the arguments hold. -/
theorem Alike.calling {n : Nat} {name : Text}
    (hop : s.frame.method.operations[s.frame.next]? = some (.call n name)) (h : s.Alike t)
    {callee : Method} (hcallee : ∃ known, callee.Assigns known) (maxDepth : Nat)
    (values : Nat → Int32) :
    (s.calling maxDepth callee name).Alike ((t.calling maxDepth callee name).refill values) := by
  unfold RunState.calling
  rw [h.stack_eq, h.depth_eq, h.next_eq]
  split
  · rw [h.method_eq]
    exact h.failWith _
  · dsimp only
    split
    · exact h.failWith _
    · split
      · exact h.failWith _
      · rename_i frame hframe
        -- the frame that waits goes on behind the call, where nothing more is assigned
        have hwaits := h.frame_at hop (by simp) rfl (s.frame.stack.split callee.type.params).2
        refine .next ⟨h.statics_eq, ?_, .cons hwaits h.callers, rfl⟩
        rw [Frame.method_of_enter hframe]
        exact Frame.alike_refill hcallee hframe (Nat.le_refl _) values

/-- Every operation leads from alike states to alike states. -/
theorem Alike.step (hop : s.frame.method.operations[s.frame.next]? = some op) (h : s.Alike t)
    (hmethods : ∀ (n : Nat) (m : Method), methods[n]? = some m → ∃ known, m.Assigns known)
    (maxDepth : Nat) (values : Nat → Int32) :
    (s.step methods maxDepth op).Alike (t.stepFilled values methods maxDepth op) := by
  have hstack := h.stack_eq
  cases op with
  | push v =>
    show (s.pushing s.frame.stack v).Alike (t.pushing t.frame.stack v)
    rw [hstack]
    exact h.pushing hop (by simp) rfl _ v
  | load slot =>
    -- the one operation that reads a slot, which is an assigned one
    obtain ⟨known, hknown, hlocals⟩ := h.frame.locals_eq
    have hslot := hlocals slot (hknown.load _ slot hop)
    simp only [stepFilled, RunState.step]
    rw [hslot, hstack, h.method_eq, h.frame.size_eq]
    split
    · exact h.pushing hop (by simp) rfl _ _
    · exact h.failWith _
  | store slot =>
    simp only [stepFilled, RunState.step]
    rw [hstack, h.frame.size_eq]
    refine h.popping _ fun v rest => ?_
    split
    · exact h.store hop rfl v rest
    · rw [h.method_eq]
      exact h.failWith _
  | pop =>
    simp only [stepFilled, RunState.step]
    rw [hstack, h.next_eq]
    exact h.popping _ fun _ rest => h.proceed hop (by simp) rfl rest
  | arithmetic op =>
    simp only [stepFilled, RunState.step]
    rw [hstack]
    refine h.popping _ fun right rest => h.popping _ fun left rest => ?_
    split
    · exact h.pushing hop (by simp) rfl _ _
    · exact h.failWith _
  | branch test target =>
    simp only [stepFilled, RunState.step]
    rw [hstack, h.next_eq]
    refine h.popping _ fun right rest => h.popping _ fun left rest => ?_
    split
    · exact h.goingTo hop (by simp) rest fun next hnext => Or.inr hnext
    · exact h.proceed hop (by simp) (Or.inl rfl) rest
  | jump target =>
    simp only [stepFilled, RunState.step]
    rw [hstack]
    exact h.goingTo hop (by simp) _ fun next hnext => hnext
  | returnValue =>
    simp only [stepFilled, RunState.step]
    rw [hstack]
    exact h.popping _ fun v rest => h.returning v
  | returnNothing => exact h.returning 0
  | getField field =>
    simp only [stepFilled, RunState.step]
    rw [hstack, h.statics_eq]
    split <;> exact h.pushing hop (by simp) rfl _ _
  | putField field =>
    simp only [stepFilled, RunState.step]
    rw [hstack, h.next_eq, h.statics_eq]
    exact h.popping _ fun v rest =>
      .next ⟨rfl, h.frame_at hop (by simp) rfl rest, h.callers, h.depth_eq⟩
  | callSuper =>
    simp only [stepFilled, RunState.step]
    rw [hstack, h.next_eq]
    exact h.popping _ fun _ rest => h.proceed hop (by simp) rfl rest
  -- a new frame may have other values in the slots behind its arguments
  | call n name =>
    simp only [stepFilled, RunState.step]
    split
    · rename_i callee hcallee
      exact h.calling hop (hmethods n callee hcallee) maxDepth values
    · exact h.failWith _
  | fail e => exact h.failWith e

end RunState

/-! ### Runs and requests -/

/-- Runs from alike states come to the same, whatever new slots hold. -/
theorem RunContext.runFilled_eq {c : RunContext}
    (hmethods : ∀ (n : Nat) (m : Method), c.methods[n]? = some m → ∃ known, m.Assigns known)
    (fill : Filling) (fuel steps : Nat) (trace : List String) {s t : RunState} (h : s.Alike t) :
    c.runFilled fill fuel steps trace t = c.run fuel steps trace s := by
  induction fuel generalizing steps trace s t with
  | zero =>
    cases hop : s.frame.method.operations[s.frame.next]? <;>
      simp only [runFilled, run, h.method_eq, h.next_eq, h.statics_eq, hop]
  | succ fuel ih =>
    unfold runFilled run
    rw [h.method_eq, h.next_eq, h.statics_eq, h.traceLine_eq]
    cases hop : s.frame.method.operations[s.frame.next]? with
    | none => rfl
    | some op =>
      have hstep := h.step hop hmethods c.maxDepth (fill (steps + 1))
      revert hstep
      dsimp only
      generalize s.step c.methods c.maxDepth op = u
      generalize t.stepFilled (fill (steps + 1)) c.methods c.maxDepth op = v
      intro hstep
      cases hstep with
      | next h => exact ih _ _ h
      | halt => rfl
      | fail => rfl

namespace Machine

/-- All methods of a machine assign slots before they read them, and a method that is found takes
no more arguments than are asked for. -/
structure Assigned (m : Machine) : Prop where
  /-- The methods assign slots before they read them. -/
  methods : ∀ (n : Nat) (method : Method), m.methods[n]? = some method →
    ∃ known, method.Assigns known
  /-- A method that is found by its descriptor takes so many arguments. -/
  params_le : ∀ (name : Text) (arity : Nat) (result : ValueType) (n : Nat) (method : Method),
    m.methodIndex[name ++ procedureDescriptor arity result]? = some n →
    m.methods[n]? = some method → method.type.params ≤ arity

variable {m : Machine}

theorem Assigned.callMethodFilled_eq (h : m.Assigned) {n : Nat} {method : Method}
    (hmethod : m.methods[n]? = some method) {arguments : List Int32}
    (hparams : method.type.params ≤ arguments.length) (fill : Filling) (tracing : Bool) :
    m.callMethodFilled fill tracing method arguments = m.callMethod tracing method arguments := by
  unfold callMethodFilled callMethod
  cases hframe : Frame.enter method arguments with
  | error e => rfl
  | ok frame =>
    have hframes : frame.Alike (frame.refill (fill m.steps) arguments.length) :=
      Frame.alike_refill (h.methods n method hmethod) hframe hparams _
    have hstates : RunState.Alike { statics := m.statics, frame }
        { statics := m.statics, frame := frame.refill (fill m.steps) arguments.length } :=
      ⟨rfl, hframes, .nil, rfl⟩
    have hrun := RunContext.runFilled_eq (c := m.runContext tracing) h.methods fill
      (m.limits.maxSteps - m.steps) m.steps [] hstates
    dsimp only
    rw [hrun]
    rfl

theorem Assigned.findMethod?_params (h : m.Assigned) {name : Text} {arity n : Nat}
    {method : Method} (hn : m.findMethod? name arity = some n)
    (hmethod : m.methods[n]? = some method) : method.type.params ≤ arity := by
  unfold findMethod? at hn
  split at hn
  · rename_i k hk
    obtain rfl := Option.some.inj hn
    exact h.params_le name arity .int k method hk hmethod
  · exact h.params_le name arity .void n method hn hmethod

/-- A request is answered alike, whatever new slots hold. -/
theorem Assigned.respondFilled_eq (h : m.Assigned) (fill : Filling) (tracing : Bool)
    (request : Request) : m.respondFilled fill tracing request = m.respond tracing request := by
  cases request with
  | construct =>
    simp only [respondFilled, respond, Machine.construct]
    cases hfind : m.methodIndex[ClassFile.initName ++ ClassFile.initDescriptor]?.bind
        fun n => m.methods[n]? with
    | none => rfl
    | some method =>
      obtain ⟨n, hn, hmethod⟩ := Option.bind_eq_some_iff.1 hfind
      have hparams : method.type.params ≤ 0 :=
        h.params_le ClassFile.initName 0 .void n method hn hmethod
      have hle : method.type.params ≤ [(0 : Int32)].length := Nat.le_succ_of_le hparams
      exact h.callMethodFilled_eq hmethod hle fill tracing
  | setStatic name value => rfl
  | invoke name arguments =>
    simp only [respondFilled, respond, Machine.invoke]
    cases hfind : (m.findMethod? name arguments.length).bind fun n => m.methods[n]? with
    | none => rfl
    | some method =>
      obtain ⟨n, hn, hmethod⟩ := Option.bind_eq_some_iff.1 hfind
      exact h.callMethodFilled_eq hmethod (h.findMethod?_params hn hmethod) fill tracing

/-- A sequence of requests is answered alike, whatever new slots hold. -/
theorem Assigned.respondAllFilled_eq (h : m.Assigned) (tracing : Bool)
    (requests : List (Request × Filling)) :
    m.respondAllFilled tracing requests = m.respondAll tracing (requests.map Prod.fst) := by
  induction requests generalizing m with
  | nil => rfl
  | cons x rest ih =>
    obtain ⟨request, fill⟩ := x
    have hafter : (m.respond tracing request).1.Assigned := by
      obtain ⟨hmethods, hindex⟩ := m.methods_respond tracing request
      exact ⟨hmethods ▸ h.methods, hmethods ▸ hindex ▸ h.params_le⟩
    simp only [respondAllFilled, List.map_cons, respondAll, h.respondFilled_eq, ih hafter]

end Machine

end Classwright
