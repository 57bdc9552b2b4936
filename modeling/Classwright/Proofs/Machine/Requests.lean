import Classwright.Proofs.Machine.Invocation

/-!
# Sequences of requests

What a machine that has loaded the class file of a program answers to any sequence of requests:
constructing an object, giving fields values and calling procedures.  Each request leaves a machine
that still represents the program (`Machine.Represents.perform`), and the only errors are divisions
by zero and limits (`Machine.Represents.permitted_of_mem`).
-/

namespace Classwright

/-! ### The constructor -/

section Constructor

open Activation

variable {a : Activation} {c : RunContext} {m : Machine} {p : Program} {pool : PoolBuilder}
  {f : ClassFile}

theorem operation_superInit (hm : m.Represents p pool f) (ha : a.context = m.linkContext p f)
    (pre : Code) :
    a.operation pre { op := .invokeSpecial, operand := pool.superInit.toNat } = .callSuper := by
  obtain ⟨s, hs, hsign⟩ := hm.emitted.complete.superInit
  have hsuper := hm.emitted.complete.super
  rw [← hm.emitted.pool_eq] at hs hsign hsuper
  have hmember : LinkContext.memberRef f pool.superInit.toNat .methodRef =
      .ok (ClassFile.objectClass, ClassFile.initName, ClassFile.initDescriptor) :=
    LinkContext.memberRef_of_holds (Or.inr rfl) hs hsuper hsign
  have hsuperInit : a.context.superInit ((pool.superInit.toNat : Int)).toNat = .ok () := by
    have hfile : a.context.file = f := by rw [ha]; rfl
    rw [Int.toNat_natCast, LinkContext.superInit, hfile, hmember, ok_bind]
    exact if_pos ⟨rfl, rfl, rfl⟩
  simp only [operation, LinkContext.operation, hsuperInit, LinkContext.orFail]

/-- The stores of constants run through. -/
theorem EmitContext.StoresCode.leads (hp : p.WellFormed) (hm : m.Represents p pool f)
    (ha : a.context = m.linkContext p f) (hmax : 0 < a.method.maxStack) {ids : List DeclId}
    {code : Code} (h : StoresCode { program := p, pool } ids code) {pre post : Code}
    (hcode : a.raw.code = pre ++ (code ++ post)) (hids : ∀ id ∈ ids, id ∈ p.members)
    (statics locals : Array Int32) :
    ∃ n statics', c.Leads n (a.state statics locals pre.length [])
      (a.state statics' locals (pre ++ code).length []) := by
  induction h generalizing pre statics with
  | nil => exact ⟨0, statics, by rw [List.append_nil]; exact .refl _⟩
  | @cons id d rest i index code hd hk hi hr _ ih =>
    rw [List.forall_mem_cons] at hids
    obtain ⟨d', hd', ht⟩ := hp.mem_members.1 hids.1
    obtain rfl := Option.some.inj (hd'.symm.trans hd)
    obtain ⟨put, hput⟩ : ∃ i : Instruction, i = ⟨.putStatic, index.toNat, false⟩ := ⟨_, rfl⟩
    rw [← hput] at hcode ⊢
    have hstore : a.raw.code = (pre ++ [i]) ++ put :: (code ++ post) := by
      rw [hcode]; simp
    have hrest : a.raw.code = (pre ++ [i] ++ [put]) ++ (code ++ post) := by
      rw [hcode]; simp
    obtain ⟨k, -, -, hop⟩ := operation_of_field hp hm ha hd (by simp [Declaration.isValue, hk]) ht
      hr (pre ++ [i])
    rw [← hput] at hop
    obtain ⟨n, statics', hleads⟩ := ih hrest hids.2 (statics.setIfInBounds k d'.value)
    have hend : pre ++ i :: put :: code = pre ++ [i] ++ [put] ++ code := by simp
    rw [hend]
    exact ⟨n + 1 + 1, statics', .step (steps_push hcode (operation_of_push hm ha rfl hi pre) hmax)
      (.step (steps_putField hstore hop) hleads)⟩

/-- The constructor runs through to its return. -/
theorem InitFor.leads (hp : p.WellFormed) (hm : m.Represents p pool f)
    (ha : a.context = m.linkContext p f) (hinit : InitFor p pool a.raw)
    (statics locals : Array Int32) :
    ∃ n t statics', c.Leads n (a.state statics locals 0 []) t ∧
      c.Steps t (a.answer statics' 0) := by
  obtain ⟨stores, hstores, hcode⟩ := hinit.code_eq
  obtain ⟨receive, hreceive⟩ : ∃ i : Instruction, i = { op := .aload0 } := ⟨_, rfl⟩
  obtain ⟨super, hsuper⟩ : ∃ i : Instruction,
      i = { op := .invokeSpecial, operand := pool.superInit.toNat } := ⟨_, rfl⟩
  obtain ⟨last, hlast⟩ : ∃ i : Instruction, i = { op := .vreturn } := ⟨_, rfl⟩
  have hcode : a.raw.code = [] ++ receive :: super :: (stores ++ [last]) := by
    rw [hcode, hreceive, hsuper, hlast]
    rfl
  -- the code cut in front of each of its parts
  have hatSuper : a.raw.code = ([] ++ [receive]) ++ super :: (stores ++ [last]) := by
    rw [hcode]; simp
  have hatStores : a.raw.code = ([] ++ [receive] ++ [super]) ++ (stores ++ [last]) := by
    rw [hcode]; simp
  have hatLast : a.raw.code = ([] ++ [receive] ++ [super] ++ stores) ++ last :: [] := by
    rw [hcode]; simp
  have hmax : 0 < a.method.maxStack := by
    change 0 < a.raw.body.maxStack.toNat
    rw [hinit.maxStack_eq]
    exact Nat.one_pos
  -- what these instructions do
  have hpush : a.operation [] receive = .push 0 := by rw [hreceive]; rfl
  have hpop : a.operation ([] ++ [receive]) super = .callSuper := by
    rw [hsuper]
    exact operation_superInit hm ha _
  have hreturn : a.operation ([] ++ [receive] ++ [super] ++ stores) last = .returnNothing := by
    rw [hlast]
    simp [operation, LinkContext.operation, hinit.type_eq]
  obtain ⟨n, statics', hleads⟩ := hstores.leads (c := c) hp hm ha hmax hatStores
    (fun id hid => (List.mem_filter.1 hid).1) statics locals
  exact ⟨n + 1 + 1, _, statics', .step (steps_push hcode hpush hmax)
    (.step (steps_pop hatSuper (Or.inr hpop)) hleads), steps_returnNothing hatLast hreturn⟩

end Constructor

namespace Machine

variable {m : Machine} {p : Program} {pool : PoolBuilder} {f : ClassFile}

/-- The constructor is found by its name and descriptor. -/
theorem Represents.exists_constructor (hm : m.Represents p pool f) : ∃ raw, InitFor p pool raw ∧
    (m.methodIndex[ClassFile.initName ++ ClassFile.initDescriptor]?).bind
      (fun n => m.methods[n]?) = some ((m.linkContext p f).link raw) := by
  obtain ⟨raw, hraw, hmethod⟩ := hm.constructor
  have hkey : p.methodKeys[p.procedureDecls.length]? =
      some (ClassFile.initName ++ ClassFile.initDescriptor) := by
    rw [Program.methodKeys, List.getElem?_append_right (by simp)]
    simp
  refine ⟨raw, hraw, ?_⟩
  rw [(hm.methodIndex_iff _ _).2 hkey]
  exact hmethod

/-- Constructing an object succeeds unless it hits the limit on operations. -/
theorem Represents.construct_eq (hp : p.WellFormed) (hm : m.Represents p pool f) (tracing : Bool) :
    (m.construct tracing).1.Represents p pool f ∧
      ((m.construct tracing).2.1 = .ok 0 ∨
        (m.construct tracing).2.1 = .error (.stepLimit m.limits.maxSteps)) := by
  obtain ⟨raw, hraw, hfind⟩ := hm.exists_constructor
  have hlocals : ¬ ((m.linkContext p f).link raw).maxLocals < [(0 : Int32)].length := by
    change ¬ raw.body.maxLocals.toNat < 1
    rw [hraw.maxLocals_eq]
    exact Nat.lt_irrefl 1
  obtain ⟨n, t, statics', hleads, hsteps⟩ := hraw.leads (a := m.outerCall p f raw)
    (c := m.runContext tracing) hp hm rfl m.statics
    ([(0 : Int32)].toArray ++ Array.replicate (raw.body.maxLocals.toNat - 1) 0)
  rw [Activation.answer_of_nil rfl] at hsteps
  have hrun := RunContext.run_reaches hleads hsteps (m.limits.maxSteps - m.steps) m.steps []
  have hsize := (m.runContext tracing).size_run (m.limits.maxSteps - m.steps) m.steps []
    ((m.outerCall p f raw).state m.statics
      ([(0 : Int32)].toArray ++ Array.replicate (raw.body.maxLocals.toNat - 1) 0) 0 [])
  simp only [construct, hfind, callMethod, Frame.enter, if_neg hlocals]
  refine ⟨hm.with hsize m.limits _, ?_⟩
  rcases hrun with hlimit | ⟨left, steps', trace', hrun⟩
  · exact Or.inr hlimit
  · refine Or.inl ?_
    have hhalt := (RunContext.run_of_halts hsteps left steps' trace').1
    rw [← hrun] at hhalt
    exact hhalt

end Machine

/-! ### Requests -/

/-- What can be asked of a machine. -/
inductive Request where
  /-- Constructing an object. -/
  | construct
  /-- Giving a field a value. -/
  | setStatic (name : Text) (value : Int32)
  /-- Calling a procedure. -/
  | invoke (name : Text) (arguments : List Int32)
  deriving Repr, DecidableEq

namespace Request

/-- A request for what a program declares. -/
def Declared (p : Program) : Request → Prop
  | construct => True
  | setStatic name _ => ∃ d ∈ p.fieldDecls, d.name = name
  | invoke name arguments => ∃ d ∈ p.procedureDecls, d.name = name ∧ d.arity = arguments.length

end Request

namespace Machine

/-- Does what is asked and yields the machine behind it, the answer and the lines of its trace.  A
request that yields no number counts as yielding 0. -/
def respond (m : Machine) (tracing : Bool) :
    Request → Machine × Except MachineError Int32 × List String
  | .construct => m.construct tracing
  | .setStatic name value =>
    match m.setStatic name value with
    | .ok after => (after, .ok 0, [])
    | .error e => (m, .error e, [])
  | .invoke name arguments => m.invoke name arguments tracing

/-- Does one thing after the other and notes the answers. -/
def respondAll (m : Machine) (tracing : Bool) :
    List Request → Machine × List (Except MachineError Int32 × List String)
  | [] => (m, [])
  | request :: rest =>
    let (after, answer) := m.respond tracing request
    let (last, answers) := after.respondAll tracing rest
    (last, answer :: answers)

/-- Does what is asked and says whether it succeeds. -/
def perform (m : Machine) (tracing : Bool) (request : Request) :
    Machine × Except MachineError Unit :=
  let (after, result, _) := m.respond tracing request
  (after, result.map fun _ => ())

/-- Does one thing after the other and notes whether they succeed. -/
def performAll (m : Machine) (tracing : Bool) (requests : List Request) :
    Machine × List (Except MachineError Unit) :=
  let (last, answers) := m.respondAll tracing requests
  (last, answers.map fun (result, _) => result.map fun _ => ())

/-- Requests one after the other are a first one and the others behind it. -/
theorem performAll_cons (m : Machine) (tracing : Bool) (request : Request) (rest : List Request) :
    m.performAll tracing (request :: rest) =
      (((m.perform tracing request).1.performAll tracing rest).1,
        (m.perform tracing request).2 :: ((m.perform tracing request).1.performAll tracing rest).2) :=
  rfl

/-- The errors that a program may run into. -/
def Permitted (e : MachineError) : Prop :=
  e = .divisionByZero ∨ (∃ n, e = .stepLimit n) ∨ ∃ n, e = .callDepth n

variable {m : Machine} {p : Program} {pool : PoolBuilder} {f : ClassFile}

theorem methods_callMethod (m : Machine) (tracing : Bool) (method : Method)
    (arguments : List Int32) :
    (m.callMethod tracing method arguments).1.methods = m.methods ∧
      (m.callMethod tracing method arguments).1.methodIndex = m.methodIndex := by
  unfold callMethod
  split <;> exact ⟨rfl, rfl⟩

/-- A request leaves the methods as they are. -/
theorem methods_respond (m : Machine) (tracing : Bool) (request : Request) :
    (m.respond tracing request).1.methods = m.methods ∧
      (m.respond tracing request).1.methodIndex = m.methodIndex := by
  cases request with
  | construct =>
    simp only [respond, Machine.construct]
    split
    · exact ⟨rfl, rfl⟩
    · exact m.methods_callMethod tracing _ _
  | setStatic name value =>
    simp only [respond, Machine.setStatic]
    cases m.fieldIndex[name]? <;> exact ⟨rfl, rfl⟩
  | invoke name arguments =>
    simp only [respond, Machine.invoke]
    split
    · exact ⟨rfl, rfl⟩
    · exact m.methods_callMethod tracing _ _

theorem exists_holds (m : Machine) : ∃ fields, m.Holds fields := by
  refine ⟨fun name => (m.static? name).getD 0, fun name value h => ?_⟩
  simp only [h, Option.getD_some]

theorem Represents.represents_invoke (hp : p.WellFormed) (hm : m.Represents p pool f) {id : DeclId}
    {d : Declaration} (hd : p.decl? id = some d) (hk : d.kind = .procedure)
    {arguments : List Int32} (harguments : arguments.length = d.arity) (tracing : Bool) :
    (m.invoke d.name arguments tracing).1.Represents p pool f := by
  obtain ⟨fields, hfields⟩ := m.exists_holds
  obtain ⟨n, hn⟩ := List.mem_iff_getElem?.1 (hp.mem_procedureDecls.2 ⟨id, hd, hk⟩)
  obtain ⟨raw, hraw, hmethod⟩ := hm.procedure n d hn
  rw [hm.invoke_eq hp hd hk hn hraw hmethod harguments hfields]
  have hsize : (p.staticsOf fields).size = m.statics.size := by rw [hm.statics_eq hfields]
  exact hm.with ((RunContext.size_run _ _ _ _ _).trans hsize) m.limits _

/-- A request leaves a machine that represents the program, and its error is a permitted one. -/
theorem Represents.perform (hp : p.WellFormed) (hm : m.Represents p pool f) {request : Request}
    (h : request.Declared p) (tracing : Bool) :
    (m.perform tracing request).1.Represents p pool f ∧
      ∀ e, (m.perform tracing request).2 = .error e → Permitted e := by
  cases request with
  | construct =>
    obtain ⟨hafter, hresult⟩ := hm.construct_eq hp tracing
    refine ⟨hafter, fun e he => ?_⟩
    simp only [Machine.perform, Machine.respond] at he
    rcases hresult with hresult | hresult
    · rw [hresult] at he
      cases he
    · rw [hresult] at he
      exact Or.inr (Or.inl ⟨_, (Except.error.inj he).symm⟩)
  | setStatic name value =>
    obtain ⟨d, hd, rfl⟩ := h
    obtain ⟨n, hn⟩ := List.mem_iff_getElem?.1 (List.mem_map.2 ⟨d, hd, rfl⟩ : d.name ∈ p.fieldNames)
    have hset : m.setStatic d.name value =
        .ok { m with statics := m.statics.setIfInBounds n value } := by
      rw [setStatic, (hm.fieldIndex_iff _ _).2 hn]
    simp only [Machine.perform, Machine.respond, hset]
    exact ⟨hm.with (Array.size_setIfInBounds ..) m.limits m.steps, fun e he => by cases he⟩
  | invoke name arguments =>
    obtain ⟨d, hd, rfl, harity⟩ := h
    obtain ⟨id, hid, hk⟩ := hp.mem_procedureDecls.1 hd
    obtain ⟨fields, hfields⟩ := m.exists_holds
    refine ⟨hm.represents_invoke hp hid hk harity.symm tracing, fun e he => ?_⟩
    simp only [Machine.perform, Machine.respond] at he
    -- a limit is met, or the call agrees with the evaluation of its procedure
    rcases hm.invoke_agrees hp hid hk harity.symm hfields tracing with
      hlimit | ⟨depth, hdeep⟩ | ⟨r, ⟨hr, -⟩, hagrees⟩
    · rw [hlimit] at he
      exact Or.inr (Or.inl ⟨_, (Except.error.inj he).symm⟩)
    · rw [hdeep] at he
      exact Or.inr (Or.inr ⟨depth, (Except.error.inj he).symm⟩)
    · cases r with
      | unfinished => exact absurd rfl hr
      | failed fields =>
        rw [hagrees.1] at he
        exact Or.inl (Except.error.inj he).symm
      | done value fields =>
        rw [hagrees.1] at he
        cases he

/-- Whatever is asked of a machine, its errors are permitted ones. -/
theorem Represents.permitted_of_mem (hp : p.WellFormed) (hm : m.Represents p pool f)
    {requests : List Request} (h : ∀ request ∈ requests, request.Declared p) (tracing : Bool)
    {e : MachineError} (he : .error e ∈ (m.performAll tracing requests).2) : Permitted e := by
  induction requests generalizing m with
  | nil => cases he
  | cons request rest ih =>
    rw [List.forall_mem_cons] at h
    rw [performAll_cons] at he
    obtain ⟨hafter, hanswer⟩ := hm.perform hp h.1 tracing
    rcases List.mem_cons.1 he with he | he
    · exact hanswer e he.symm
    · exact ih hafter h.2 he

end Machine

end Classwright
