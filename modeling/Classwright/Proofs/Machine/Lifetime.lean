import Classwright.Proofs.Machine.Interpreter

/-!
# The lifetime of an interpreter

Whatever code a class file holds and whatever is asked of an interpreter that has loaded it, it
stays within its limits and in order as long as there is room for the calls
(`Interpreter.stays_bounded`): each call ends, no more operations run than allowed, no more calls
are in progress at once than allowed and none when a call has ended, and no operation reaches
outside the stack, the slots, the code or the pool.  Once the limit on operations was hit, calls
change nothing.

Room is needed.  Under the greatest limit a run that always goes on never ends
(`Interpreter.run_of_goesOn`), and one smaller the count wraps around behind the limit
(`Interpreter.exceeds_limits`).
-/

namespace Classwright

/-! ### Calls in progress -/

namespace Interpreter

/-- What the calls of an interpreter share. -/
def callState (i : Interpreter) : CallState :=
  { statics := i.statics, steps := i.steps.toNatClampNeg, depth := i.depth }

/-- A state that a call of one of the methods comes to, the call itself being counted. -/
def Visits (i : Interpreter) (s : RunState) : Prop :=
  i.depth < i.maxDepth ∧ ∃ method ∈ i.methods, ∃ arguments frame n,
    Frame.enter method arguments = .ok frame ∧
      (i.machine.runContext false).Leads n
        { statics := i.statics, frame, depth := i.depth + 1 } s

/-- One more call cannot make the count of operations wrap around. -/
structure HasRoom (i : Interpreter) : Prop where
  /-- A count beyond the limit is a number. -/
  maxSteps_lt : i.maxSteps < Int64.maxValue
  /-- One operation more is counted as such. -/
  steps_lt : i.steps < Int64.maxValue

end Interpreter

/-- What a state of a run reaches is there: its next operation takes values and names a slot, a
field, a method and operations that are there, unless it fails because it reaches outside the stack
or the slots; the pool entries it was resolved by are there, unless it is the failure to do so; and
without a next operation the run ends. -/
structure RunState.Inside (f : ClassFile) (i : Interpreter) (s : RunState) : Prop where
  /-- The values and the slot are there. -/
  reaches : ∀ op, s.frame.current? = some op → s.frame.Reaches i.methods op ∨
    ∃ reason : BadCode, reason.isOverrun = true ∧
      s.step i.methods i.maxDepth op = .fail (.badCode reason) s.statics
  /-- The field, the method and the operations are there. -/
  resolved : ∀ op, s.frame.current? = some op →
    op.Resolved s.statics.size i.methods.size s.frame.method.operations.size
  /-- The pool entries are there. -/
  reads : ∀ op, s.frame.current? = some op → ∃ pc j,
    s.frame.method.source[s.frame.next]? = some (pc, j) ∧ ∀ tag, j.op.poolTag? = some tag →
      f.Reads j.operand.toNat tag ∨ ∃ e, op = .fail e
  /-- Behind the last operation the run ends. -/
  ends : s.frame.current? = none → ∀ tracing steps trace, i.run tracing steps trace s =
    some ⟨.error (.badCode (.fallsOff s.frame.method.name)), s.statics, steps, s.lowered, trace⟩

theorem RunState.Within.inside {f : ClassFile} {i : Interpreter} {s : RunState}
    (hi : i.machine.Resolved f) (hs : s.Within i.machine) : s.Inside f i := by
  have hmem : s.frame.method ∈ i.machine.methods := (hs.frames _ List.mem_cons_self).mem
  constructor
  · intro op hop
    refine (Frame.reaches_or_overruns i.methods s.statics s.frame op).imp_right ?_
    rintro ⟨reason, hreason, heffect⟩
    refine ⟨reason, hreason, ?_⟩
    rw [step_eq_transition, heffect]
    rfl
  · intro op hop
    obtain ⟨pc, j, -, hlinks⟩ := hi.links hmem hop
    rw [hs.size_eq]
    exact hlinks.resolved
  · intro op hop
    obtain ⟨pc, j, hj, hlinks⟩ := hi.links hmem hop
    exact ⟨pc, j, hj, hlinks.reads⟩
  · intro hend tracing steps trace
    exact Interpreter.run_of_none hend tracing steps trace

namespace Interpreter

variable {f : ClassFile} {i : Interpreter} {m : Machine}

/-- **No state reaches outside**: the states of calls keep to the limits. -/
theorem Visits.within (hi : i.machine.Resolved f) (hdepth : i.depth = 0) {s : RunState}
    (h : i.Visits s) : s.Within i.machine := by
  obtain ⟨hroom, method, hmethod, arguments, frame, n, henter, hleads⟩ := h
  rw [hdepth] at hroom hleads
  refine RunState.Within.leads hi hleads ⟨?_, rfl, hroom, rfl⟩
  exact List.forall_mem_singleton.2 (Frame.fits_of_enter hmethod henter)

/-! ### Order -/

/-- What neither the code of the class file `f` nor a limit can break. -/
structure Orderly (f : ClassFile) (i : Interpreter) : Prop where
  /-- No call is in progress. -/
  depth_eq : i.depth = 0
  /-- A call that is known ends, in the way that is answered and in no other. -/
  ends : i.HasRoom → ∀ tracing request activity, i.machine.activity? request = some activity →
    ∃ after answer trace, i.respond tracing request = some (after, answer, trace) ∧ ∀ r st,
      (i.machine.runContext tracing).Performs i.callState activity r st ↔
        r = answer ∧ st = after.callState
  /-- Behind any call inside others as many are in progress as in front of it. -/
  restores : ∀ tracing st activity r st',
    (i.machine.runContext tracing).Performs st activity r st' → st'.depth = st.depth
  /-- A call that is not known is refused. -/
  refuses : ∀ tracing request, request.isCall = true → i.machine.activity? request = none →
    i.respond tracing request = some (i, .error (.noMethod request.missing), [])
  /-- All states of calls keep to the limits, -/
  within : ∀ s, i.Visits s → s.Within i.machine
  /-- and what they reach is there. -/
  inside : ∀ s, i.Visits s → s.Inside f i

/-- A call that is not known is refused. -/
theorem respond_of_missing {request : Request} (hcall : request.isCall = true)
    (h : i.machine.activity? request = none) (tracing : Bool) :
    i.respond tracing request = some (i, .error (.noMethod request.missing), []) := by
  cases request with
  | construct =>
    have hnone : (i.methodIndex[ClassFile.initName ++ ClassFile.initDescriptor]?.bind
        fun n => i.methods[n]?) = none := Option.map_eq_none_iff.1 h
    simp only [respond, construct, hnone, Request.missing]
  | setStatic name value => cases hcall
  | invoke name arguments =>
    have hnone : ((i.machine.findMethod? name arguments.length).bind
        fun n => i.methods[n]?) = none := Option.map_eq_none_iff.1 h
    simp only [respond, invoke, hnone, Request.missing]

/-! ### Machines in words -/

theorem machine_ofMachine (hlimit : m.limits.maxSteps < 2 ^ 63) (hsteps : m.steps < 2 ^ 63) :
    (ofMachine m).machine = m := by
  simp only [machine, ofMachine, Int64.toNatClampNeg_ofNat_of_lt hlimit,
    Int64.toNatClampNeg_ofNat_of_lt hsteps]

theorem callState_ofMachine (hsteps : m.steps < 2 ^ 63) : (ofMachine m).callState = m.rest := by
  simp only [callState, Machine.rest, ofMachine, Int64.toNatClampNeg_ofNat_of_lt hsteps]

theorem ofNat_lt_maxValue {n : Nat} (h : n < 2 ^ 63) :
    Int64.ofNat n < Int64.maxValue ↔ n + 1 < 2 ^ 63 := by
  rw [Int64.lt_iff_toInt_lt, Int64.toInt_ofNat_of_lt h, Int64.toInt_maxValue]
  omega

/-- There is room for one more call if one operation more can be counted, and one more than
allowed. -/
theorem hasRoom_ofMachine (hlimit : m.limits.maxSteps < 2 ^ 63) (hsteps : m.steps < 2 ^ 63) :
    (ofMachine m).HasRoom ↔ m.limits.maxSteps + 1 < 2 ^ 63 ∧ m.steps + 1 < 2 ^ 63 := by
  rw [← ofNat_lt_maxValue hlimit, ← ofNat_lt_maxValue hsteps]
  exact ⟨fun h => ⟨h.maxSteps_lt, h.steps_lt⟩, fun h => ⟨h.1, h.2⟩⟩

theorem orderly_ofMachine (hm : m.Resolved f) (hdepth : 0 < m.limits.maxDepth)
    (hlimit : m.limits.maxSteps < 2 ^ 63) (hsteps : m.steps < 2 ^ 63) :
    (ofMachine m).Orderly f := by
  have hmachine := machine_ofMachine hlimit hsteps
  have hresolved : (ofMachine m).machine.Resolved f := hmachine.symm ▸ hm
  have hwithin (s : RunState) (hs : (ofMachine m).Visits s) : s.Within (ofMachine m).machine :=
    hs.within hresolved rfl
  refine ⟨rfl, ?_, fun _ _ _ _ _ h => h.depth_eq,
    fun tracing _ hcall hnone => respond_of_missing hcall hnone tracing, hwithin,
    fun s hs => (hwithin s hs).inside hresolved⟩
  intro hroom tracing request activity hactivity
  rw [hmachine] at hactivity ⊢
  have hfits := (hasRoom_ofMachine hlimit hsteps).1 hroom
  refine ⟨_, _, _, respond_ofMachine hdepth (fun _ => hfits) tracing, fun r st => ?_⟩
  obtain ⟨method, -, arguments, rfl, hrespond⟩ := Machine.respond_of_activity hactivity tracing
  -- a call counts one operation beyond the limit at most, so the count stays a number
  have hafter : (m.respond tracing request).1.steps < 2 ^ 63 := by
    have hle := (m.counts_respond tracing request).steps_le
    omega
  rw [callState_ofMachine hsteps, callState_ofMachine hafter]
  have hdone := Machine.performs_callMethod hdepth tracing method arguments
  rw [hrespond]
  constructor
  · exact hdone.unique
  · rintro ⟨rfl, rfl⟩
    exact hdone

theorem load_eq_ok {maxSteps maxDepth : Int64} : load f maxSteps maxDepth = .ok i ↔
    ∃ m, Machine.load f (.ofWords maxSteps maxDepth) = .ok m ∧ ofMachine m = i := by
  unfold load
  cases Machine.load f (.ofWords maxSteps maxDepth) <;> simp [Except.map]

/-- **Runs are bounded**: take an interpreter that has loaded any class file, and requests whose
calls the count of operations has room for behind the limit in force.  Then all of them end; over
all of them no more operations run than allowed, one for each line of the trace, and tracing changes
nothing; and behind them the interpreter is in order.  Once the limit on operations was hit, a
further call fails and changes no field. -/
theorem stays_bounded {maxSteps maxDepth : Int64} (h : load f maxSteps maxDepth = .ok i)
    {requests : List Request}
    (hroom : (Limits.ofWords maxSteps maxDepth).maxSteps + requests.countP Request.isCall < 2 ^ 63)
    (tracing : Bool) :
    ∃ after answers traced, i.respondAll tracing requests = some (after, answers) ∧
      i.respondAll true requests = some (after, traced) ∧
      traced.map Prod.fst = answers.map Prod.fst ∧
      (traced.map fun answer => answer.2.length).sum ≤ (Limits.ofWords maxSteps maxDepth).maxSteps ∧
      after.machine.limits = .ofWords maxSteps maxDepth ∧ after.Orderly f ∧
      ((Limits.ofWords maxSteps maxDepth).maxSteps + (requests.countP Request.isCall + 1) < 2 ^ 63 →
        after.HasRoom) ∧
      (after.HasRoom → (∃ limit trace, (.error (.stepLimit limit), trace) ∈ answers) →
        ∀ request, request.isCall = true → ∃ last e trace,
          after.respond tracing request = some (last, .error e, trace) ∧
            last.statics = after.statics) := by
  obtain ⟨m, hload, rfl⟩ := load_eq_ok.1 h
  have hm := Machine.resolved_of_load hload
  have hlimits : m.limits = .ofWords maxSteps maxDepth ∧ m.steps = 0 := by
    obtain ⟨className, fields, raws, -, -, -, rfl⟩ := Machine.load_eq_ok.1 hload
    exact ⟨rfl, rfl⟩
  have hdepth : 0 < m.limits.maxDepth := hlimits.1 ▸ Limits.ofNumbers_pos _ _
  rw [← hlimits.1] at hroom ⊢
  have hstart : m.steps ≤ m.limits.maxSteps + 0 := hlimits.2.trans_le (Nat.zero_le _)
  -- the answers are those of the machine that counts on
  obtain ⟨hanswers, hsteps⟩ := respondAll_ofMachine hdepth hstart hroom tracing
  obtain ⟨htraced, -⟩ := respondAll_ofMachine hdepth hstart hroom true
  obtain ⟨hsame, hsameAnswers⟩ := m.untraced_respondAll tracing true requests
  rw [← hsame] at htraced
  have hnow := hm.respondAll tracing requests
  have hnowLimits := m.limits_respondAll tracing requests
  have hnowDepth : 0 < (m.respondAll tracing requests).1.limits.maxDepth := hnowLimits ▸ hdepth
  have hnowLimit : (m.respondAll tracing requests).1.limits.maxSteps < 2 ^ 63 := by
    rw [hnowLimits]
    omega
  have hnowSteps : (m.respondAll tracing requests).1.steps < 2 ^ 63 := by omega
  refine ⟨_, _, _, hanswers, htraced, hsameAnswers.symm, ?_, ?_,
    orderly_ofMachine hnow hnowDepth hnowLimit hnowSteps, ?_, ?_⟩
  · exact Nat.le_trans (m.operationsRun_le requests) (Nat.sub_le _ _)
  · rw [machine_ofMachine hnowLimit hnowSteps, hnowLimits]
  · intro hmore
    refine (hasRoom_ofMachine hnowLimit hnowSteps).2 ⟨?_, ?_⟩
    · rw [hnowLimits]
      omega
    · omega
  · rintro hmore ⟨limit, trace, hmem⟩ request hcall
    have hlt := hm.lt_of_mem hdepth hmem
    rw [← hnowLimits] at hlt
    obtain ⟨⟨e, he⟩, hstatics⟩ := Machine.fails_of_lt hnowDepth hlt hcall tracing
    have hfits := (hasRoom_ofMachine hnowLimit hnowSteps).1 hmore
    have hanswer := @respond_ofMachine _ hnowDepth request (fun _ => hfits) tracing
    exact ⟨_, e, _, hanswer.trans (by rw [← he]), hstatics⟩

theorem stays_bounded_countdown :
    (Limits.ofWords 5 3).maxSteps +
        [Request.invoke (Text.ofString "f") [3], .construct].countP Request.isCall < 2 ^ 63 ∧
      ∃ i, load countdownFile 5 3 = .ok i ∧ ∃ after answers traced,
        i.respondAll false [.invoke (Text.ofString "f") [3], .construct] = some (after, answers) ∧
          i.respondAll true [.invoke (Text.ofString "f") [3], .construct] = some (after, traced) ∧
          (traced.map fun answer => answer.2.length).sum ≤ 5 ∧ after.Orderly countdownFile ∧
          after.HasRoom := by
  have hroom : (Limits.ofWords 5 3).maxSteps +
      [Request.invoke (Text.ofString "f") [3], .construct].countP Request.isCall < 2 ^ 63 := by
    decide
  obtain ⟨start, hstart⟩ := Machine.exists_load_countdownFile
  have hload : load countdownFile 5 3 = .ok _ :=
    load_eq_ok.2 ⟨_, Machine.load_with hstart (.ofWords 5 3), rfl⟩
  obtain ⟨after, answers, traced, hanswers, htraced, -, hsum, -, horderly, hmore, -⟩ :=
    stays_bounded hload hroom false
  exact ⟨hroom, _, hload, after, answers, traced, hanswers, htraced, hsum, horderly,
    hmore (by decide)⟩

end Interpreter

/-- A request for a call of a method that is found calls it. -/
theorem Interpreter.respond_invoke {i : Interpreter} {name : Text} {arguments : List Int32}
    {method : Method}
    (h : (i.machine.findMethod? name arguments.length).bind (i.methods[·]?) = some method)
    (tracing : Bool) :
    i.respond tracing (.invoke name arguments) = i.callMethod tracing method arguments := by
  simp only [respond, invoke, h]

/-! ### Runs without room -/

/-- States from which the next operation always leads to another of them. -/
def RunContext.GoesOn (c : RunContext) (P : RunState → Prop) : Prop :=
  ∀ s, P s → ∃ t, c.Steps s (.next t) ∧ P t

/-- A run that always goes on hits the limit, and counts all operations that were left and one
more. -/
theorem RunContext.run_of_goesOn {c : RunContext} {P : RunState → Prop} (hP : c.GoesOn P)
    {s : RunState} (hs : P s) (fuel steps : Nat) (trace : List String) :
    (c.run fuel steps trace s).result = .error (.stepLimit c.maxSteps) ∧
      (c.run fuel steps trace s).steps = steps + fuel + 1 := by
  induction fuel generalizing steps trace s with
  | zero =>
    obtain ⟨t, ⟨op, hop, -⟩, -⟩ := hP s hs
    rw [run, hop]
    exact ⟨rfl, rfl⟩
  | succ fuel ih =>
    obtain ⟨t, ⟨op, hop, hstep⟩, ht⟩ := hP s hs
    rw [run, hop]
    simp only [hstep]
    obtain ⟨hresult, hsteps⟩ :=
      ih ht (steps + 1) (if c.tracing then s.traceLine :: trace else trace)
    exact ⟨hresult, hsteps.trans (by omega)⟩

namespace Interpreter

variable {i : Interpreter}

/-- **A run that always goes on never ends** under the greatest limit: no count is beyond it. -/
theorem run_of_goesOn {P : RunState → Prop} (hP : (i.machine.runContext false).GoesOn P)
    (hlimit : i.maxSteps = Int64.maxValue) {s : RunState} (hs : P s) (tracing : Bool)
    (steps : Int64) (trace : List String) : i.run tracing steps trace s = none := by
  -- whatever a run returns is the end of finitely many steps, and none of these is the last
  have hnever : ∀ steps trace s r, i.run tracing steps trace s = some r → ¬ P s := by
    refine run.partial_correctness i tracing (fun _ _ s _ => ¬ P s) ?_
    intro again ih steps trace s r hrun hs
    obtain ⟨t, ⟨op, hop, hstep⟩, ht⟩ := hP s hs
    have hstep' : s.step i.methods i.maxDepth op = .next t := hstep
    have hcount : ¬ i.maxSteps < steps + 1 := by
      rw [hlimit]
      exact Int64.not_lt.2 (Int64.le_maxValue _)
    dsimp only at hrun
    rw [hop] at hrun
    dsimp only at hrun
    rw [if_neg hcount, hstep'] at hrun
    exact ih _ _ t r hrun ht
  cases hrun : i.run tracing steps trace s with
  | none => rfl
  | some r => exact absurd hs (hnever steps trace s r hrun)

end Interpreter

/-- Code that returns 1. -/
def oneCode : Code :=
  [{ op := .iconst1 }, { op := .ireturn }]

/-- Code that goes back to where it starts. -/
def endlessCode : Code :=
  [{ op := .goto, operand := 0 }]

/-- The method f with the first code. -/
def oneMethod : Member where
  name := 5
  descriptor := 7
  attributes := [⟨8, MethodCode.encode ⟨1, 0, oneCode.encode⟩⟩]

/-- The method g with the second code. -/
def endlessMethod : Member where
  name := 6
  descriptor := 7
  attributes := [⟨8, MethodCode.encode ⟨1, 0, endlessCode.encode⟩⟩]

/-- A class with these two methods. -/
def endlessFile : ClassFile where
  major := ClassFile.majorVersion
  pool := #[.utf8 (Text.ofString "A"), .classRef 1, .utf8 ClassFile.objectClass, .classRef 3,
    .utf8 (Text.ofString "f"), .utf8 (Text.ofString "g"), .utf8 (Text.ofString "()I"),
    .utf8 ClassFile.codeAttribute]
  this := 2
  super := 4
  methods := [oneMethod, endlessMethod]

theorem decode_oneCode : Code.decode oneCode.encode = .ok oneCode := by
  decide +kernel

theorem decode_endlessCode : Code.decode endlessCode.encode = .ok endlessCode := by
  decide +kernel

theorem methodCode_oneMethod :
    endlessFile.methodCode oneMethod = .ok ⟨1, 0, oneCode.encode⟩ := by
  cbv

theorem methodCode_endlessMethod :
    endlessFile.methodCode endlessMethod = .ok ⟨1, 0, endlessCode.encode⟩ := by
  cbv

/-- The first method as it is loaded. -/
def oneRaw : RawMethod where
  name := Text.ofString "f"
  descriptor := Text.ofString "()I"
  type := ⟨0, true⟩
  body := ⟨1, 0, oneCode.encode⟩
  code := oneCode

/-- The second method as it is loaded. -/
def endlessRaw : RawMethod where
  name := Text.ofString "g"
  descriptor := Text.ofString "()I"
  type := ⟨0, true⟩
  body := ⟨1, 0, endlessCode.encode⟩
  code := endlessCode

theorem mapM_loadMethod_endlessFile :
    endlessFile.methods.mapM (Machine.loadMethod endlessFile) = .ok [oneRaw, endlessRaw] :=
  mapM_eq_ok.2
    (.cons (Machine.loadMethod_eq_ok rfl rfl methodCode_oneMethod decode_oneCode)
      (.cons (Machine.loadMethod_eq_ok rfl rfl methodCode_endlessMethod decode_endlessCode) .nil))

/-- The two methods are numbered by their keys. -/
theorem getElem?_indexMethods_endlessFile (key : Text) :
    (Machine.indexMethods [oneRaw, endlessRaw])[key]? =
      if endlessRaw.name ++ endlessRaw.descriptor == key then some 1
      else if oneRaw.name ++ oneRaw.descriptor == key then some 0 else none := by
  simp [Machine.indexMethods, Std.HashMap.getElem?_insert]

/-- A method without parameters and slots, with room for one value, that runs some operations. -/
structure Method.Plain (operations : Array Operation) (method : Method) : Prop where
  maxLocals_eq : method.maxLocals = 0
  maxStack_eq : method.maxStack = 1
  operations_eq : method.operations = operations

theorem plain_link_oneRaw (c : LinkContext) : (c.link oneRaw).Plain #[.push 1, .returnValue] :=
  ⟨rfl, rfl, rfl⟩

/-- The jump goes to the instruction it stands in. -/
theorem plain_link_endlessRaw (c : LinkContext) : (c.link endlessRaw).Plain #[.jump (.ok 0)] := by
  have hcode : endlessRaw.code = [] ++ { op := .goto } :: [] := rfl
  have htarget := LinkContext.target_eq_ok hcode { op := .goto } 0 rfl
  refine ⟨rfl, rfl, ?_⟩
  change ((Code.locate 0 endlessRaw.code).map fun x => c.operation endlessRaw
    (LinkContext.startsOf (Code.locate 0 endlessRaw.code)) x.1 x.2).toArray = _
  rw [hcode] at htarget ⊢
  exact congrArg (fun target => #[Operation.jump target]) htarget

/-- What the class is loaded as, under any limits, and which methods requests call. -/
theorem exists_load_endlessFile : ∃ (start : Machine) (one endless : Method), start.steps = 0 ∧
    (∀ limits, Machine.load endlessFile limits = .ok { start with limits }) ∧
    one.Plain #[.push 1, .returnValue] ∧ endless.Plain #[.jump (.ok 0)] ∧
    ∀ i : Interpreter, i.methods = start.methods → i.methodIndex = start.methodIndex →
      i.respond false (.invoke (Text.ofString "f") []) = i.callMethod false one [] ∧
        i.respond false (.invoke (Text.ofString "g") []) = i.callMethod false endless [] := by
  -- the limits are a field of the machine, so one machine does for all of them
  obtain ⟨start, c, hload, hmethods, hkeys, hsteps⟩ : ∃ (start : Machine) (c : LinkContext),
      Machine.load endlessFile {} = .ok start ∧
        start.methods = #[c.link oneRaw, c.link endlessRaw] ∧
        start.methodIndex = Machine.indexMethods [oneRaw, endlessRaw] ∧ start.steps = 0 :=
    ⟨_, _, Machine.load_eq_ok.2 ⟨_, _, _, rfl, rfl, mapM_loadMethod_endlessFile, rfl⟩, rfl, rfl,
      rfl⟩
  have hf : start.methodIndex[Text.ofString "f" ++ MethodType.descriptor ⟨0, true⟩]? = some 0 := by
    rw [hkeys, getElem?_indexMethods_endlessFile]
    decide +kernel
  have hg : start.methodIndex[Text.ofString "g" ++ MethodType.descriptor ⟨0, true⟩]? = some 1 := by
    rw [hkeys, getElem?_indexMethods_endlessFile]
    decide +kernel
  refine ⟨start, _, _, hsteps, fun limits => Machine.load_with hload limits, plain_link_oneRaw c,
    plain_link_endlessRaw c, fun i hi hindexes => ⟨Interpreter.respond_invoke ?_ false,
      Interpreter.respond_invoke ?_ false⟩⟩
  · simp only [Machine.findMethod?, Interpreter.machine, hi, hindexes, List.length_nil, hf,
      Option.bind_some, hmethods]
    rfl
  · simp only [Machine.findMethod?, Interpreter.machine, hi, hindexes, List.length_nil, hg,
      Option.bind_some, hmethods]
    rfl

namespace Method.Plain

variable {method : Method}

theorem enter_eq {operations : Array Operation} (h : method.Plain operations) :
    Frame.enter method [] = .ok { method, locals := #[] } := by
  rw [Frame.enter, h.maxLocals_eq]
  rfl

/-- Code that goes back to where it starts always goes on. -/
theorem goesOn (c : RunContext) :
    c.GoesOn fun s => s.frame.next = 0 ∧ s.frame.method.Plain #[.jump (.ok 0)] := by
  rintro s ⟨hnext, hs⟩
  refine ⟨_, ⟨.jump (.ok 0), ?_, rfl⟩, rfl, hs⟩
  rw [hs.operations_eq, hnext]
  rfl

/-- Code that returns 1 does so if the count of its two operations is not beyond the limit. -/
theorem callMethod_one (h : method.Plain #[.push 1, .returnValue]) {i : Interpreter}
    (hdepth : i.depth < i.maxDepth) (hfirst : ¬ i.maxSteps < i.steps + 1)
    (hsecond : ¬ i.maxSteps < i.steps + 1 + 1) :
    i.callMethod false method [] = some ({ i with steps := i.steps + 1 + 1 }, .ok 1, []) := by
  obtain ⟨start, hstart⟩ : ∃ s : RunState, s =
    { statics := i.statics, frame := { method, locals := #[] }, depth := i.depth + 1 } := ⟨_, rfl⟩
  obtain ⟨pushed, hpushed⟩ : ∃ s : RunState, s = { start with
    frame := { method, locals := #[], next := 1, stack := ({} : OperandStack).push 1 } } := ⟨_, rfl⟩
  -- the two operations, and the run through both
  have hpush : start.step i.methods i.maxDepth (.push 1) = .next pushed := by
    have hroom : ¬ method.maxStack ≤ ({} : OperandStack).height := by
      rw [h.maxStack_eq]
      exact Nat.not_succ_le_zero 0
    rw [hpushed, hstart]
    exact if_neg hroom
  have hreturn : pushed.step i.methods i.maxDepth .returnValue = .halt 1 i.statics := by
    rw [hpushed, hstart]
    rfl
  have hrun : i.run false i.steps [] start =
      some ⟨.ok 1, i.statics, i.steps + 1 + 1, i.depth + 1, []⟩ := by
    have hop : start.frame.method.operations[start.frame.next]? = some (.push 1) := by
      rw [hstart, h.operations_eq]
      rfl
    have hop' : pushed.frame.method.operations[pushed.frame.next]? = some .returnValue := by
      rw [hpushed, h.operations_eq]
      rfl
    rw [Interpreter.run_of_step hop hfirst, hpush]
    change i.run false (i.steps + 1) [] pushed = _
    rw [Interpreter.run_of_step hop' hsecond, hreturn, hpushed, hstart]
    rfl
  rw [Interpreter.callMethod, if_neg (Nat.not_le.2 hdepth), h.enter_eq]
  dsimp only
  rw [← hstart, hrun]
  rfl

/-- Code that goes back to where it starts never returns under the greatest limit. -/
theorem callMethod_endless (h : method.Plain #[.jump (.ok 0)]) {i : Interpreter}
    (hdepth : i.depth < i.maxDepth) (hlimit : i.maxSteps = Int64.maxValue) (tracing : Bool) :
    i.callMethod tracing method [] = none := by
  rw [Interpreter.callMethod, if_neg (Nat.not_le.2 hdepth), h.enter_eq]
  dsimp only
  rw [Interpreter.run_of_goesOn (goesOn _) hlimit ⟨rfl, h⟩]
  rfl

/-- Code that goes back to where it starts uses up what is left. -/
theorem exhausts (h : method.Plain #[.jump (.ok 0)]) (m : Machine) (tracing : Bool) :
    (m.callMethod tracing method []).2.1 = .error (.stepLimit m.limits.maxSteps) ∧
      (m.callMethod tracing method []).1.steps =
        m.steps + (m.limits.maxSteps - m.steps) + 1 := by
  unfold Machine.callMethod
  rw [h.enter_eq]
  exact RunContext.run_of_goesOn (goesOn _) ⟨rfl, h⟩ _ _ _

/-- One below the greatest limit the count wraps around: it is the greatest number when the second
method has used up what was left, and the first method returns once more. -/
theorem wraps {one : Method} (hone : one.Plain #[.push 1, .returnValue])
    (h : method.Plain #[.jump (.ok 0)]) {m : Machine} (hlimit : m.limits.maxSteps = 2 ^ 63 - 2)
    (hdepth : 0 < m.limits.maxDepth) (hsteps : m.steps = 0) : ∃ middle after trace,
      (Interpreter.ofMachine m).callMethod false method [] =
          some (middle, .error (.stepLimit (2 ^ 63 - 2)), trace) ∧
        middle.methods = m.methods ∧ middle.methodIndex = m.methodIndex ∧
        middle.callMethod false one [] = some (after, .ok 1, []) := by
  have hcall := Interpreter.callMethod_ofMachine hdepth (by omega) (by omega) false method []
  obtain ⟨hresult, hcount⟩ := h.exhausts m false
  have hkept := (m.counts_callMethod false method []).eq_with
  obtain ⟨⟨middle, result, trace⟩, hmiddle⟩ : ∃ r, r = m.callMethod false method [] := ⟨_, rfl⟩
  rw [← hmiddle] at hcall hresult hcount hkept
  dsimp only at hcall hresult hcount hkept
  -- the second method leaves the count one behind the limit, at the greatest number
  rw [hresult, hlimit] at hcall
  rw [hlimit, hsteps] at hcount
  have hlimits : (Interpreter.ofMachine middle).maxSteps = Int64.ofNat (2 ^ 63 - 2) := by
    rw [hkept, ← hlimit]
    rfl
  have hword : (Interpreter.ofMachine middle).steps = Int64.maxValue := by
    change Int64.ofNat middle.steps = _
    rw [hcount]
    decide
  -- one more than that is the smallest number, which is below the limit
  refine ⟨_, _, _, hcall, ?_, ?_, hone.callMethod_one ?_ ?_ ?_⟩
  · rw [hkept]
    rfl
  · rw [hkept]
    rfl
  · rw [hkept]
    exact hdepth
  · rw [hlimits, hword]
    decide
  · rw [hlimits, hword]
    decide

end Method.Plain

/-- **Room is needed.**  A limit that is not positive stands for the usual one, so operations run
under the limit -1.  Under the greatest limit the endless method does not return.  Under the limit
below it the count is the greatest number once the limit was hit; it wraps around, and the next
call returns a value. -/
theorem Interpreter.exceeds_limits :
    (∃ i after, load endlessFile (-1) 0 = .ok i ∧
      i.respond false (.invoke (Text.ofString "f") []) = some (after, .ok 1, []) ∧
        after.steps = 2) ∧
    (∃ i, load endlessFile Int64.maxValue 0 = .ok i ∧
      i.respond false (.invoke (Text.ofString "g") []) = none) ∧
    ∃ i after trace, load endlessFile (Int64.maxValue - 1) 0 = .ok i ∧
      i.respondAll false [.invoke (Text.ofString "g") [], .invoke (Text.ofString "f") []] =
        some (after, [(.error (.stepLimit (2 ^ 63 - 2)), trace), (.ok 1, [])]) := by
  obtain ⟨start, one, endless, hsteps, hloads, hone, hendless, hcalls⟩ := exists_load_endlessFile
  have hload (maxSteps maxDepth : Int64) : load endlessFile maxSteps maxDepth = .ok _ :=
    load_eq_ok.2 ⟨_, hloads _, rfl⟩
  refine ⟨⟨_, _, hload _ _, (hcalls _ rfl rfl).1.trans (hone.callMethod_one ?_ ?_ ?_), ?_⟩,
    ⟨_, hload _ _, (hcalls _ rfl rfl).2.trans (hendless.callMethod_endless ?_ ?_ false)⟩, ?_⟩
  -- under -1 the usual limit is in force, which two operations keep to
  · change 0 < (Limits.ofWords (-1) 0).maxDepth
    decide
  · change ¬ Int64.ofNat (Limits.ofWords (-1) 0).maxSteps < Int64.ofNat start.steps + 1
    rw [hsteps]
    decide
  · change ¬ Int64.ofNat (Limits.ofWords (-1) 0).maxSteps < Int64.ofNat start.steps + 1 + 1
    rw [hsteps]
    decide
  · change Int64.ofNat start.steps + 1 + 1 = 2
    rw [hsteps]
    decide
  · change 0 < (Limits.ofWords Int64.maxValue 0).maxDepth
    decide
  · rfl
  -- the count wraps around between the two calls
  obtain ⟨m, hm⟩ : ∃ m : Machine, m = { start with limits := .ofWords (Int64.maxValue - 1) 0 } :=
    ⟨_, rfl⟩
  have hlimit : m.limits.maxSteps = 2 ^ 63 - 2 := by
    rw [hm]
    rfl
  have hdepth : 0 < m.limits.maxDepth := by
    rw [hm]
    exact Limits.ofNumbers_pos _ _
  have hcount : m.steps = 0 := by rw [hm, ← hsteps]
  obtain ⟨middle, after, trace, hg, hmethods, hindex, hf⟩ :=
    hone.wraps hendless hlimit hdepth hcount
  rw [hm] at hg hmethods hindex
  rw [← (hcalls _ rfl rfl).2] at hg
  rw [← (hcalls middle hmethods hindex).1] at hf
  refine ⟨_, after, trace, hload _ _, ?_⟩
  rw [respondAll, hg, Option.bind_some]
  dsimp only
  rw [respondAll, hf]
  rfl

end Classwright
