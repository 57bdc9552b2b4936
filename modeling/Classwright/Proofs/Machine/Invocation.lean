import Classwright.Proofs.Emit.Simulation

/-!
# Calling procedures from outside

A call of a declared procedure on a loaded class does what the evaluator says about the procedure
(`Machine.invoke_agrees`), unless it hits one of the limits of the machine.
-/

namespace Classwright

namespace Machine

variable {m : Machine} {p : Program} {pool : PoolBuilder} {f : ClassFile}

/-- The static fields have given values. -/
def Holds (m : Machine) (fields : FieldValues) : Prop :=
  ∀ name value, m.static? name = some value → fields name = value

/-! ### Fields -/

theorem Represents.static?_eq (hm : m.Represents p pool f) {name : Text} {n : Nat}
    (hn : p.fieldNames[n]? = some name) : m.static? name = m.statics[n]? := by
  rw [static?, (hm.fieldIndex_iff name n).2 hn]
  rfl

/-- The values of the fields are kept in the order of their declarations. -/
theorem Represents.statics_eq (hm : m.Represents p pool f) {fields : FieldValues}
    (h : m.Holds fields) : m.statics = p.staticsOf fields := by
  refine Array.ext (by simp [Program.staticsOf, hm.statics_size]) fun n hn hn' => ?_
  have hlt : n < p.fieldNames.length := hm.statics_size ▸ hn
  have hvalue := hm.static?_eq (List.getElem?_eq_getElem hlt)
  rw [Array.getElem?_eq_getElem hn] at hvalue
  simp [Program.staticsOf, h _ _ hvalue]

theorem Represents.holds (hm : m.Represents p pool f) {fields : FieldValues}
    (h : m.statics = p.staticsOf fields) : m.Holds fields := by
  intro name value hvalue
  obtain ⟨n, hn, hget⟩ := Option.bind_eq_some_iff.1 hvalue
  rw [hm.fieldIndex_iff] at hn
  rw [h, Program.staticsOf, List.getElem?_toArray, List.getElem?_map, hn] at hget
  exact Option.some.inj hget

/-- A machine represents the program whatever the values of its fields, its limits and the number of
operations it has counted. -/
theorem Represents.with (hm : m.Represents p pool f) {statics : Array Int32}
    (h : statics.size = m.statics.size) (limits : Limits) (steps : Nat) :
    ({ m with statics, limits, steps } : Machine).Represents p pool f :=
  ⟨hm.emitted, hm.methodIndex_iff, hm.fieldIndex_iff, h.trans hm.statics_size, hm.procedure,
    hm.constructor⟩

/-! ### Methods -/

/-- A procedure is found by its name and the number of its parameters. -/
theorem Represents.findMethod?_eq (hp : p.WellFormed) (hm : m.Represents p pool f) {id : DeclId}
    {d : Declaration} (hd : p.decl? id = some d) (hk : d.kind = .procedure) {n : Nat}
    (hn : p.procedureDecls[n]? = some d) : m.findMethod? d.name d.arity = some n := by
  have hkey : p.methodKeys[n]? = some d.key := by
    have hlt := (List.getElem?_eq_some_iff.1 hn).1
    rw [Program.methodKeys, List.getElem?_append_left (by simpa using hlt), List.getElem?_map, hn]
    rfl
  have hfound := (hm.methodIndex_iff _ _).2 hkey
  rw [Declaration.key, Declaration.descriptor_of_procedure hk] at hfound
  cases htype : d.type with
  | int =>
    rw [htype] at hfound
    simp only [findMethod?, MethodType.descriptor, if_true, hfound]
  | void =>
    have hnone : m.methodIndex[d.name ++ MethodType.descriptor ⟨d.arity, true⟩]? = none := by
      rw [Option.eq_none_iff_forall_not_mem]
      intro k hk'
      have hmem := List.mem_of_getElem? ((hm.methodIndex_iff _ _).1 hk')
      rw [Program.methodKeys, List.mem_append, List.mem_map, List.mem_singleton] at hmem
      rcases hmem with ⟨e, he, hkey⟩ | hinit
      · obtain ⟨j, hj, hje⟩ := hp.mem_procedureDecls.1 he
        obtain ⟨hname, harity, hint⟩ := hp.key_inj hj hje hkey
        obtain rfl := hp.procedure_unique hj hd hje hk hname harity
        obtain rfl := Option.some.inj (hj.symm.trans hd)
        rw [htype] at hint
        cases hint
      · exact (hp.decl_name id d hd).append_ne_init _ hinit
    rw [htype] at hfound
    simp only [findMethod?, hnone]
    exact hfound

/-- What a call from outside runs in. -/
def runContext (m : Machine) (tracing : Bool) : RunContext :=
  { methods := m.methods, maxSteps := m.limits.maxSteps, maxDepth := m.limits.maxDepth, tracing }

/-- The call of a method from outside. -/
def outerCall (m : Machine) (p : Program) (f : ClassFile) (raw : RawMethod) : Activation :=
  { context := m.linkContext p f, raw, callers := [], depth := 1 }

/-- A call from outside is a run that starts with the call of the procedure. -/
theorem Represents.invoke_eq (hp : p.WellFormed) (hm : m.Represents p pool f) {id : DeclId}
    {d : Declaration} (hd : p.decl? id = some d) (hk : d.kind = .procedure) {n : Nat}
    (hn : p.procedureDecls[n]? = some d) {raw : RawMethod} (hraw : MethodFor p pool d raw)
    (hmethod : m.methods[n]? = some ((m.linkContext p f).link raw)) {arguments : List Int32}
    (harguments : arguments.length = d.arity) {fields : FieldValues} (hfields : m.Holds fields)
    (tracing : Bool) :
    m.invoke d.name arguments tracing =
      let r := (m.runContext tracing).run (m.limits.maxSteps - m.steps) m.steps []
        ((m.outerCall p f raw).behind p d fields (Program.startLocals d arguments) [] [])
      ({ m with statics := r.statics, steps := r.steps }, r.result, r.trace.reverse) := by
  obtain ⟨hle, hslots⟩ := Activation.slotValues_startLocals hp hd hk harguments
  have hfind : (m.findMethod? d.name arguments.length).bind (fun n => m.methods[n]?) =
      some ((m.linkContext p f).link raw) := by
    rw [harguments, hm.findMethod?_eq hp hd hk hn]
    exact hmethod
  have henter : Frame.enter ((m.linkContext p f).link raw) arguments = .ok {
      method := (m.linkContext p f).link raw
      locals := arguments.toArray ++
        Array.replicate (raw.body.maxLocals.toNat - arguments.length) 0 } :=
    if_neg (Nat.not_lt.2 (le_of_le_of_eq hle hraw.maxLocals_eq.symm))
  rw [hraw.maxLocals_eq, hslots] at henter
  simp only [invoke, hfind, callMethod, henter, hm.statics_eq hfields]
  rfl

/-- What a call comes to agrees with an outcome. -/
def Agrees (answer : Machine × Except MachineError Int32 × List String) : EvalOutcome Int32 → Prop
  | .unfinished => False
  | .failed fields => answer.2.1 = .error .divisionByZero ∧ answer.1.Holds fields
  | .done value fields => answer.2.1 = .ok value ∧ answer.1.Holds fields

theorem Represents.agrees (hm : m.Represents p pool f) {c : RunContext} {fuel steps : Nat}
    {trace : List String} {s : RunState} (hs : s.statics.size = m.statics.size)
    {r : EvalOutcome Int32} (h : RunContext.Agrees p.staticsOf (c.run fuel steps trace s) r)
    (lines : List String) :
    Agrees ({ m with
      statics := (c.run fuel steps trace s).statics
      steps := (c.run fuel steps trace s).steps }, (c.run fuel steps trace s).result, lines) r := by
  have hafter := hm.with ((c.size_run fuel steps trace s).trans hs) m.limits
    (c.run fuel steps trace s).steps
  cases r with
  | unfinished => exact h
  | failed fields => exact ⟨h.1, hafter.holds h.2⟩
  | done value fields => exact ⟨h.1, hafter.holds h.2⟩

/-- The run of a call from outside follows the evaluation of the procedure. -/
theorem Represents.follows (hp : p.WellFormed) (hm : m.Represents p pool f) {id : DeclId}
    {d : Declaration} (hd : p.decl? id = some d) (hk : d.kind = .procedure) {raw : RawMethod}
    (hraw : MethodFor p pool d raw) {c : RunContext} (hc : c.methods = m.methods)
    {arguments : List Int32} (harguments : arguments.length = d.arity) (fields : FieldValues)
    (fuel : Nat) :
    c.Follows p.staticsOf (1 + fuel) fuel
      ((m.outerCall p f raw).behind p d fields (Program.startLocals d arguments) [] [])
      (p.call fuel id arguments fields)
      (fun value fields t => c.Steps t (.halt value (p.staticsOf fields))) :=
  callsFollow c m p pool f (1 + fuel) fuel (m.outerCall p f raw) id d arguments fields hd hk
    harguments ⟨hp, hm, hc, rfl, hraw⟩ rfl

/-- A call of a procedure hits a limit or does what the evaluator says. -/
theorem Represents.invoke_agrees (hp : p.WellFormed) (hm : m.Represents p pool f) {id : DeclId}
    {d : Declaration} (hd : p.decl? id = some d) (hk : d.kind = .procedure)
    {arguments : List Int32} (harguments : arguments.length = d.arity) {fields : FieldValues}
    (hfields : m.Holds fields) (tracing : Bool) :
    (m.invoke d.name arguments tracing).2.1 = .error (.stepLimit m.limits.maxSteps) ∨
      (∃ depth, (m.invoke d.name arguments tracing).2.1 = .error (.callDepth depth)) ∨
      ∃ r, p.Ends id arguments fields r ∧ Agrees (m.invoke d.name arguments tracing) r := by
  obtain ⟨n, hn⟩ := List.mem_iff_getElem?.1 (hp.mem_procedureDecls.2 ⟨id, hd, hk⟩)
  obtain ⟨raw, hraw, hmethod⟩ := hm.procedure n d hn
  rw [hm.invoke_eq hp hd hk hn hraw hmethod harguments hfields]
  have hfollows := hm.follows (c := m.runContext tracing) hp hd hk hraw rfl harguments fields
    (m.limits.maxSteps - m.steps + 1)
  have hsize : (p.staticsOf fields).size = m.statics.size := by rw [hm.statics_eq hfields]
  rcases RunContext.run_of_follows hfollows m.steps [] with hlimit | hdeep | hagrees
  · exact Or.inl hlimit
  · exact Or.inr (Or.inl hdeep)
  · refine Or.inr (Or.inr ⟨_, ⟨?_, _, rfl⟩, hm.agrees hsize hagrees _⟩)
    intro hunfinished
    rw [hunfinished] at hagrees
    exact hagrees

/-- There are limits under which a call does what the evaluator says. -/
theorem Represents.exists_limits (hp : p.WellFormed) (hm : m.Represents p pool f)
    (hsteps : m.steps = 0) {id : DeclId} {d : Declaration} (hd : p.decl? id = some d)
    (hk : d.kind = .procedure) {arguments : List Int32} (harguments : arguments.length = d.arity)
    {fields : FieldValues} (hfields : m.Holds fields) {r : EvalOutcome Int32}
    (hr : p.Ends id arguments fields r) :
    ∃ limits : Limits, 0 < limits.maxSteps ∧ 0 < limits.maxDepth ∧ ∀ tracing,
      Agrees (({ m with limits } : Machine).invoke d.name arguments tracing) r := by
  obtain ⟨hfinished, fuel, rfl⟩ := hr
  obtain ⟨n, hn⟩ := List.mem_iff_getElem?.1 (hp.mem_procedureDecls.2 ⟨id, hd, hk⟩)
  obtain ⟨raw, hraw, hmethod⟩ := hm.procedure n d hn
  have hfollows := hm.follows (c := ⟨m.methods, 0, 1 + fuel, false⟩) hp hd hk hraw rfl harguments
    fields fuel
  obtain ⟨k, hrun⟩ := RunContext.exists_run_of_follows hfinished (Nat.le_refl _) hfollows
  have hsize : (p.staticsOf fields).size = m.statics.size := by rw [hm.statics_eq hfields]
  refine ⟨⟨k + 1, 1 + fuel⟩, Nat.succ_pos k, Nat.add_pos_left Nat.one_pos fuel, fun tracing => ?_⟩
  have hsame : m.statics.size = m.statics.size := rfl
  have hm' := hm.with hsame ⟨k + 1, 1 + fuel⟩ m.steps
  rw [hm'.invoke_eq hp hd hk hn hraw hmethod harguments hfields]
  have hagrees := hrun (k + 1) tracing 1 m.steps []
  rw [hsteps] at hagrees ⊢
  exact hm'.agrees hsize hagrees _

end Machine

end Classwright
