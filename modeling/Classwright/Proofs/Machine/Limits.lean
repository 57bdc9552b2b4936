import Classwright.Proofs.Machine.Bounded

/-!
# Larger limits

Limits only cut runs short.  What an activity comes to without hitting a limit, it also comes to
under larger limits (`RunContext.Performs.mono`), so a call that does not hit a limit is answered in
the same way by a machine with larger ones (`Machine.limits_only_cut`).
-/

namespace Classwright

/-- Whether an error says that a limit was hit. -/
def MachineError.isLimit : MachineError → Bool
  | stepLimit _ | callDepth _ => true
  | _ => false

/-- A result that is not that a limit was hit. -/
def KeepsLimits (r : Except MachineError Int32) : Prop :=
  ∀ e, r = .error e → e.isLimit = false

namespace RunContext

variable {c c' : RunContext} {st st' : CallState} {f : Frame} {effect : Effect}

theorem Asks.mono (h : c.Asks st f effect) (hmethods : c'.methods = c.methods)
    (hsteps : c.maxSteps ≤ c'.maxSteps) : c'.Asks st f effect := by
  obtain ⟨op, hop, hlt, heffect⟩ := h
  exact ⟨op, hop, Nat.lt_of_lt_of_le hlt hsteps, hmethods ▸ heffect⟩

/-- **Larger limits change nothing** for an activity that does not hit one, at any depth. -/
theorem Performs.mono (hmethods : c'.methods = c.methods) (hsteps : c.maxSteps ≤ c'.maxSteps)
    (hdepth : c.maxDepth ≤ c'.maxDepth) {a : Activity} {r : Except MachineError Int32}
    (h : c.Performs st a r st') (hr : KeepsLimits r) : c'.Performs st a r st' := by
  induction h with
  | tooDeep | exhausted => exact nomatch hr _ rfl
  | refused hlt he => exact .refused (Nat.lt_of_lt_of_le hlt hdepth) he
  | entered hlt hf _ ih => exact .entered (Nat.lt_of_lt_of_le hlt hdepth) hf (ih hr)
  | fallsOff hend => exact .fallsOff hend
  | fails hask => exact .fails (hask.mono hmethods hsteps)
  | leaves hask => exact .leaves (hask.mono hmethods hsteps)
  | moves hask _ ih => exact .moves (hask.mono hmethods hsteps) (ih hr)
  | callFails hask _ ih => exact .callFails (hask.mono hmethods hsteps) (ih hr)
  | callOverflows hask _ hw ih =>
    -- the call itself returned a value, so it hit no limit
    exact .callOverflows (hask.mono hmethods hsteps) (ih nofun) hw
  | callReturns hask _ hw _ ih ih' =>
    exact .callReturns (hask.mono hmethods hsteps) (ih nofun) hw (ih' hr)

end RunContext

namespace Machine

/-- `m` has loaded the class file `f` with given limits, whatever its fields hold now and however
many operations it has counted. -/
def HasLoaded (f : ClassFile) (limits : Limits) (m : Machine) : Prop :=
  ∃ start, load f limits = .ok start ∧ m = { start with statics := m.statics, steps := m.steps }

theorem HasLoaded.limits_eq {f : ClassFile} {limits : Limits} {m : Machine}
    (h : m.HasLoaded f limits) : m.limits = limits := by
  obtain ⟨start, hload, hm⟩ := h
  obtain ⟨className, fields, raws, -, -, -, rfl⟩ := load_eq_ok.1 hload
  rw [hm]

/-- Two machines with the same class file, values of the fields and count of operations differ in
their limits only. -/
theorem HasLoaded.eq_with {f : ClassFile} {limits limits' : Limits} {m m' : Machine}
    (h : m.HasLoaded f limits) (h' : m'.HasLoaded f limits') (hstatics : m'.statics = m.statics)
    (hsteps : m'.steps = m.steps) : m' = { m with limits := limits' } := by
  obtain ⟨start, hload, hm⟩ := h
  obtain ⟨start', hload', hm'⟩ := h'
  obtain rfl := Except.ok.inj (hload'.symm.trans (load_with hload limits'))
  rw [hm', hm, hstatics, hsteps]

theorem performs_mono {m : Machine} {limits : Limits}
    (hsteps : m.limits.maxSteps ≤ limits.maxSteps) (hdepth : m.limits.maxDepth ≤ limits.maxDepth)
    {tracing : Bool} {st st' : CallState} {activity : Activity} {r : Except MachineError Int32}
    (h : (m.runContext tracing).Performs st activity r st') (hr : KeepsLimits r) :
    (({ m with limits } : Machine).runContext tracing).Performs st activity r st' := by
  have hmethods : (({ m with limits } : Machine).runContext tracing).methods =
      (m.runContext tracing).methods := rfl
  exact h.mono hmethods hsteps hdepth hr

/-- A call that does not hit a limit is answered in the same way under larger ones. -/
theorem respond_mono {m : Machine} {limits : Limits} (hpos : 0 < m.limits.maxDepth)
    (hsteps : m.limits.maxSteps ≤ limits.maxSteps) (hdepth : m.limits.maxDepth ≤ limits.maxDepth)
    (tracing : Bool) {request : Request} (hcall : request.isCall = true)
    (hr : KeepsLimits (m.respond tracing request).2.1) :
    (({ m with limits } : Machine).respond tracing request).2.1 =
        (m.respond tracing request).2.1 ∧
      (({ m with limits } : Machine).respond tracing request).1.rest =
        (m.respond tracing request).1.rest := by
  have hsame : ({ m with limits } : Machine).activity? request = m.activity? request := by
    cases request <;> rfl
  cases hactivity : m.activity? request with
  | none =>
    rw [respond_of_missing hcall hactivity, respond_of_missing hcall (hsame.trans hactivity)]
    exact ⟨rfl, rfl⟩
  | some activity =>
    obtain ⟨method, -, arguments, rfl, hrespond⟩ := respond_of_activity hactivity tracing
    obtain ⟨method', -, arguments', heq, hrespond'⟩ :=
      respond_of_activity (hsame.trans hactivity) tracing
    obtain ⟨rfl, rfl⟩ := Activity.call.inj heq
    rw [hrespond] at hr ⊢
    rw [hrespond']
    have hfirst := performs_mono hsteps hdepth (performs_callMethod hpos tracing method arguments) hr
    have hsecond := performs_callMethod (m := { m with limits }) (Nat.lt_of_lt_of_le hpos hdepth)
      tracing method arguments
    exact hfirst.unique hsecond

end Machine

/-- **Limits only cut runs short**: take two machines with the same class file, values of the fields
and count of operations, the second with limits that are not smaller.  Whatever call does not hit a
limit on the first is answered by the second with the same value or error and leaves the same values
of the fields and the same count.  The same holds of calls inside others, at any depth. -/
theorem Machine.limits_only_cut {f : ClassFile} {maxSteps maxDepth maxSteps' maxDepth' : Int}
    (hsteps : (Limits.ofNumbers maxSteps maxDepth).maxSteps ≤
      (Limits.ofNumbers maxSteps' maxDepth').maxSteps)
    (hdepth : (Limits.ofNumbers maxSteps maxDepth).maxDepth ≤
      (Limits.ofNumbers maxSteps' maxDepth').maxDepth)
    {m m' : Machine} (hm : m.HasLoaded f (.ofNumbers maxSteps maxDepth))
    (hm' : m'.HasLoaded f (.ofNumbers maxSteps' maxDepth')) (hstatics : m'.statics = m.statics)
    (hcount : m'.steps = m.steps) (tracing : Bool) :
    (∀ request, request.isCall = true → KeepsLimits (m.respond tracing request).2.1 →
      (m'.respond tracing request).2.1 = (m.respond tracing request).2.1 ∧
        (m'.respond tracing request).1.statics = (m.respond tracing request).1.statics ∧
        (m'.respond tracing request).1.steps = (m.respond tracing request).1.steps) ∧
      ∀ st activity r st', (m.runContext tracing).Performs st activity r st' → KeepsLimits r →
        (m'.runContext tracing).Performs st activity r st' := by
  rw [← hm.limits_eq] at hsteps hdepth
  have hpos : 0 < m.limits.maxDepth := hm.limits_eq ▸ Limits.ofNumbers_pos maxSteps maxDepth
  obtain rfl := hm.eq_with hm' hstatics hcount
  refine ⟨fun request hcall hr => ?_, fun st activity r st' => performs_mono hsteps hdepth⟩
  obtain ⟨hanswer, hrest⟩ := respond_mono hpos hsteps hdepth tracing hcall hr
  exact ⟨hanswer, congrArg CallState.statics hrest, congrArg CallState.steps hrest⟩

/-- The countdown from 0 returns at once, under any limits that leave room for its operations. -/
theorem Machine.exists_load_countdown_zero : ∃ start : Machine,
    load countdownFile {} = .ok start ∧ ∀ limits : Limits, 5 ≤ limits.maxSteps →
      (({ start with limits } : Machine).respond false
        (.invoke (Text.ofString "f") [0])).2.1 = .ok 70000 := by
  obtain ⟨raw, hraw⟩ : ∃ raw : RawMethod, raw = ⟨Text.ofString "f", Text.ofString "(I)I", ⟨1, true⟩,
    ⟨2, 1, countdownCode.encode⟩, countdownCode⟩ := ⟨_, rfl⟩
  have hload : loadMethod countdownFile countdownMethod = .ok raw := by
    rw [hraw]
    exact loadMethod_eq_ok rfl rfl methodCode_countdownMethod decode_countdownCode
  have hraws : countdownFile.methods.mapM (loadMethod countdownFile) = .ok [raw] :=
    mapM_eq_ok.2 (.cons hload .nil)
  refine ⟨_, load_eq_ok.2 ⟨_, _, _, rfl, rfl, hraws, rfl⟩, fun limits hlimits => ?_⟩
  have hfound : (indexMethods [raw])[Text.ofString "f" ++
      MethodType.descriptor ⟨1, true⟩]? = some 0 := by
    rw [hraw]
    exact Std.HashMap.getElem?_insert_self
  obtain ⟨left, hleft⟩ : ∃ left, limits.maxSteps = left + 5 := ⟨limits.maxSteps - 5, by omega⟩
  simp only [respond, invoke, findMethod?, List.length_cons, List.length_nil, Nat.zero_add, hfound,
    Option.bind_some, List.map_cons, List.map_nil, callMethod, hleft]
  rw [hraw]
  rfl

theorem Machine.limits_only_cut_countdown :
    ∃ m m' : Machine, m.HasLoaded countdownFile (.ofNumbers 20 3) ∧
      m'.HasLoaded countdownFile (.ofNumbers 50 0) ∧
      (m.respond false (.invoke (Text.ofString "f") [0])).2.1 = .ok 70000 ∧
      (m'.respond false (.invoke (Text.ofString "f") [0])).2.1 = .ok 70000 := by
  obtain ⟨start, hstart, hanswers⟩ := exists_load_countdown_zero
  have hm : HasLoaded countdownFile (.ofNumbers 20 3) { start with limits := .ofNumbers 20 3 } :=
    ⟨_, load_with hstart _, rfl⟩
  have hm' : HasLoaded countdownFile (.ofNumbers 50 0) { start with limits := .ofNumbers 50 0 } :=
    ⟨_, load_with hstart _, rfl⟩
  have hanswer := hanswers (.ofNumbers 20 3) (by decide)
  obtain ⟨hcalls, -⟩ := limits_only_cut (by decide) (by decide) hm hm' rfl rfl false
  obtain ⟨hsame, -⟩ := hcalls (.invoke (Text.ofString "f") [0]) rfl fun e he => by
    rw [hanswer] at he
    cases he
  exact ⟨_, _, hm, hm', hanswer, hsame.trans hanswer⟩

end Classwright
