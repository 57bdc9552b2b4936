import Classwright.Proofs.Machine.Invocation
import Classwright.Proofs.Program.Scopes
import Classwright.Proofs.Tree.Constants
import Mathlib

/-!
# Arithmetic before and during a run

There are two ways to the value of a tree of numbers and operators: the compiler computes it for an
initializer (`Node.constantValue`), and a machine runs the code that is emitted for it.  Both come
to the same value, or both divide a number by zero (`Program.returns_constantValue`).

Such code only branches forward, so a run of it takes at most as many steps as it has instructions
(`ExpressionCode.yields`).  A method is not long enough to reach the usual limit of steps.
-/

namespace Classwright

/-! ### Code of numbers and operators -/

namespace Node

variable {e : Node}

theorem IsArithmetic.yieldsValue (h : e.IsArithmetic) (p : Program) : p.yieldsValue e = true := by
  cases h with
  | literal => rfl
  | @binary op _ _ hop => cases op <;> rfl

/-- What is emitted for numbers and operators follows the rules; it needs no slots. -/
theorem IsArithmetic.expressionCode (h : e.IsArithmetic) {c : EmitContext}
    {rest : Except EmitError Code} {code : Code} (hcode : c.expression e rest = .ok code) :
    ∃ ce r, rest = .ok r ∧ code = ce ++ r ∧
      ExpressionCode { program := c.program, pool := c.pool } e ce := by
  induction h generalizing rest code with
  | literal =>
    rw [EmitContext.expression] at hcode
    obtain ⟨i, r, hi, hr, rfl⟩ := EmitContext.prepend_eq_ok hcode
    exact ⟨[i], r, hr, rfl, .literal hi⟩
  | binary hop hl hr place ihl ihr =>
    rw [EmitContext.expression] at hcode
    obtain ⟨cl, r₁, hr₁, rfl, hcl⟩ := ihl hcode
    obtain ⟨cr, r₂, hr₂, rfl, hcr⟩ := ihr hr₁
    obtain ⟨oc, r, hoc, hrest, rfl⟩ := EmitContext.operatorOnto_eq_ok hr₂
    exact ⟨_, r, hrest, by simp only [List.append_assoc],
      .binary hoc hcl (hl.yieldsValue _) hcr (hr.yieldsValue _)⟩

end Node

/-- The code of a tree of numbers and operators computes its value in at most as many steps as it
has instructions. -/
theorem ExpressionCode.yields {a : Activation} {c : RunContext} {S : Text → Prop} {b : EmitContext}
    (hpool : b.pool.Valid S) (hfile : a.context.file.pool = b.pool.entries) {e : Node}
    (he : e.IsArithmetic) {code : Code} (h : ExpressionCode b e code) {pre post : Code}
    (hcode : a.raw.code = pre ++ (code ++ post)) (hpost : post ≠ []) {stack : List Int32}
    (hstack : stack.length + b.program.exprStack e ≤ a.method.maxStack)
    (values locals : Array Int32) :
    c.Yields code.length values (a.state values locals pre.length stack) e.constant?
      (fun v => a.state values locals (pre ++ code).length (v :: stack)) := by
  induction he generalizing code pre post stack with
  | literal v place =>
    cases h with
    | literal hi =>
      have hop := Activation.operation_of_valid_push hpool hfile hi pre
      exact ⟨1, _, Nat.le_refl 1, .single (Activation.steps_push hcode hop hstack), rfl⟩
  | @binary op left right hop _ _ place ihl ihr =>
    cases h with
    | @binary _ _ _ _ leftCode rightCode opCode hop' hl _ hr _ =>
      rw [Program.exprStack] at hstack
      have hleft : a.raw.code = pre ++ (leftCode ++ (rightCode ++ (opCode ++ post))) := by
        rw [hcode]; simp
      have hright : a.raw.code = (pre ++ leftCode) ++ (rightCode ++ (opCode ++ post)) := by
        rw [hcode]; simp
      have hlast : a.raw.code = (pre ++ leftCode ++ rightCode) ++ (opCode ++ post) := by
        rw [hcode]; simp
      have hend : pre ++ (leftCode ++ (rightCode ++ opCode)) =
          pre ++ leftCode ++ rightCode ++ opCode := by
        simp
      rw [Node.constant?_binary hop, List.length_append, List.length_append, hend]
      -- the left value is below the right one when the operator takes both
      apply (ihl hl hleft (by simp [hpost]) (by omega)).andThen
      intro x
      apply (ihr hr hright (by simp [hpost]) (by rw [List.length_cons]; omega)).andThen
      intro y
      exact Activation.yields_operatorCode? hop' hlast hpost (by omega) x y

/-! ### A procedure that answers the value -/

namespace EmitContext

variable {p : Program} {pool : PoolBuilder} {d : Declaration} {e : Node} {spot place : Position}

/-- The method of a procedure that answers the value of a tree of numbers and operators. -/
theorem procedureCode_exit (hbody : d.body = .block [.exit e spot] place) (he : e.IsArithmetic)
    {m : MethodCode} (h : procedureCode p pool d = .ok m) :
    ∃ code, ExpressionCode { program := p, pool } e code ∧
      Code.size (code ++ [{ op := .ireturn }]) ≤ 0xFFFF ∧
      m.maxStack.toNat = p.exprStack e ∧ m.code = Code.encode (code ++ [{ op := .ireturn }]) := by
  have hcompletes : d.body.completes = false := by
    rw [hbody]
    rfl
  have hpresent : e ≠ .absent := by
    intro habsent
    rw [habsent] at he
    cases he
  have hstack : p.stmtStack d.body = p.exprStack e := by
    rw [hbody, Program.stmtStack, Program.stmtsStack, Program.stmtStack, Program.stmtsStack,
      Nat.max_zero]
  simp only [procedureCode, bind_eq_ok] at h
  obtain ⟨body, hstatement, h⟩ := h
  simp only [hbody, statement, statements, statement_exit hpresent, bind_eq_ok] at hstatement
  obtain ⟨code, hcode, hstatement⟩ := hstatement
  split at hstatement
  · simp at hstatement
  · obtain ⟨ce, r, hr, rfl, hce⟩ := he.expressionCode hcode
    obtain rfl := Except.ok.inj hr
    simp only [ok_bind, pure_eq_ok, List.append_nil] at hstatement
    subst hstatement
    rw [tail_eq_nil hcompletes, List.append_nil, hstack, hcompletes] at h
    split at h
    · simp at h
    · rename_i hsize
      obtain rfl := pure_eq_ok.1 h
      have hle : Code.size (ce ++ [{ op := .ireturn }]) ≤ 0xFFFF := Nat.le_of_not_lt hsize
      refine ⟨ce, hce, hle, ?_, rfl⟩
      -- the stack is not higher than the code is long
      have hheight := hce.exprStack_le
      have hlength := Code.length_le_size (ce ++ [{ op := .ireturn }])
      change p.exprStack e ≤ ce.length at hheight
      rw [List.length_append] at hlength
      simp only [Bool.false_and, Bool.false_eq_true, if_false, Nat.max_zero]
      exact UInt16.toNat_ofNat_of_lt' (Nat.lt_succ_of_le (by omega))

end EmitContext

/-- `raw` is the decoded method of a procedure `d` that answers the value of `e`. -/
structure AnswerFor (p : Program) (pool : PoolBuilder) (d : Declaration) (e : Node)
    (raw : RawMethod) : Prop where
  /-- It has the name of the procedure. -/
  name_eq : raw.name = d.name
  /-- It has the descriptor of the procedure. -/
  descriptor_eq : raw.descriptor = d.descriptor
  /-- It takes what the procedure does and returns a number. -/
  type_eq : raw.type = ⟨d.arity, true⟩
  /-- Its code is that of the tree with the return behind it, -/
  code : ∃ code, ExpressionCode { program := p, pool } e code ∧
    raw.code = code ++ [{ op := .ireturn }]
  /-- which is not too long. -/
  length_le : raw.code.length ≤ 0xFFFF
  /-- Its stack is as high as the tree needs. -/
  maxStack_eq : raw.body.maxStack.toNat = p.exprStack e

variable {p : Program} {pool : PoolBuilder} {f : ClassFile} {d : Declaration} {e : Node}

/-- Such a method can be decoded. -/
theorem Machine.loadMethod_of_exit (hk : d.kind = .procedure) (htype : d.type = .int)
    {spot place : Position} (hbody : d.body = .block [.exit e spot] place) (he : e.IsArithmetic)
    {body : MethodCode} (hbodyCode : EmitContext.procedureCode p pool d = .ok body) {m : Member}
    (hm : MethodOf f.pool d.name d.descriptor body m) :
    ∃ raw, loadMethod f m = .ok raw ∧ AnswerFor p pool d e raw := by
  obtain ⟨code, hcode, hsize, hstack, hbytes⟩ :=
    EmitContext.procedureCode_exit hbody he hbodyCode
  have hdescriptor : MethodType.ofDescriptor d.descriptor = .ok ⟨d.arity, true⟩ := by
    rw [Declaration.descriptor_of_procedure hk, MethodType.ofDescriptor_procedureDescriptor, htype]
    rfl
  have hemits : ∀ i ∈ code ++ [{ op := .ireturn }],
      EmitContext.Emits { program := p, pool } i :=
    List.forall_mem_append.2 ⟨hcode.emits, List.forall_mem_singleton.2 (.plain (by simp))⟩
  have hencodable : ∀ i ∈ code ++ [{ op := .ireturn }], i.Encodable := fun i hi =>
    (hemits i hi).encodable (EmitContext.slotsBelow_init p pool) (Nat.zero_le _)
  exact ⟨_, loadMethod_of_methodOf hm hdescriptor hencodable hsize hbytes, rfl, rfl, rfl,
    ⟨code, hcode, rfl⟩, Nat.le_trans (Code.length_le_size _) hsize, hstack⟩

/-- A run of such a method comes to the value, or it divides a number by zero. -/
theorem AnswerFor.result_run {a : Activation} {c : RunContext} {S : Text → Prop}
    (h : AnswerFor p pool d e a.raw) (he : e.IsArithmetic) (hpool : pool.Valid S)
    (hfile : a.context.file.pool = pool.entries) (hcallers : a.callers = []) {fuel : Nat}
    (hfuel : a.raw.code.length ≤ fuel) (steps : Nat) (trace : List String)
    (values locals : Array Int32) :
    (c.run fuel steps trace (a.state values locals 0 [])).result =
      match e.constant? with
      | some v => .ok v
      | none => .error .divisionByZero := by
  obtain ⟨code, hcode, hraw⟩ := h.code
  have hstack : ([] : List Int32).length + p.exprStack e ≤ a.method.maxStack :=
    Nat.le_of_eq ((Nat.zero_add _).trans h.maxStack_eq.symm)
  have hyields : c.Yields code.length values (a.state values locals 0 []) e.constant?
      (fun v => a.state values locals code.length [v]) :=
    hcode.yields hpool hfile he (show a.raw.code = [] ++ (code ++ _) from hraw)
      (List.cons_ne_nil _ _) hstack values locals
  obtain ⟨n, t, hn, hleads, ht⟩ := hyields
  rw [hraw, List.length_append, List.length_singleton] at hfuel
  -- behind the steps to the value there is fuel for the return
  obtain ⟨left, rfl⟩ : ∃ left, fuel = n + (left + 1) := ⟨fuel - n - 1, by omega⟩
  obtain ⟨trace', hrun⟩ := RunContext.run_of_leads hleads (left + 1) steps trace
  rw [hrun]
  cases hvalue : e.constant? with
  | none =>
    rw [hvalue] at ht
    exact (RunContext.run_of_fails ht _ _ _).1
  | some v =>
    rw [hvalue] at ht
    have hreturn : a.operation code { op := .ireturn } = .returnValue := by
      simp [Activation.operation, LinkContext.operation, h.type_eq]
    have hhalt : c.Steps (a.state values locals code.length [v]) (.halt v values) :=
      Activation.answer_of_nil hcallers ▸ Activation.steps_returnValue hraw hreturn
    obtain rfl : t = a.state values locals code.length [v] := ht
    exact (RunContext.run_of_halts hhalt _ _ _).1

namespace Machine

/-- A class file whose only procedure answers the value of `e` can be loaded, and the procedure is
the first of its methods. -/
theorem exists_load_exit (hp : p.Tidy) (hf : p.Emitted pool f) {id : DeclId}
    (hprocedures : p.procedures = [id]) (hd : p.decl? id = some d) (htype : d.type = .int)
    {spot place : Position} (hbody : d.body = .block [.exit e spot] place) (he : e.IsArithmetic)
    (limits : Limits) :
    ∃ m raw, ∃ context : LinkContext, load f limits = .ok m ∧ m.limits = limits ∧ m.steps = 0 ∧
      m.findMethod? d.name d.arity = some 0 ∧ m.methods[0]? = some (context.link raw) ∧
      context.file = f ∧ AnswerFor p pool d e raw := by
  obtain ⟨methods, constructor, hmethods, hforall, code, hcode, hinit⟩ := hf.methods
  have hpool := hf.pool_eq
  have hk : d.kind = .procedure := by
    have hmem : id ∈ p.procedures := by simp [hprocedures]
    have hkind := (List.mem_filter.1 hmem).2
    simpa [Program.hasKind, hd] using hkind
  have hdecls : p.procedureDecls = [d] := by simp [Program.procedureDecls, hprocedures, hd]
  rw [hdecls] at hforall
  obtain ⟨member, methods, ⟨body, hbodyCode, hmethod⟩, hrest, rfl⟩ := List.forall₂_cons_left_iff.1
    hforall
  obtain rfl := List.forall₂_nil_left_iff.1 hrest
  obtain ⟨raw, hload, hraw⟩ := loadMethod_of_exit hk htype hbody he hbodyCode (hpool ▸ hmethod)
  obtain ⟨init, hloadInit, hinitFor⟩ := loadMethod_of_constructorCode hcode (hpool ▸ hinit)
  have hall : f.methods.mapM (loadMethod f) = .ok [raw, init] := by
    rw [hmethods, mapM_eq_ok]
    exact .cons hload (.cons hloadInit .nil)
  have hkey : raw.name ++ raw.descriptor = d.name ++ procedureDescriptor d.arity .int := by
    rw [hraw.name_eq, hraw.descriptor_eq, Declaration.descriptor_of_procedure hk, htype]
  have hnodup : ([raw, init].map fun m => m.name ++ m.descriptor).Nodup := by
    have hne : raw.name ++ raw.descriptor ≠ init.name ++ init.descriptor := by
      rw [hkey, hinitFor.name_eq, hinitFor.descriptor_eq]
      exact append_procedureDescriptor_ne_init d.name d.arity
    simpa using hne
  have hfound : (indexMethods [raw, init])[d.name ++ procedureDescriptor d.arity .int]? = some 0 := by
    refine (getElem?_numbering _ hnodup _ 0).2 ?_
    simp [hkey]
  refine ⟨_, raw, _, load_of_mapM hp hf hall limits, rfl, rfl, ?_, rfl, rfl, hraw⟩
  simp only [findMethod?, MethodType.descriptor, if_true, hfound]

end Machine

namespace Program

/-- **Folding and running agree.**  A class with tidy tables whose only procedure answers the value
of numbers and operators can be loaded if it can be emitted.  Under the usual limits a call of the
procedure answers what the compiler computes for the tree; it divides a number by zero exactly if
the compiler finds such a division; and there is no other way it can end. -/
theorem returns_constantValue {p : Program} {f : ClassFile} (hp : p.Tidy) (h : p.classFile = .ok f)
    {id : DeclId} {d : Declaration} (hprocedures : p.procedures = [id]) (hd : p.decl? id = some d)
    (htype : d.type = .int) (hparams : d.params = []) {e : Node} (he : e.IsArithmetic)
    {spot place : Position} (hbody : d.body = .block [.exit e spot] place) :
    ∃ m, Machine.load f {} = .ok m ∧ ∀ tracing,
      (∀ v, (m.invoke d.name [] tracing).2.1 = .ok v ↔ e.constantValue = .ok v) ∧
      ((m.invoke d.name [] tracing).2.1 = .error .divisionByZero ↔
        ∃ err, e.constantValue = .error err ∧ err.kind = .constantDivisionByZero) ∧
      ((∃ v, (m.invoke d.name [] tracing).2.1 = .ok v) ∨
        (m.invoke d.name [] tracing).2.1 = .error .divisionByZero) := by
  obtain ⟨pool, hpool⟩ := exists_pool_of_classFile h
  have hf := hp.emitted hpool h
  obtain ⟨m, raw, context, hload, hlimits, hsteps, hfind, hmethod, hfile, hraw⟩ :=
    Machine.exists_load_exit hp hf hprocedures hd htype hbody he {}
  refine ⟨m, hload, fun tracing => ?_⟩
  -- the method runs straight through the code of the tree to the return
  have hresult : (m.invoke d.name [] tracing).2.1 =
      match e.constant? with
      | some v => .ok v
      | none => .error .divisionByZero := by
    have harity : d.arity = 0 := by rw [Declaration.arity, hparams, List.length_nil]
    have henter : Frame.enter (context.link raw) [] = .ok {
        method := context.link raw
        locals := #[] ++ Array.replicate (raw.body.maxLocals.toNat - 0) 0 } :=
      if_neg (Nat.not_lt_zero _)
    -- its code is shorter than the limit on steps
    have hfuel : raw.code.length ≤ m.limits.maxSteps - m.steps := by
      have hlength := hraw.length_le
      have hmax : m.limits.maxSteps = 10000000 := by rw [hlimits]
      omega
    rw [harity] at hfind
    simp only [Machine.invoke, List.length_nil, hfind, Option.bind_some, hmethod,
      Machine.callMethod, henter]
    exact hraw.result_run (a := { context, raw, callers := [], depth := 1 })
      (c := m.runContext tracing) he hf.complete.valid (hfile ▸ hf.pool_eq) rfl hfuel m.steps []
      m.statics _
  rw [hresult]
  cases hvalue : e.constant? with
  | some v =>
    have hok := Node.constant?_eq_some_iff.1 hvalue
    simp [hok]
  | none =>
    obtain ⟨err, herr⟩ := Node.constant?_eq_none_iff.1 hvalue
    simp [herr, he.kind_eq herr]

/-- The least number divided by -1. -/
def leastQuotient : Node :=
  .binary .divide (.literal (-2147483648) .unknown) (.literal (-1) .unknown) .unknown

/-- A procedure f that answers `leastQuotient`. -/
def leastQuotientProcedure : Declaration :=
  { kind := .procedure, name := [102], body := .block [.exit leastQuotient .unknown] .unknown }

/-- A class A with that procedure. -/
def leastQuotientProgram : Program :=
  (Program.empty [65] .unknown).perform (.declare classTable leastQuotientProcedure)

set_option maxRecDepth 20000 in
theorem leastQuotientProgram_emits : ∃ f, leastQuotientProgram.classFile = .ok f := by
  have hcheck : leastQuotientProgram.classFile.isOk = true := by cbv
  exact exists_of_isOk hcheck

/-- The quotient wraps around to the least number for the compiler and in a run. -/
theorem returns_constantValue_leastQuotient : ∃ f m, leastQuotientProgram.classFile = .ok f ∧
    Machine.load f {} = .ok m ∧ leastQuotient.constantValue = .ok (-2147483648) ∧
    ∀ tracing, (m.invoke [102] [] tracing).2.1 = .ok (-2147483648) := by
  obtain ⟨f, h⟩ := leastQuotientProgram_emits
  have htidy : leastQuotientProgram.Tidy :=
    (Tidy.empty [65] .unknown).perform Nat.zero_lt_one
  have hprocedures : leastQuotientProgram.procedures = [0] := by cbv
  have hd : leastQuotientProgram.decl? 0 = some leastQuotientProcedure := by cbv
  have he : leastQuotient.IsArithmetic :=
    .binary (by decide) (.literal _ _) (.literal _ _) _
  have hvalue : leastQuotient.constantValue = .ok (-2147483648) := by decide
  obtain ⟨m, hload, hinvoke⟩ :=
    returns_constantValue htidy h hprocedures hd rfl rfl he rfl
  exact ⟨f, m, h, hload, hvalue, fun tracing => ((hinvoke tracing).1 _).2 hvalue⟩

end Program

end Classwright
