import Classwright.Proofs.Machine.Activation
import Classwright.Proofs.Machine.Load

/-!
# Emitted code does what the evaluator says

A run of the code of an expression, a statement or a procedure follows the evaluation of its tree
(`ExpressionCode.follows`, `StatementsCode.performs`, `Machine.follows_call`).  Fields and local
slots hold the values of the evaluator at every step.
-/

namespace Classwright

/-! ### Values in arrays -/

theorem setIfInBounds_map {α : Type} [DecidableEq α] {xs : List α} (h : xs.Nodup) {n : Nat} {x : α}
    (hx : xs[n]? = some x) (f : α → Int32) (v : Int32) :
    (xs.map f).toArray.setIfInBounds n v = (xs.map (Function.update f x v)).toArray := by
  rw [List.setIfInBounds_toArray]
  congr 1
  refine List.ext_getElem? fun k => ?_
  obtain ⟨hn, rfl⟩ := List.getElem?_eq_some_iff.1 hx
  by_cases hk : k = n
  · subst hk
    simp [hn]
  · rw [List.getElem?_set_ne (Ne.symm hk), List.getElem?_map, List.getElem?_map]
    cases hy : xs[k]? with
    | none => rfl
    | some y =>
      have hne : y ≠ xs[n] := by
        rintro rfl
        exact hk (((List.getElem?_inj (List.getElem?_eq_some_iff.1 hy).1 h).1
          (hy.trans (List.getElem?_eq_getElem hn).symm)))
      rw [Option.map_some, Option.map_some, Function.update_of_ne hne]

namespace Program

/-- The values of the fields in the order in which a machine keeps them. -/
def staticsOf (p : Program) (fields : FieldValues) : Array Int32 :=
  (p.fieldNames.map fields).toArray

/-- The values of parameters and variables in the order of their slots. -/
def slotValues (p : Program) (d : Declaration) (locals : LocalValues) : Array Int32 :=
  ((p.localsOf d).map locals).toArray

end Program

/-- `a` is a call of the procedure `d`. -/
structure Activation.Runs (a : Activation) (c : RunContext) (m : Machine) (p : Program)
    (pool : PoolBuilder) (f : ClassFile) (d : Declaration) : Prop where
  /-- The program is well formed, -/
  wellFormed : p.WellFormed
  /-- and the machine has loaded its class file. -/
  represents : m.Represents p pool f
  /-- Its methods are those that run. -/
  methods_eq : c.methods = m.methods
  /-- Instructions are linked with what was loaded. -/
  context_eq : a.context = m.linkContext p f
  /-- The method is that of the procedure. -/
  method : MethodFor p pool d a.raw

namespace Activation

variable {a : Activation} {c : RunContext} {m : Machine} {p : Program} {pool : PoolBuilder}
  {f : ClassFile} {d : Declaration}

/-! ### The operations of emitted instructions -/

/-- A number is pushed by an operation of its own, or from its entry in the pool. -/
theorem operation_of_valid_push {S : Text → Prop} {e : EmitContext} (hpool : e.pool.Valid S)
    (hfile : a.context.file.pool = e.pool.entries) {v : Int32} {place : Position} {i : Instruction}
    (h : e.push v place = .ok i) (pre : Code) : a.operation pre i = .push v := by
  have hinteger {index : UInt16} (hi : e.pool.integers[v]? = some index) :
      LinkContext.integer a.context.file ((index.toNat : Int)).toNat = .ok v := by
    rw [Int.toNat_natCast]
    exact LinkContext.integer_of_holds (hfile ▸ hpool.integers v index hi)
  rcases EmitContext.push_eq_ok h with ⟨-, rfl⟩ | ⟨-, rfl⟩ | ⟨index, hi, ⟨-, rfl⟩ | rfl⟩
  · simp only [operation, LinkContext.operation, Int32.ofInt_toInt]
  · simp only [operation, LinkContext.operation, Int32.ofInt_toInt]
  · simp only [operation, LinkContext.operation, hinteger hi, LinkContext.orFail]
  · simp only [operation, LinkContext.operation, hinteger hi, LinkContext.orFail]

theorem operation_of_push (hm : m.Represents p pool f) (ha : a.context = m.linkContext p f)
    {e : EmitContext} (he : e.pool = pool) {v : Int32} {place : Position} {i : Instruction}
    (h : e.push v place = .ok i) (pre : Code) : a.operation pre i = .push v := by
  refine operation_of_valid_push (he ▸ hm.emitted.complete.valid) ?_ h pre
  rw [ha, he]
  exact hm.emitted.pool_eq

theorem operation_loadSlot (n : Nat) (pre : Code) : a.operation pre (loadSlot n) = .load n := by
  match n with
  | 0 | 1 | 2 | 3 => rfl
  | n + 4 => rfl

theorem operation_storeSlot (n : Nat) (pre : Code) : a.operation pre (storeSlot n) = .store n := by
  match n with
  | 0 | 1 | 2 | 3 => rfl
  | n + 4 => rfl

/-- The operations for a field. -/
theorem operation_of_field (hp : p.WellFormed) (hm : m.Represents p pool f)
    (ha : a.context = m.linkContext p f) {id : DeclId} {e : Declaration}
    (he : p.decl? id = some e) (hk : e.isValue = true) (ht : e.table = Program.classTable)
    {index : UInt16} (hr : pool.refs[id]? = some index) (pre : Code) :
    ∃ n : Nat, p.fieldNames[n]? = some e.name ∧
      a.operation pre { op := .getStatic, operand := index.toNat } = .getField n ∧
      a.operation pre { op := .putStatic, operand := index.toNat } = .putField n := by
  have hmem : e.name ∈ p.fieldNames :=
    List.mem_map.2 ⟨e, hp.mem_fieldDecls.2 ⟨id, he, ht, hk⟩, rfl⟩
  obtain ⟨n, hn⟩ := List.mem_iff_getElem?.1 hmem
  obtain ⟨e', he', href⟩ := hm.emitted.complete.refs id index hr
  obtain rfl := Option.some.inj (he'.symm.trans he)
  rw [← hm.emitted.pool_eq] at href
  have hclass : NamesClass f.pool pool.this p.name :=
    hm.emitted.pool_eq ▸ hm.emitted.complete.this
  have hfield : a.context.field ((index.toNat : Int)).toNat = .ok n := by
    rw [Int.toNat_natCast, ha]
    exact LinkContext.field_of_refersTo hclass (by simpa [Declaration.isValue] using hk) href
      ((hm.fieldIndex_iff _ _).2 hn)
  refine ⟨n, hn, ?_, ?_⟩
  · simp only [operation, LinkContext.operation, hfield, LinkContext.orFail]
  · simp only [operation, LinkContext.operation, hfield, LinkContext.orFail]

/-- The operation for a call. -/
theorem operation_of_invoke (hp : p.WellFormed) (hm : m.Represents p pool f)
    (ha : a.context = m.linkContext p f) {id : DeclId} {e : Declaration}
    (he : p.decl? id = some e) (hk : e.kind = .procedure) {index : UInt16}
    (hr : pool.refs[id]? = some index) (pre : Code) :
    ∃ n : Nat, p.procedureDecls[n]? = some e ∧
      a.operation pre { op := .invokeStatic, operand := index.toNat } = .call n e.name := by
  obtain ⟨n, hn⟩ := List.mem_iff_getElem?.1 (hp.mem_procedureDecls.2 ⟨id, he, hk⟩)
  have hlt := (List.getElem?_eq_some_iff.1 hn).1
  have hkey : p.methodKeys[n]? = some (e.name ++ e.descriptor) := by
    rw [Program.methodKeys, List.getElem?_append_left (by simpa using hlt), List.getElem?_map, hn]
    rfl
  obtain ⟨e', he', href⟩ := hm.emitted.complete.refs id index hr
  obtain rfl := Option.some.inj (he'.symm.trans he)
  rw [← hm.emitted.pool_eq] at href
  have hclass : NamesClass f.pool pool.this p.name :=
    hm.emitted.pool_eq ▸ hm.emitted.complete.this
  have hmethod : a.context.method ((index.toNat : Int)).toNat = .ok (n, e'.name) := by
    rw [Int.toNat_natCast, ha]
    exact LinkContext.method_of_refersTo hclass hk href ((hm.methodIndex_iff _ _).2 hkey)
  refine ⟨n, hn, ?_⟩
  simp only [operation, LinkContext.operation, hmethod, LinkContext.orFail]

/-! ### Calls and places -/

/-- The state in which a call of the procedure `d` has run the code `pre`. -/
def behind (a : Activation) (p : Program) (d : Declaration) (fields : FieldValues)
    (locals : LocalValues) (pre : Code) (stack : List Int32) : RunState :=
  a.state (p.staticsOf fields) (p.slotValues d locals) pre.length stack

/-- Calls with the fuel `n` follow the evaluation of their procedures. -/
def CallsFollow (c : RunContext) (m : Machine) (p : Program) (pool : PoolBuilder) (f : ClassFile)
    (bound n : Nat) : Prop :=
  ∀ (a : Activation) (id : DeclId) (d : Declaration) (arguments : List Int32)
    (fields : FieldValues), p.decl? id = some d → d.kind = .procedure →
    arguments.length = d.arity → a.Runs c m p pool f d → a.depth + n = bound →
    c.Follows p.staticsOf bound n
      (a.behind p d fields (Program.startLocals d arguments) [] [])
      (p.call n id arguments fields)
      (fun value fields t => c.Steps t (a.answer (p.staticsOf fields) value))

/-- The parameters of a procedure start with the arguments. -/
theorem map_startLocals {params : List DeclId} (hd : d.params = params.map some)
    (hnodup : params.Nodup) {arguments : List Int32} (h : arguments.length = params.length) :
    params.map (Program.startLocals d arguments) = arguments := by
  refine List.ext_getElem (by simpa using h.symm) fun n hn hn' => ?_
  have hindex : d.params.idxOf (some (params.get ⟨n, by simpa using hn⟩)) = n := by
    rw [hd]
    have hget := List.Nodup.idxOf_getElem (hnodup.map fun _ _ h => Option.some.inj h) n
      (by simpa using hn)
    simpa using hget
  rw [List.getElem_map, Program.startLocals]
  simp only [List.get_eq_getElem] at hindex
  rw [hindex, List.getElem?_eq_getElem hn']
  rfl

/-- Its variables start at 0. -/
theorem startLocals_of_notMem {params : List DeclId} (hd : d.params = params.map some)
    {arguments : List Int32} (h : arguments.length = params.length) {id : DeclId}
    (hid : id ∉ params) : Program.startLocals d arguments id = 0 := by
  have hnot : some id ∉ d.params := by
    rw [hd]
    simpa using hid
  rw [Program.startLocals, List.idxOf_eq_length hnot, hd, List.length_map, ← h,
    List.getElem?_eq_none (Nat.le_refl _)]
  rfl

/-- A call starts with its parameters and variables in their slots. -/
theorem slotValues_startLocals (hp : p.WellFormed) {id : DeclId} (hd : p.decl? id = some d)
    (hk : d.kind = .procedure) {arguments : List Int32} (h : arguments.length = d.arity) :
    arguments.length ≤ (p.localsOf d).length ∧
    arguments.toArray ++ Array.replicate ((p.localsOf d).length - arguments.length) 0 =
      p.slotValues d (Program.startLocals d arguments) := by
  obtain ⟨t, params, vars, ht⟩ := hp.procedure id d hd hk
  have hlocals : p.localsOf d = params ++ vars := by
    rw [Program.localsOf, ht.locals_eq, ← ht.members_eq]
  have hnodup : (params ++ vars).Nodup := hlocals ▸ EmitContext.nodup_localsOf hp d
  obtain ⟨hparams, -, hdisjoint⟩ := List.nodup_append.1 hnodup
  have hlength : arguments.length = params.length := by
    rw [h, Declaration.arity, ht.params_eq, List.length_map]
  have hvars : vars.map (Program.startLocals d arguments) = List.replicate vars.length 0 := by
    rw [List.eq_replicate_iff]
    refine ⟨List.length_map _, fun v hv => ?_⟩
    obtain ⟨id, hid, rfl⟩ := List.mem_map.1 hv
    exact startLocals_of_notMem ht.params_eq hlength fun hmem => hdisjoint id hmem id hid rfl
  rw [Program.slotValues, hlocals, List.map_append, hvars, map_startLocals ht.params_eq hparams
    hlength, hlength, List.length_append, Nat.add_sub_cancel_left]
  exact ⟨Nat.le_add_right _ _, by simp⟩

/-! ### Operators -/

section Operators

variable {statics : FieldValues → Array Int32} {bound fuel : Nat} {values locals : Array Int32}
  {stack : List Int32} {pre post : Code}

/-- A single instruction for an operator. -/
theorem yields_arithmetic {op : Operator} {i : Instruction}
    (hop : a.operation pre i = .arithmetic op) (hcode : a.raw.code = pre ++ ([i] ++ post))
    (hstack : stack.length < a.method.maxStack) (x y : Int32) :
    c.Yields 1 values (a.state values locals pre.length (y :: x :: stack)) (op.compute? x y)
      (fun value => a.state values locals (pre ++ [i]).length (value :: stack)) := by
  cases hv : op.compute? x y with
  | none => exact ⟨0, _, Nat.zero_le 1, .refl _, fails_arithmetic hcode hop hv⟩
  | some v => exact ⟨1, _, Nat.le_refl 1, .single (steps_arithmetic hcode hop hv hstack), rfl⟩

/-- The branches of a comparison. -/
theorem yields_comparison {op : Opcode} (test : Test) (hsize : op.operand = .branch)
    (hop : a.operation pre ⟨op, 7, false⟩ = .branch test (LinkContext.target a.raw
      (LinkContext.startsOf (Code.locate 0 a.raw.code)) pre.size ⟨op, 7, false⟩))
    (hcode : a.raw.code = pre ++ (comparisonCode op ++ post)) (hpost : post ≠ [])
    (hstack : stack.length < a.method.maxStack) (x y : Int32) :
    c.Yields 4 values (a.state values locals pre.length (y :: x :: stack))
      (some (Operator.ofBool (test.holds x y)))
      (fun value => a.state values locals (pre ++ comparisonCode op).length (value :: stack)) := by
  obtain ⟨j, post, rfl⟩ := List.exists_cons_of_ne_nil hpost
  obtain ⟨compare, hcompare⟩ : ∃ i : Instruction, i = ⟨op, 7, false⟩ := ⟨_, rfl⟩
  obtain ⟨zero, hzero⟩ : ∃ i : Instruction, i = { op := .iconst0 } := ⟨_, rfl⟩
  obtain ⟨skip, hskip⟩ : ∃ i : Instruction, i = ⟨.goto, 4, false⟩ := ⟨_, rfl⟩
  obtain ⟨one, hone⟩ : ∃ i : Instruction, i = { op := .iconst1 } := ⟨_, rfl⟩
  have hcodes : comparisonCode op = [compare, zero, skip, one] := by
    rw [hcompare, hzero, hskip, hone, comparisonCode]
  have hcompareSize : compare.size = 3 := by
    simp [hcompare, Instruction.size, Opcode.size, hsize, OperandKind.size]
  have hcompareOperand : compare.operand = 7 := by rw [hcompare]
  have hzeroSize : zero.size = 1 := by rw [hzero]; rfl
  have hskipSize : skip.size = 3 := by rw [hskip]; rfl
  have hskipOperand : skip.operand = 4 := by rw [hskip]
  have honeSize : one.size = 1 := by rw [hone]; rfl
  rw [hcodes] at hcode ⊢
  -- where each of the four instructions stands
  have hatZero : a.raw.code = (pre ++ [compare]) ++ zero :: (skip :: one :: j :: post) := by
    rw [hcode]; simp
  have hatSkip : a.raw.code = (pre ++ [compare] ++ [zero]) ++ skip :: (one :: j :: post) := by
    rw [hcode]; simp
  have hatOne : a.raw.code = (pre ++ [compare, zero, skip]) ++ one :: (j :: post) := by
    rw [hcode]; simp
  have hatEnd : a.raw.code = (pre ++ [compare, zero, skip, one]) ++ j :: post := by
    rw [hcode]; simp
  -- the branch skips the push of 0 and the jump behind it
  have hbranch : a.operation pre compare =
      .branch test (.ok (pre ++ [compare, zero, skip]).length) := by
    rw [← LinkContext.target_eq_ok hatOne compare pre.size (by
      simp [hcompareSize, hzeroSize, hskipSize, hcompareOperand]), hcompare]
    exact hop
  -- the branch goes to the push of 1 exactly if the test holds
  have hfirst : c.Steps (a.state values locals pre.length (y :: x :: stack))
      (.next (a.state values locals (if test.holds x y then (pre ++ [compare, zero, skip]).length
        else (pre ++ [compare]).length) stack)) :=
    steps_branch hcode hbranch
  cases hholds : test.holds x y with
  | true =>
    have honePushes : a.operation (pre ++ [compare, zero, skip]) one = .push 1 := by rw [hone]; rfl
    rw [hholds, if_pos rfl] at hfirst
    refine ⟨2, _, by decide, .step hfirst (.single (steps_push hatOne honePushes hstack)), ?_⟩
    simp [Operator.ofBool]
  | false =>
    have hzeroPushes : a.operation (pre ++ [compare]) zero = .push 0 := by rw [hzero]; rfl
    have hjump : a.operation (pre ++ [compare] ++ [zero]) skip =
        .jump (.ok (pre ++ [compare, zero, skip, one]).length) := by
      rw [← LinkContext.target_eq_ok hatEnd skip (pre ++ [compare] ++ [zero]).size (by
        simp [hcompareSize, hzeroSize, hskipSize, honeSize, hskipOperand]
        omega), hskip]
      rfl
    rw [hholds, if_neg (by simp)] at hfirst
    exact ⟨3, _, by decide, .step hfirst (.step (steps_push hatZero hzeroPushes hstack)
      (.single (steps_jump hatSkip hjump))), rfl⟩

/-- The code of an operator computes its value in at most as many steps as it has instructions. -/
theorem yields_operatorCode? {op : Operator} {code : Code} (h : operatorCode? op = some code)
    (hcode : a.raw.code = pre ++ (code ++ post)) (hpost : post ≠ [])
    (hstack : stack.length < a.method.maxStack) (x y : Int32) :
    c.Yields code.length values (a.state values locals pre.length (y :: x :: stack))
      (op.compute? x y)
      (fun value => a.state values locals (pre ++ code).length (value :: stack)) := by
  cases op <;> simp only [operatorCode?, Option.some.injEq, reduceCtorEq] at h <;> subst h
  case equal => exact yields_comparison .equal rfl rfl hcode hpost hstack x y
  case less => exact yields_comparison .less rfl rfl hcode hpost hstack x y
  case lessEqual => exact yields_comparison .lessEqual rfl rfl hcode hpost hstack x y
  case greater => exact yields_comparison .greater rfl rfl hcode hpost hstack x y
  case greaterEqual => exact yields_comparison .greaterEqual rfl rfl hcode hpost hstack x y
  all_goals exact yields_arithmetic rfl hcode hstack x y

/-- The code of an operator does what its meaning says. -/
theorem follows_operatorCode? {op : Operator} {code : Code} (h : operatorCode? op = some code)
    (hcode : a.raw.code = pre ++ (code ++ post)) (hpost : post ≠ [])
    (hstack : stack.length < a.method.maxStack) (x y : Int32) (fields : FieldValues) :
    c.Follows statics bound fuel (a.state (statics fields) locals pre.length (y :: x :: stack))
      (match op.meaning? x y with
        | some value => .done value fields
        | none => .failed fields)
      (fun value fields t => t = a.state (statics fields) locals (pre ++ code).length
        (value :: stack)) := by
  rw [← Operator.compute?_eq_meaning?]
  exact (yields_operatorCode? h hcode hpost hstack x y).follows fun _ => rfl

end Operators

end Activation

/-! ### Expressions -/

section Trees

open Activation

variable {a : Activation} {c : RunContext} {m : Machine} {p : Program} {pool : PoolBuilder}
  {f : ClassFile} {d : Declaration} {bound n : Nat}

/-- A call runs the method of its procedure and comes back. -/
theorem Activation.Runs.follows_invoke (ha : a.Runs c m p pool f d)
    (hcalls : CallsFollow c m p pool f bound n) (hdepth : a.depth + (n + 1) = bound)
    {id : DeclId} {e : Declaration} (he : p.decl? id = some e) (hk : e.kind = .procedure)
    {index : UInt16} (hr : pool.refs[id]? = some index) {pre post : Code}
    (hcode : a.raw.code = pre ++ ⟨.invokeStatic, index.toNat, false⟩ :: post)
    {arguments : List Int32} (harguments : arguments.length = e.arity) {stack : List Int32}
    (hstack : e.type = .int → stack.length < a.method.maxStack) (fields : FieldValues)
    (locals : LocalValues) :
    c.Follows p.staticsOf bound (n + 1)
      (a.behind p d fields locals pre (arguments.reverse ++ stack))
      (p.call n id arguments fields)
      (fun value fields t => t = a.behind p d fields locals
        (pre ++ [⟨.invokeStatic, index.toNat, false⟩])
        (if e.type = .int then value :: stack else stack)) := by
  obtain ⟨k, hk', hop⟩ := operation_of_invoke ha.wellFormed ha.represents ha.context_eq he hk hr pre
  obtain ⟨raw, hraw, hmethod⟩ := ha.represents.procedure k e hk'
  obtain ⟨hle, hslots⟩ := slotValues_startLocals ha.wellFormed he hk harguments
  -- the instruction calls the method of the procedure with the values of its slots
  have hmethods : c.methods[k]? = some (a.context.link raw) := by
    rw [ha.methods_eq, hmethod, ha.context_eq]
  have hstep : (a.behind p d fields locals pre (arguments.reverse ++ stack)).step c.methods
      c.maxDepth (.call k e.name) =
      (a.behind p d fields locals pre (arguments.reverse ++ stack)).calling c.maxDepth
        (a.context.link raw) e.name := by
    simp only [RunState.step, hmethods]
  have hcall := hstep.trans (calling_eq e.name (by rw [hraw.type_eq]; exact harguments.symm)
    (by rw [hraw.maxLocals_eq]; exact hle))
  rw [hraw.maxLocals_eq, hslots] at hcall
  -- no frame is left, or the method runs and is followed by assumption
  by_cases hdeep : c.maxDepth ≤ a.depth
  · rw [if_pos hdeep] at hcall
    exact .tooDeep (by omega) (steps hcode hop hcall)
  · rw [if_neg hdeep] at hcall
    obtain ⟨b, hb⟩ : ∃ b, b = a.enter raw (p.slotValues d locals) (pre.length + 1) stack := ⟨_, rfl⟩
    have hruns : b.Runs c m p pool f e := by
      refine ⟨ha.wellFormed, ha.represents, ha.methods_eq, ?_, ?_⟩
      · rw [hb]
        exact ha.context_eq
      · rw [hb]
        exact hraw
    have hfollows := hcalls b id e arguments fields he hk harguments hruns (by
      rw [hb]
      change a.depth + 1 + n = bound
      omega)
    rw [hb] at hfollows
    rw [Nat.add_comm n 1]
    refine (hfollows.extend ?_).behind (.single (steps hcode hop hcall))
    intro value fields t ht
    -- behind the answer the caller goes on with it on its stack
    have hroom (hint : raw.type.returnsInt = true) : stack.length < a.method.maxStack := by
      rw [hraw.type_eq] at hint
      exact hstack (beq_iff_eq.1 hint)
    rw [answer_enter hroom] at ht
    refine .step ht (.done ?_)
    rw [Activation.behind, length_concat, hraw.type_eq]
    simp only [beq_iff_eq]

mutual

/-- A run of the code of an expression follows its evaluation. -/
theorem ExpressionCode.follows (ha : a.Runs c m p pool f d)
    (hcalls : CallsFollow c m p pool f bound n) (hdepth : a.depth + (n + 1) = bound) {e : Node}
    {code : Code} (h : ExpressionCode (EmitContext.ofProcedure p pool d) e code) {pre post : Code}
    (hcode : a.raw.code = pre ++ (code ++ post)) (hpost : post ≠ []) {stack : List Int32}
    (hstack : stack.length + p.exprStack e ≤ a.method.maxStack) (fields : FieldValues)
    (locals : LocalValues) :
    c.Follows p.staticsOf bound (n + 1) (a.behind p d fields locals pre stack)
      (p.eval (p.call n) locals e fields)
      (fun value fields t => t = a.behind p d fields locals (pre ++ code)
        (if p.yieldsValue e then value :: stack else stack)) := by
  have hroom (hpos : 1 ≤ p.exprStack e) : stack.length < a.method.maxStack := by omega
  cases h with
  | literal hi =>
    rw [Program.eval]
    have hop := operation_of_push ha.represents ha.context_eq rfl hi pre
    exact .step (steps_push hcode hop (hroom (Nat.le_refl 1))) (.done rfl)
  | constant he hk hi =>
    rw [Program.eval, Program.read_constant (p := p) he locals fields hk]
    have hop := operation_of_push ha.represents ha.context_eq rfl hi pre
    exact .step (steps_push hcode hop (hroom (Nat.le_refl 1))) (.done rfl)
  | @slot x id e' place k he hk ht hs =>
    rw [Program.eval, Program.read_local (p := p) he locals fields hk ht]
    -- the slot holds the value of the local variable
    have hvalue : (p.slotValues d locals)[k]? = some (locals id) := by
      rw [EmitContext.ofProcedure, EmitContext.getElem?_slotsOf
        (EmitContext.nodup_localsOf ha.wellFormed d)] at hs
      rw [Program.slotValues, List.getElem?_toArray, List.getElem?_map, hs]
      rfl
    exact .step (steps_load hcode (operation_loadSlot k pre) hvalue (hroom (Nat.le_refl 1)))
      (.done rfl)
  | @field x id e' place index he hk ht hr =>
    rw [Program.eval, Program.read_field (p := p) he locals fields (by simp [hk]) ht]
    obtain ⟨k, hk', hget, -⟩ := operation_of_field ha.wellFormed ha.represents
      ha.context_eq he (by simp [Declaration.isValue, hk]) ht hr pre
    -- the field holds the value of the variable of the class
    have hvalue : (p.staticsOf fields)[k]? = some (fields e'.name) := by
      rw [Program.staticsOf, List.getElem?_toArray, List.getElem?_map, hk']
      rfl
    exact .step (steps_getField hcode hget hvalue (hroom (Nat.le_refl 1))) (.done rfl)
  | @call callee arguments id e' place argCode index he hk hlen hr hargs =>
    rw [Program.eval]
    rw [Program.exprStack] at hstack
    have hargCode : a.raw.code = pre ++ (argCode ++
        (⟨.invokeStatic, index.toNat, false⟩ :: post)) := by
      rw [hcode, List.append_assoc]
      rfl
    -- first the arguments are pushed, then the instruction calls the method
    refine (hargs.follows ha hcalls hdepth hargCode (by simp) (Nat.add_zero _).symm (by omega)
      fields locals).andThen ?_
    rintro values fields t ⟨hvalues, rfl⟩
    have hcall : a.raw.code = (pre ++ argCode) ++ ⟨.invokeStatic, index.toNat, false⟩ :: post := by
      rw [hargCode, List.append_assoc]
    have hreturns : p.returnsValue (some id) = true ↔ e'.type = .int := by
      have he' : p.decl? id = some e' := he
      simp [Program.returnsValue, he']
    -- an answer takes the room of the arguments or one more place
    have hroom' (hint : e'.type = .int) : stack.length < a.method.maxStack := by
      rw [if_pos (hreturns.2 hint)] at hstack
      omega
    have hfollows := ha.follows_invoke hcalls hdepth he hk hr hcall (hvalues.trans hlen.symm) hroom'
      fields locals
    simp only [Program.yieldsValue, hreturns]
    rw [← List.append_assoc]
    exact hfollows
  | @binary op left right place leftCode rightCode opCode hop hl hvl hr hvr =>
    have hvl' : p.yieldsValue left = true := hvl
    have hvr' : p.yieldsValue right = true := hvr
    -- an operator with code is no assignment
    have hassign : op ≠ .assign := by
      rintro rfl
      simp [operatorCode?] at hop
    rw [Program.eval_binary hassign]
    rw [Program.exprStack] at hstack
    -- the left operand, the right one and the operator lie behind each other
    have hleft : a.raw.code = pre ++ (leftCode ++ (rightCode ++ (opCode ++ post))) := by
      rw [hcode]; simp
    have hright : a.raw.code = (pre ++ leftCode) ++ (rightCode ++ (opCode ++ post)) := by
      rw [hcode]; simp
    have hoperator : a.raw.code = (pre ++ leftCode ++ rightCode) ++ (opCode ++ post) := by
      rw [hcode]; simp
    have hnonempty : opCode ++ post ≠ [] := by simp [hpost]
    -- the right operand is computed with the left one on the stack
    refine (hl.follows ha hcalls hdepth hleft (by simp [hpost]) (by omega) fields locals).andThen ?_
    rintro x fields t rfl
    rw [if_pos hvl']
    refine (hr.follows ha hcalls hdepth hright hnonempty (by rw [List.length_cons]; omega) fields
      locals).andThen ?_
    rintro y fields t rfl
    rw [if_pos hvr']
    have hend : pre ++ (leftCode ++ (rightCode ++ opCode)) =
        pre ++ leftCode ++ rightCode ++ opCode := by
      simp
    rw [hend]
    exact follows_operatorCode? hop hoperator hpost (hroom (by rw [Program.exprStack]; omega)) x y
      fields

/-- Likewise for arguments, the last of which comes to stand on top of the stack. -/
theorem ArgumentsCode.follows (ha : a.Runs c m p pool f d)
    (hcalls : CallsFollow c m p pool f bound n) (hdepth : a.depth + (n + 1) = bound)
    {es : List Node} {code : Code}
    (h : ArgumentsCode (EmitContext.ofProcedure p pool d) es code) {pre post : Code}
    (hcode : a.raw.code = pre ++ (code ++ post)) (hpost : post ≠ []) {stack : List Int32}
    {base k : Nat} (hbase : stack.length = base + k)
    (hstack : base + p.argumentStack k es ≤ a.method.maxStack) (fields : FieldValues)
    (locals : LocalValues) :
    c.Follows p.staticsOf bound (n + 1) (a.behind p d fields locals pre stack)
      (p.evalAll (p.call n) locals es fields)
      (fun values fields t => values.length = es.length ∧
        t = a.behind p d fields locals (pre ++ code) (values.reverse ++ stack)) := by
  cases h with
  | nil =>
    rw [List.append_nil, Program.evalAll]
    exact .done ⟨rfl, rfl⟩
  | @cons e rest code others he hv hr =>
    have hv' : p.yieldsValue e = true := hv
    rw [Program.evalAll]
    rw [Program.argumentStack] at hstack
    have hfirst : a.raw.code = pre ++ (code ++ (others ++ post)) := by
      rw [hcode]; simp
    have hrest : a.raw.code = (pre ++ code) ++ (others ++ post) := by
      rw [hcode]; simp
    refine (he.follows ha hcalls hdepth hfirst (by simp [hpost]) (by omega) fields
      locals).andThen ?_
    rintro value fields t rfl
    rw [if_pos hv']
    -- the others find the value of the first one below them
    have hbase' : (value :: stack).length = base + (k + 1) := by
      rw [List.length_cons, hbase, Nat.add_assoc]
    refine (hr.follows ha hcalls hdepth hrest hpost hbase' (by omega) fields locals).andThen ?_
    rintro values fields t ⟨hlength, rfl⟩
    exact .done ⟨by rw [List.length_cons, List.length_cons, hlength], by simp⟩

end

/-! ### Statements -/

/-- What a run of statements comes to: the code behind them, if they can complete, or a return. -/
def Activation.Leaves (a : Activation) (c : RunContext) (p : Program) (d : Declaration) (pre : Code)
    (completes : Bool) : Program.Flow → FieldValues → RunState → Prop
  | .goesOn locals, fields, t => completes = true ∧ t = a.behind p d fields locals pre []
  | .returns value, fields, t => c.Steps t (a.answer (p.staticsOf fields) value)

theorem Activation.operation_ifEq {pre pre' post' : Code} (hcode : a.raw.code = pre' ++ post')
    (hpost' : post' ≠ []) {distance : Int} (h : (pre.size : Int) + distance = pre'.size) :
    a.operation pre ⟨.ifEq, distance, false⟩ = .branch .equal (.ok pre'.length) := by
  obtain ⟨j, rest, rfl⟩ := List.exists_cons_of_ne_nil hpost'
  rw [← LinkContext.target_eq_ok hcode ⟨.ifEq, distance, false⟩ pre.size h]
  rfl

theorem Activation.operation_goto {pre pre' post' : Code} (hcode : a.raw.code = pre' ++ post')
    (hpost' : post' ≠ []) {distance : Int} (h : (pre.size : Int) + distance = pre'.size) :
    a.operation pre ⟨.goto, distance, false⟩ = .jump (.ok pre'.length) := by
  obtain ⟨j, rest, rfl⟩ := List.exists_cons_of_ne_nil hpost'
  rw [← LinkContext.target_eq_ok hcode ⟨.goto, distance, false⟩ pre.size h]
  rfl

theorem Activation.Runs.operation_vreturn (ha : a.Runs c m p pool f d) (hd : d.type = .void)
    (pre : Code) : a.operation pre { op := .vreturn } = .returnNothing := by
  simp [Activation.operation, LinkContext.operation, ha.method.type_eq, hd]

theorem Activation.Runs.operation_ireturn (ha : a.Runs c m p pool f d) (hd : d.type = .int)
    (pre : Code) : a.operation pre { op := .ireturn } = .returnValue := by
  simp [Activation.operation, LinkContext.operation, ha.method.type_eq, hd]

/-- A condition that is compared with a number pushed before it. -/
theorem ExpressionCode.follows_test (ha : a.Runs c m p pool f d)
    (hcalls : CallsFollow c m p pool f bound n) (hdepth : a.depth + (n + 1) = bound) {e : Node}
    {code : Code} (h : ExpressionCode (EmitContext.ofProcedure p pool d) e code)
    (hv : p.yieldsValue e = true) {pre pre' post post' : Code} {i j : Instruction} {x : Int32}
    (hi : a.operation pre i = .push x) {distance : Int} (hj : j = ⟨.ifEq, distance, false⟩)
    (hcode : a.raw.code = pre ++ i :: (code ++ j :: post))
    (hcode' : a.raw.code = pre' ++ post') (hpost' : post' ≠ [])
    (htarget : ((pre ++ i :: code).size : Int) + distance = pre'.size)
    (hstack : 1 + p.exprStack e ≤ a.method.maxStack) (fields : FieldValues)
    (locals : LocalValues) :
    c.Follows p.staticsOf bound (n + 1) (a.behind p d fields locals pre [])
      (p.eval (p.call n) locals e fields)
      (fun value fields t => t = a.behind p d fields locals
        (if value = x then pre' else pre ++ i :: (code ++ [j])) []) := by
  have hcond : a.raw.code = (pre ++ [i]) ++ (code ++ (j :: post)) := by
    rw [hcode]; simp
  have htest : a.raw.code = (pre ++ i :: code) ++ j :: post := by
    rw [hcode]; simp
  have hroom : ([] : List Int32).length < a.method.maxStack := by
    rw [List.length_nil]
    omega
  -- the test goes on, or over the code behind it
  have hbranch : a.operation (pre ++ i :: code) j = .branch .equal (.ok pre'.length) := by
    rw [hj]
    exact operation_ifEq hcode' hpost' htarget
  have hplace : pre ++ [i] ++ code = pre ++ i :: code := by simp
  have hend : (pre ++ i :: code) ++ [j] = pre ++ i :: (code ++ [j]) := by simp
  -- the number, the condition above it, and the test that takes both
  refine .step (steps_push hcode hi hroom) ?_
  refine (h.follows ha hcalls hdepth hcond (by simp) (by simpa using hstack) fields
    locals).extend ?_
  rintro value fields t rfl
  rw [if_pos hv, hplace]
  refine .step (steps_branch htest hbranch) (.done ?_)
  simp only [Test.holds, beq_iff_eq, hend, eq_comm (a := x)]
  split <;> rfl

/-- The rounds of a loop, each of which ends with a jump back. -/
theorem Activation.follows_repeatWhile {start rest behind : Code} {completes : Bool}
    {test : LocalValues → FieldValues → EvalOutcome Int32}
    {body : LocalValues → FieldValues → EvalOutcome Program.Flow} {bodyEnd : Code}
    (htest : ∀ fields locals, c.Follows p.staticsOf bound (n + 1)
      (a.behind p d fields locals start []) (test locals fields)
      (fun value fields t => t = a.behind p d fields locals
        (if value = 0 then behind else rest) []))
    (hbody : ∀ fields locals, c.Follows p.staticsOf bound (n + 1)
      (a.behind p d fields locals rest []) (body locals fields) (a.Leaves c p d bodyEnd completes))
    (hagain : ∀ fields locals, c.Steps (a.behind p d fields locals bodyEnd [])
      (.next (a.behind p d fields locals start []))) {k : Nat} (hk : k ≤ n + 1)
    (fields : FieldValues) (locals : LocalValues) :
    c.Follows p.staticsOf bound k (a.behind p d fields locals start [])
      (Program.repeatWhile test body k locals fields) (a.Leaves c p d behind true) := by
  induction k generalizing fields locals with
  | zero => exact .unfinished _
  | succ k ih =>
    rw [Program.repeatWhile]
    refine ((htest fields locals).mono hk).andThen ?_
    rintro value fields t rfl
    by_cases hvalue : value = 0
    · rw [if_pos hvalue, if_pos hvalue]
      exact .done ⟨rfl, rfl⟩
    · rw [if_neg hvalue, if_neg hvalue]
      refine ((hbody fields locals).mono hk).andThen ?_
      intro flow fields t ht
      cases flow with
      | goesOn locals =>
        obtain ⟨-, rfl⟩ := ht
        rw [Nat.add_comm k 1]
        -- the jump back leads to the next round
        exact (ih (by omega) fields locals).behind (.single (hagain fields locals))
      | returns value => exact .done ht

/-- Wherever the code stands in the method, a run of it comes to what `exec` comes to.  If it
completes, there is code behind it. -/
def Activation.Performs (a : Activation) (c : RunContext) (p : Program) (d : Declaration)
    (bound n : Nat) (code : Code) (completes : Bool)
    (exec : LocalValues → FieldValues → EvalOutcome Program.Flow) : Prop :=
  ∀ pre post : Code, a.raw.code = pre ++ (code ++ post) → (completes = true → post ≠ []) →
    ∀ fields locals, c.Follows p.staticsOf bound (n + 1) (a.behind p d fields locals pre [])
      (exec locals fields) (a.Leaves c p d (pre ++ code) completes)

section Forms

variable (ha : a.Runs c m p pool f d) (hcalls : CallsFollow c m p pool f bound n)
  (hdepth : a.depth + (n + 1) = bound)

include ha hcalls hdepth

/-- The value of an expression stands alone on the stack when an instruction takes it. -/
theorem ExpressionCode.follows_taken {e : Node} {code : Code}
    (h : ExpressionCode (EmitContext.ofProcedure p pool d) e code) (hv : p.yieldsValue e = true)
    {i : Instruction} {pre post : Code} (hcode : a.raw.code = pre ++ (code ++ [i] ++ post))
    (hstack : p.exprStack e ≤ a.method.maxStack) (fields : FieldValues) (locals : LocalValues) :
    a.raw.code = (pre ++ code) ++ i :: post ∧
      c.Follows p.staticsOf bound (n + 1) (a.behind p d fields locals pre [])
        (p.eval (p.call n) locals e fields)
        (fun value fields t => t = a.behind p d fields locals (pre ++ code) [value]) := by
  have hvalue : a.raw.code = pre ++ (code ++ (i :: post)) := by
    rw [hcode]; simp
  refine ⟨by rw [hcode]; simp, ?_⟩
  have hroom : ([] : List Int32).length + p.exprStack e ≤ a.method.maxStack := by simpa using hstack
  have hfollows := h.follows ha hcalls hdepth hvalue (by simp) hroom fields locals
  simpa only [hv, if_true] using hfollows

theorem Activation.performs_assignSlot {x : Text} {id : DeclId} {e : Declaration} {value : Node}
    {spot place : Position} {code : Code} {k : Nat} (he : p.decl? id = some e)
    (ht : e.table ≠ Program.classTable)
    (hs : (EmitContext.ofProcedure p pool d).slots[id]? = some k)
    (h : ExpressionCode (EmitContext.ofProcedure p pool d) value code)
    (hv : p.yieldsValue value = true) (hstack : p.exprStack value ≤ a.method.maxStack) :
    a.Performs c p d bound n (code ++ [storeSlot k]) true
      (p.exec (p.call n) (n + 1) (.binary .assign (.name x (some id) spot) value place)) := by
  intro pre post hcode _ fields locals
  obtain ⟨hstore, hfollows⟩ := h.follows_taken ha hcalls hdepth hv hcode hstack fields locals
  have hnodup := EmitContext.nodup_localsOf ha.wellFormed d
  rw [EmitContext.ofProcedure, EmitContext.getElem?_slotsOf hnodup] at hs
  rw [Program.exec]
  refine hfollows.andThen ?_
  rintro v fields t rfl
  rw [Program.write_local (p := p) he locals v fields ht]
  refine .step (steps_store hstore (operation_storeSlot k _) ?_) (.done ⟨rfl, ?_⟩)
  · simpa [Program.slotValues] using (List.getElem?_eq_some_iff.1 hs).1
  · rw [Program.slotValues, setIfInBounds_map hnodup hs, List.append_assoc]
    rfl

theorem Activation.performs_assignField {x : Text} {id : DeclId} {e : Declaration} {value : Node}
    {spot place : Position} {code : Code} {index : UInt16} (he : p.decl? id = some e)
    (hk : e.kind = .var) (ht : e.table = Program.classTable) (hr : pool.refs[id]? = some index)
    (h : ExpressionCode (EmitContext.ofProcedure p pool d) value code)
    (hv : p.yieldsValue value = true) (hstack : p.exprStack value ≤ a.method.maxStack) :
    a.Performs c p d bound n (code ++ [⟨.putStatic, index.toNat, false⟩]) true
      (p.exec (p.call n) (n + 1) (.binary .assign (.name x (some id) spot) value place)) := by
  intro pre post hcode _ fields locals
  obtain ⟨hstore, hfollows⟩ := h.follows_taken ha hcalls hdepth hv hcode hstack fields locals
  obtain ⟨k, hk', -, hput⟩ := operation_of_field ha.wellFormed ha.represents ha.context_eq he
    (by simp [Declaration.isValue, hk]) ht hr (pre ++ code)
  rw [Program.exec]
  refine hfollows.andThen ?_
  rintro v fields t rfl
  rw [Program.write_field (p := p) he locals v fields ht]
  refine .step (steps_putField hstore hput) (.done ⟨rfl, ?_⟩)
  rw [Program.staticsOf, setIfInBounds_map ha.wellFormed.nodup_fieldNames hk', List.append_assoc]
  rfl

/-- A call whose value nobody uses, which is removed if there is one. -/
theorem Activation.performs_call {callee : Text} {arguments : List Node} {link : Option DeclId}
    {place : Position} {code : Code}
    (h : ExpressionCode (EmitContext.ofProcedure p pool d) (.call callee arguments link place) code)
    (hstack : p.exprStack (.call callee arguments link place) ≤ a.method.maxStack) :
    a.Performs c p d bound n (code ++ if p.returnsValue link then [{ op := .pop }] else []) true
      (p.exec (p.call n) (n + 1) (.call callee arguments link place)) := by
  intro pre post hcode hpost fields locals
  rw [Program.exec]
  cases hv : p.returnsValue link with
  | true =>
    rw [hv, if_pos rfl] at hcode
    obtain ⟨hpop, hfollows⟩ := h.follows_taken ha hcalls hdepth hv hcode hstack fields locals
    refine hfollows.andThen ?_
    rintro v fields t rfl
    refine .step (steps_pop hpop (Or.inl rfl)) (.done ⟨rfl, ?_⟩)
    rw [List.append_assoc]
    rfl
  | false =>
    rw [hv, if_neg (by simp), List.append_nil] at hcode
    rw [if_neg (by simp), List.append_nil]
    refine (h.follows ha hcalls hdepth hcode (hpost rfl) (by simpa using hstack) fields
      locals).andThen ?_
    rintro v fields t rfl
    rw [if_neg (by simp [Program.yieldsValue, hv])]
    exact .done ⟨rfl, rfl⟩

omit hcalls hdepth in
theorem Activation.performs_leave {place : Position} (hd : d.type = .void) :
    a.Performs c p d bound n [{ op := .vreturn }] false
      (p.exec (p.call n) (n + 1) (.exit .absent place)) := by
  intro pre post hcode _ fields locals
  rw [Program.exec]
  exact .done (steps_returnNothing hcode (ha.operation_vreturn hd pre))

theorem Activation.performs_answer {value : Node} {place : Position} {code : Code}
    (hd : d.type = .int) (h : ExpressionCode (EmitContext.ofProcedure p pool d) value code)
    (hv : p.yieldsValue value = true) (hstack : p.exprStack value ≤ a.method.maxStack) :
    a.Performs c p d bound n (code ++ [{ op := .ireturn }]) false
      (p.exec (p.call n) (n + 1) (.exit value place)) := by
  intro pre post hcode _ fields locals
  obtain ⟨hreturn, hfollows⟩ := h.follows_taken ha hcalls hdepth hv hcode hstack fields locals
  have hpresent : value ≠ .absent := by
    rintro rfl
    cases h
  rw [Program.exec_exit hpresent]
  refine hfollows.andThen ?_
  rintro v fields t rfl
  exact .done (steps_returnValue hreturn (ha.operation_ireturn hd _))

/-- The else code stands in front of the then code, and jumps over it if it completes. -/
theorem Activation.performs_select {condition : Node} {condCode thenCode elseCode : Code}
    (h : ExpressionCode (EmitContext.ofProcedure p pool d) condition condCode)
    (hv : p.yieldsValue condition = true) (hstack : 1 + p.exprStack condition ≤ a.method.maxStack)
    {thenCompletes elseCompletes : Bool}
    {thens elses : LocalValues → FieldValues → EvalOutcome Program.Flow}
    (hthens : a.Performs c p d bound n thenCode thenCompletes thens)
    (hempty : thenCode = [] → thenCompletes = true)
    (helses : a.Performs c p d bound n elseCode elseCompletes elses) :
    a.Performs c p d bound n
      (selectCode condCode (elseCode ++ joinCode elseCompletes thenCode) thenCode)
      (thenCompletes || elseCompletes) (fun locals fields =>
        (p.eval (p.call n) locals condition fields).andThen fun value fields =>
          if value = 1 then thens locals fields else elses locals fields) := by
  intro pre post hcode hpost fields locals
  obtain ⟨join, hjoin⟩ : ∃ join, join = joinCode elseCompletes thenCode := ⟨_, rfl⟩
  obtain ⟨skip, hskip⟩ : ∃ skip : Instruction,
      skip = ⟨.ifEq, ((elseCode ++ join).size + 3 : Nat), false⟩ := ⟨_, rfl⟩
  have hskipSize : skip.size = 3 := by rw [hskip]; rfl
  -- the four parts behind each other, and where each of them lies
  have hselect : selectCode condCode (elseCode ++ joinCode elseCompletes thenCode) thenCode =
      { op := .iconst1 } :: (condCode ++ skip :: (elseCode ++ (join ++ thenCode))) := by
    rw [selectCode, ← hjoin, hskip, List.append_assoc]
  rw [hselect] at hcode ⊢
  have hcondition : a.raw.code = pre ++ { op := .iconst1 } :: (condCode ++ skip ::
      (elseCode ++ (join ++ (thenCode ++ post)))) := by
    rw [hcode]; simp
  have helse : a.raw.code = (pre ++ { op := .iconst1 } :: (condCode ++ [skip])) ++ (elseCode ++
      (join ++ (thenCode ++ post))) := by
    rw [hcode]; simp
  have hthen : a.raw.code = (pre ++ { op := .iconst1 } :: (condCode ++ skip ::
      (elseCode ++ join))) ++ (thenCode ++ post) := by
    rw [hcode]; simp
  have hend : a.raw.code = (pre ++ { op := .iconst1 } :: (condCode ++ skip ::
      (elseCode ++ (join ++ thenCode)))) ++ post := by
    rw [hcode]; simp
  -- there is code behind what completes
  have hthenPost (hc : thenCompletes = true) : post ≠ [] :=
    hpost (by rw [hc, Bool.true_or])
  have hthenNonempty : thenCode ++ post ≠ [] := by
    intro hnil
    rw [List.append_eq_nil_iff] at hnil
    exact hthenPost (hempty hnil.1) hnil.2
  have helsePost (hc : elseCompletes = true) : join ++ (thenCode ++ post) ≠ [] := by
    simp [hjoin, joinCode, hc]
  -- the test goes to the then code for 1 and to the else code else
  refine (h.follows_test ha hcalls hdepth hv rfl hskip hcondition hthen hthenNonempty (by
    simp [hskipSize]
    omega) hstack fields locals).andThen ?_
  rintro v fields t rfl
  by_cases hone : v = 1
  · rw [if_pos hone, if_pos hone]
    refine (hthens _ _ hthen hthenPost fields locals).extend ?_
    intro flow fields t hflow
    cases flow with
    | returns value => exact .done hflow
    | goesOn locals =>
      obtain ⟨hc, rfl⟩ := hflow
      exact .done ⟨by rw [hc, Bool.true_or], by simp⟩
  · rw [if_neg hone, if_neg hone]
    refine (helses _ _ helse helsePost fields locals).extend ?_
    intro flow fields t hflow
    cases flow with
    | returns value => exact .done hflow
    | goesOn locals =>
      -- the else code that completes is followed by the jump over the then code
      obtain ⟨hc, rfl⟩ := hflow
      have hcompletes : (thenCompletes || elseCompletes) = true := by rw [hc, Bool.or_true]
      rw [joinCode, if_pos hc] at hjoin
      rw [hjoin] at helse hend
      have hjump : a.operation (pre ++ { op := .iconst1 } :: (condCode ++ [skip]) ++ elseCode)
          ⟨.goto, (thenCode.size + 3 : Nat), false⟩ = .jump (.ok _) :=
        operation_goto hend (hpost hcompletes) (by
          simp [Instruction.size, Opcode.size, Opcode.operand, OperandKind.size]
          omega)
      have hjumpCode : a.raw.code = (pre ++ { op := .iconst1 } :: (condCode ++ [skip]) ++
          elseCode) ++ ⟨.goto, (thenCode.size + 3 : Nat), false⟩ :: (thenCode ++ post) := by
        rw [helse]; simp
      exact .step (steps_jump hjumpCode hjump) (.done ⟨hcompletes, by rw [hjoin]; rfl⟩)

/-- The body is followed by a jump back to the condition. -/
theorem Activation.performs_repeat {condition : Node} {condCode bodyCode : Code}
    (h : ExpressionCode (EmitContext.ofProcedure p pool d) condition condCode)
    (hv : p.yieldsValue condition = true) (hstack : 1 + p.exprStack condition ≤ a.method.maxStack)
    {bodyCompletes : Bool} {body : LocalValues → FieldValues → EvalOutcome Program.Flow}
    (hbody : a.Performs c p d bound n bodyCode bodyCompletes body) :
    a.Performs c p d bound n (repeatCode condCode bodyCode) true
      (Program.repeatWhile (fun locals fields => p.eval (p.call n) locals condition fields) body
        (n + 1)) := by
  intro pre post hcode hpost fields locals
  obtain ⟨leave, hleave⟩ : ∃ leave : Instruction,
      leave = ⟨.ifEq, (bodyCode.size + 6 : Nat), false⟩ := ⟨_, rfl⟩
  obtain ⟨again, hagain⟩ : ∃ again : Instruction,
      again = ⟨.goto, -(bodyCode.size + 3 + condCode.size + 1 : Nat), false⟩ := ⟨_, rfl⟩
  have hleaveSize : leave.size = 3 := by rw [hleave]; rfl
  have hagainSize : again.size = 3 := by rw [hagain]; rfl
  have hzeroSize : ({ op := .iconst0 } : Instruction).size = 1 := rfl
  -- the condition, the body and the jump, and where each of them lies
  have hrepeat : repeatCode condCode bodyCode =
      { op := .iconst0 } :: (condCode ++ leave :: (bodyCode ++ [again])) := by
    rw [repeatCode, hleave, hagain]
  rw [hrepeat] at hcode ⊢
  have hcondition : a.raw.code = pre ++ { op := .iconst0 } :: (condCode ++ leave ::
      (bodyCode ++ again :: post)) := by
    rw [hcode]; simp
  have hround : a.raw.code = (pre ++ { op := .iconst0 } :: (condCode ++ [leave])) ++ (bodyCode ++
      (again :: post)) := by
    rw [hcode]; simp
  have hback : a.raw.code = (pre ++ { op := .iconst0 } :: (condCode ++ [leave]) ++ bodyCode) ++
      again :: post := by
    rw [hcode]; simp
  have hend : a.raw.code = (pre ++ { op := .iconst0 } :: (condCode ++ leave ::
      (bodyCode ++ [again]))) ++ post := by
    rw [hcode]; simp
  have hstart : a.raw.code = pre ++ ({ op := .iconst0 } :: (condCode ++ leave ::
      (bodyCode ++ [again]) ++ post)) := by
    rw [hcode]; simp
  -- the jump leads back to the start
  have hjump : a.operation (pre ++ { op := .iconst0 } :: (condCode ++ [leave]) ++ bodyCode) again =
      .jump (.ok pre.length) := by
    rw [hagain]
    refine operation_goto hstart (by simp) ?_
    simp [hleaveSize, hzeroSize]
    omega
  -- and the test leads behind the jump
  have htarget : ((pre ++ { op := .iconst0 } :: condCode).size : Int) + (bodyCode.size + 6 : Nat) =
      (pre ++ { op := .iconst0 } :: (condCode ++ leave :: (bodyCode ++ [again]))).size := by
    simp [hleaveSize, hagainSize]
    omega
  exact follows_repeatWhile
    (fun fields locals => h.follows_test ha hcalls hdepth hv rfl hleave hcondition hend (hpost rfl)
      htarget hstack fields locals)
    (fun fields locals => hbody _ _ hround (by simp) fields locals)
    (fun fields locals => steps_jump hback hjump) (Nat.le_refl _) fields locals

end Forms

/-- Only statements that complete have no code. -/
theorem StatementsCode.allComplete_of_eq_nil {e : EmitContext} {ss : List Node} {code : Code}
    (h : StatementsCode e d ss code) (hcode : code = []) : Node.allComplete ss = true := by
  cases h with
  | nil => rfl
  | cons hs =>
    have hpos := hs.length_pos
    rw [List.append_eq_nil_iff] at hcode
    rw [hcode.1] at hpos
    cases hpos

mutual

/-- A run of the code of a statement follows its evaluation. -/
theorem StatementCode.performs (ha : a.Runs c m p pool f d)
    (hcalls : CallsFollow c m p pool f bound n) (hdepth : a.depth + (n + 1) = bound) {s : Node}
    {code : Code} (h : StatementCode (EmitContext.ofProcedure p pool d) d s code)
    (hstack : p.stmtStack s ≤ a.method.maxStack) :
    a.Performs c p d bound n code s.completes (p.exec (p.call n) (n + 1) s) := by
  cases h with
  | assignSlot he _ ht hs h hv =>
    exact performs_assignSlot ha hcalls hdepth he ht hs h hv
      (by simpa [Program.stmtStack] using hstack)
  | assignField he hk ht hr h hv =>
    exact performs_assignField ha hcalls hdepth he hk ht hr h hv
      (by simpa [Program.stmtStack] using hstack)
  | call h => exact performs_call ha hcalls hdepth h (by simpa [Program.stmtStack] using hstack)
  | leave hd => exact performs_leave ha hd
  | answer hd h hv =>
    exact performs_answer ha hcalls hdepth hd h hv (by simpa [Program.stmtStack] using hstack)
  | branch hcond hv ht he =>
    rw [Program.stmtStack, Program.stmtStack, Program.stmtStack] at hstack
    have hselect := performs_select ha hcalls hdepth hcond hv (by omega)
      (ht.performs ha hcalls hdepth (by omega)) ht.allComplete_of_eq_nil
      (he.performs ha hcalls hdepth (by omega))
    intro pre post hcode hpost fields locals
    simp only [Program.exec, Node.completes] at hpost ⊢
    exact hselect pre post hcode hpost fields locals
  | loop hcond hv hb =>
    rw [Program.stmtStack, Program.stmtStack] at hstack
    have hrepeat := performs_repeat ha hcalls hdepth hcond hv (by omega)
      (hb.performs ha hcalls hdepth (by omega))
    intro pre post hcode hpost fields locals
    simp only [Program.exec]
    exact hrepeat pre post hcode hpost fields locals

/-- Likewise for several statements. -/
theorem StatementsCode.performs (ha : a.Runs c m p pool f d)
    (hcalls : CallsFollow c m p pool f bound n) (hdepth : a.depth + (n + 1) = bound)
    {ss : List Node} {code : Code}
    (h : StatementsCode (EmitContext.ofProcedure p pool d) d ss code)
    (hstack : p.stmtsStack ss ≤ a.method.maxStack) :
    a.Performs c p d bound n code (Node.allComplete ss) (p.execAll (p.call n) (n + 1) ss) := by
  intro pre post hcode hpost fields locals
  cases h with
  | nil =>
    rw [Program.execAll, List.append_nil]
    exact .done ⟨rfl, rfl⟩
  | @cons s rest code others hs hreach hr =>
    rw [Program.execAll]
    rw [Program.stmtsStack] at hstack
    have hfirst : a.raw.code = pre ++ (code ++ (others ++ post)) := by
      rw [hcode]; simp
    have hrest : a.raw.code = (pre ++ code) ++ (others ++ post) := by
      rw [hcode]; simp
    -- there is code behind the first statement if control gets there
    have hnonempty (hs' : s.completes = true) : others ++ post ≠ [] := by
      intro hnil
      rw [List.append_eq_nil_iff] at hnil
      exact hpost (by rw [Node.allComplete, hs', hr.allComplete_of_eq_nil hnil.1]; rfl) hnil.2
    refine (hs.performs ha hcalls hdepth (by omega) _ _ hfirst hnonempty fields locals).andThen ?_
    intro flow fields t ht
    cases flow with
    | returns value => exact .done ht
    | goesOn locals =>
      obtain ⟨hs', rfl⟩ := ht
      have hfollows := hr.performs ha hcalls hdepth (by omega) _ _ hrest
        (fun hall => hpost (by rw [Node.allComplete, hs', hall]; rfl)) fields locals
      rw [Node.allComplete, hs', Bool.true_and, ← List.append_assoc]
      exact hfollows

end

/-! ### Procedures -/

/-- The run of a call follows the evaluation of its procedure, whatever the fuel. -/
theorem callsFollow (c : RunContext) (m : Machine) (p : Program) (pool : PoolBuilder)
    (f : ClassFile) (bound n : Nat) : CallsFollow c m p pool f bound n := by
  induction n with
  | zero => exact fun a id d arguments fields _ _ _ _ _ => .unfinished _
  | succ n ih =>
    intro a id d arguments fields hd hk harguments ha hdepth
    obtain ⟨statements, body, hlayout, hcode⟩ := ha.method.layout
    obtain ⟨place, hbody⟩ := hlayout.body_eq
    have hcode : a.raw.code = [] ++ (body ++ EmitContext.tail d) := hcode
    -- the stack has room for the body, and an end follows a body that completes
    have hmax : a.method.maxStack = EmitContext.stackOf p d := ha.method.maxStack_eq
    have hstack : p.stmtsStack statements ≤ a.method.maxStack := by
      rw [hmax, EmitContext.stackOf, hlayout.stmtStack_eq]
      omega
    have htail (hc : Node.allComplete statements = true) : EmitContext.tail d ≠ [] := by
      rw [← hlayout.completes_eq] at hc
      cases hd : d.type with
      | void => simp [EmitContext.tail_of_void hc hd]
      | int => simp [EmitContext.tail_of_int hc hd]
    simp only [Program.call, hd]
    rw [hbody, Program.exec]
    refine (hlayout.code.performs ha ih hdepth hstack _ _ hcode htail fields _).andThen ?_
    intro flow fields t hflow
    cases flow with
    | returns value => exact .done hflow
    | goesOn locals =>
      -- the return behind a body that completes
      obtain ⟨hc, rfl⟩ := hflow
      rw [← hlayout.completes_eq] at hc
      rw [List.nil_append] at hcode ⊢
      cases htype : d.type with
      | void =>
        rw [EmitContext.tail_of_void hc htype] at hcode
        exact .done (steps_returnNothing hcode (ha.operation_vreturn htype body))
      | int =>
        rw [EmitContext.tail_of_int hc htype] at hcode
        have hroom : ([] : List Int32).length < a.method.maxStack := by
          rw [hmax]
          exact EmitContext.stackOf_pos p hc htype
        have hlast : a.raw.code = (body ++ [{ op := .iconst0 }]) ++ [{ op := .ireturn }] := by
          rw [hcode]; simp
        exact .step (steps_push hcode rfl hroom)
          (.done (steps_returnValue hlast (ha.operation_ireturn htype _)))

end Trees

end Classwright
