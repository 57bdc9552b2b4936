import Classwright.Proofs.Emit.Layout
import Classwright.Proofs.Numbering

/-!
# The methods of procedures

The method of a procedure of a checked program holds the code of its statements, laid out by the
rules, and the return behind it (`EmitContext.procedureCode_eq_ok`).  Only certain instructions are
emitted (`EmitContext.Emits`), and they fit their bytes.  The stack that is counted for them is never
higher than the code is long (`StatementsCode.stmtsStack_le`), so that it fits the method too.
-/

namespace Classwright

/-! ### Sizes -/

theorem operatorCode?_length_pos {op : Operator} {code : Code} (h : operatorCode? op = some code) :
    0 < code.length := by
  cases op <;> simp only [operatorCode?, Option.some.injEq, reduceCtorEq] at h <;> subst h <;>
    simp [comparisonCode]

theorem ExpressionCode.length_pos {c : EmitContext} {e : Node} {code : Code}
    (h : ExpressionCode c e code) : 0 < code.length := by
  cases h with
  | literal | constant | slot | field => exact Nat.one_pos
  | call => simp
  | binary hop =>
    have hpos := operatorCode?_length_pos hop
    simp only [List.length_append]
    omega

theorem StatementCode.length_pos {c : EmitContext} {d : Declaration} {s : Node} {code : Code}
    (h : StatementCode c d s code) : 0 < code.length := by
  cases h with
  | assignSlot | assignField | leave | answer => simp
  | call hcall =>
    have hpos := hcall.length_pos
    rw [List.length_append]
    omega
  | branch => exact Nat.succ_pos _
  | loop => exact Nat.succ_pos _

mutual

/-- The stack counted for an expression is not higher than its code is long. -/
theorem ExpressionCode.exprStack_le {c : EmitContext} {e : Node} {code : Code}
    (h : ExpressionCode c e code) : c.program.exprStack e ≤ code.length := by
  cases h with
  | literal | constant | slot | field => exact Nat.le_refl 1
  | call _ _ _ _ ha =>
    have hargs := ha.argumentStack_le 0
    rw [Program.exprStack, List.length_append, List.length_singleton]
    split <;> omega
  | binary hop hl _ hr =>
    have hleft := hl.exprStack_le
    have hright := hr.exprStack_le
    have hpos := operatorCode?_length_pos hop
    simp only [Program.exprStack, List.length_append]
    omega

/-- Likewise for arguments. -/
theorem ArgumentsCode.argumentStack_le {c : EmitContext} {es : List Node} {code : Code}
    (h : ArgumentsCode c es code) (below : Nat) :
    c.program.argumentStack below es ≤ below + code.length := by
  cases h with
  | nil => exact Nat.zero_le _
  | cons he _ hr =>
    have hfirst := he.exprStack_le
    have hpos := he.length_pos
    have hrest := hr.argumentStack_le (below + 1)
    rw [Program.argumentStack, List.length_append]
    omega

end

mutual

/-- The stack counted for a statement is not higher than its code is long. -/
theorem StatementCode.stmtStack_le {c : EmitContext} {d : Declaration} {s : Node} {code : Code}
    (h : StatementCode c d s code) : c.program.stmtStack s ≤ code.length := by
  cases h with
  | assignSlot _ _ _ _ he | assignField _ _ _ _ he | call he | answer _ he =>
    have hvalue := he.exprStack_le
    rw [Program.stmtStack, List.length_append]
    omega
  | leave => exact Nat.zero_le _
  | branch hc _ ht he =>
    have hcond := hc.exprStack_le
    have hthens := ht.stmtsStack_le
    have helses := he.stmtsStack_le
    simp only [Program.stmtStack, selectCode, List.length_cons, List.length_append]
    omega
  | loop hc _ hb =>
    have hcond := hc.exprStack_le
    have hbody := hb.stmtsStack_le
    simp only [Program.stmtStack, repeatCode, List.length_cons, List.length_append]
    omega

/-- Likewise for several statements. -/
theorem StatementsCode.stmtsStack_le {c : EmitContext} {d : Declaration} {ss : List Node}
    {code : Code} (h : StatementsCode c d ss code) : c.program.stmtsStack ss ≤ code.length := by
  cases h with
  | nil => exact Nat.le_refl 0
  | cons hs _ hr =>
    have hfirst := hs.stmtStack_le
    have hrest := hr.stmtsStack_le
    rw [Program.stmtsStack, List.length_append]
    omega

end

/-! ### Bytes -/

theorem toNat_le (n : UInt16) : n.toNat ≤ 0xFFFF :=
  Nat.le_of_lt_succ n.toNat_lt

/-- The cases in which a number is pushed. -/
theorem EmitContext.push_eq_ok {c : EmitContext} {v : Int32} {place : Position} {i : Instruction}
    (h : c.push v place = .ok i) :
    (fitsByte v.toInt = true ∧ i = { op := .bipush, operand := v.toInt }) ∨
      (fitsShortPush v.toInt = true ∧ i = { op := .sipush, operand := v.toInt }) ∨
      ∃ index, c.pool.integers[v]? = some index ∧
        (index.toNat ≤ 0xFF ∧ i = { op := .ldc, operand := index.toNat } ∨
          i = { op := .ldcW, operand := index.toNat }) := by
  unfold EmitContext.push at h
  split at h
  · rename_i hbyte
    exact Or.inl ⟨hbyte, (Except.ok.inj h).symm⟩
  · split at h
    · rename_i hshort
      exact Or.inr (Or.inl ⟨hshort, (Except.ok.inj h).symm⟩)
    · split at h
      · simp at h
      · rename_i index hindex
        refine Or.inr (Or.inr ⟨index, hindex, ?_⟩)
        rw [Except.ok.injEq] at h
        subst h
        by_cases hsmall : index ≤ 0xFF
        · rw [if_pos hsmall]
          exact Or.inl ⟨UInt16.le_iff_toNat_le.1 hsmall, rfl⟩
        · rw [if_neg hsmall]
          exact Or.inr rfl

/-- The instructions that are emitted in a context. -/
inductive EmitContext.Emits (c : EmitContext) : Instruction → Prop
  | push {v : Int32} {place : Position} {i : Instruction} (h : c.push v place = .ok i) : Emits c i
  | load {id : DeclId} {n : Nat} (h : c.slots[id]? = some n) : Emits c (loadSlot n)
  | store {id : DeclId} {n : Nat} (h : c.slots[id]? = some n) : Emits c (storeSlot n)
  | field {op : Opcode} {id : DeclId} {d : Declaration} {index : UInt16}
      (hop : op = .getStatic ∨ op = .putStatic) (hd : c.program.decl? id = some d)
      (hk : d.kind ≠ .procedure) (hr : c.pool.refs[id]? = some index) :
      Emits c { op, operand := index.toNat }
  | invoke {id : DeclId} {d : Declaration} {index : UInt16} (hd : c.program.decl? id = some d)
      (hk : d.kind = .procedure) (hr : c.pool.refs[id]? = some index) :
      Emits c { op := .invokeStatic, operand := index.toNat }
  | plain {op : Opcode} (hop : op ∈ [.iconst0, .iconst1, .pop, .iadd, .isub, .imul, .idiv, .ireturn,
      .vreturn]) : Emits c { op }
  | branch {op : Opcode} {v : Int} (hop : op.operand = .branch) (hv : fitsBranch v = true) :
      Emits c { op, operand := v }

theorem emits_operatorCode? (c : EmitContext) {op : Operator} {code : Code}
    (h : operatorCode? op = some code) : ∀ i ∈ code, c.Emits i := by
  have hcompare (op : Opcode) (hop : op.operand = .branch) : ∀ i ∈ comparisonCode op, c.Emits i := by
    simp only [comparisonCode, List.forall_mem_cons]
    exact ⟨.branch hop (by decide), .plain (by simp), .branch rfl (by decide), .plain (by simp),
      by simp⟩
  cases op <;> simp only [operatorCode?, Option.some.injEq, reduceCtorEq] at h <;> subst h
  all_goals first
    | exact hcompare _ rfl
    | exact List.forall_mem_singleton.2 (.plain (by simp))

mutual

/-- The instructions of an expression. -/
theorem ExpressionCode.emits {c : EmitContext} {e : Node} {code : Code}
    (h : ExpressionCode c e code) : ∀ i ∈ code, c.Emits i := by
  cases h with
  | literal hi => exact List.forall_mem_singleton.2 (.push hi)
  | constant _ _ hi => exact List.forall_mem_singleton.2 (.push hi)
  | slot _ _ _ hn => exact List.forall_mem_singleton.2 (.load hn)
  | field hd hk _ hr =>
    exact List.forall_mem_singleton.2 (.field (Or.inl rfl) hd (by simp [hk]) hr)
  | call hd hk _ hr ha =>
    exact List.forall_mem_append.2 ⟨ha.emits, List.forall_mem_singleton.2 (.invoke hd hk hr)⟩
  | binary hop hl _ hr =>
    exact List.forall_mem_append.2 ⟨hl.emits,
      List.forall_mem_append.2 ⟨hr.emits, emits_operatorCode? c hop⟩⟩

/-- The instructions of arguments. -/
theorem ArgumentsCode.emits {c : EmitContext} {es : List Node} {code : Code}
    (h : ArgumentsCode c es code) : ∀ i ∈ code, c.Emits i := by
  cases h with
  | nil => simp
  | cons he _ hr => exact List.forall_mem_append.2 ⟨he.emits, hr.emits⟩

end

theorem emits_joinCode (c : EmitContext) {joins : Bool} {thenCode : Code}
    (h : joins = true → fitsBranch (thenCode.size + 3 : Nat) = true) :
    ∀ i ∈ joinCode joins thenCode, c.Emits i := by
  cases joins with
  | true => exact List.forall_mem_singleton.2 (.branch rfl (h rfl))
  | false => simp [joinCode]

mutual

/-- The instructions of a statement. -/
theorem StatementCode.emits {c : EmitContext} {d : Declaration} {s : Node} {code : Code}
    (h : StatementCode c d s code) : ∀ i ∈ code, c.Emits i := by
  cases h with
  | assignSlot _ _ _ hn he =>
    exact List.forall_mem_append.2 ⟨he.emits, List.forall_mem_singleton.2 (.store hn)⟩
  | assignField hd hk _ hr he =>
    exact List.forall_mem_append.2 ⟨he.emits,
      List.forall_mem_singleton.2 (.field (Or.inr rfl) hd (by simp [hk]) hr)⟩
  | call he =>
    refine List.forall_mem_append.2 ⟨he.emits, ?_⟩
    split
    · exact List.forall_mem_singleton.2 (.plain (by simp))
    · simp
  | leave => exact List.forall_mem_singleton.2 (.plain (by simp))
  | answer _ he =>
    exact List.forall_mem_append.2 ⟨he.emits, List.forall_mem_singleton.2 (.plain (by simp))⟩
  | branch hc _ ht he hskip hjoin =>
    exact List.forall_mem_cons.2 ⟨.plain (by simp), List.forall_mem_append.2 ⟨hc.emits,
      List.forall_mem_cons.2 ⟨.branch rfl hskip, List.forall_mem_append.2
        ⟨List.forall_mem_append.2 ⟨he.emits, emits_joinCode c hjoin⟩, ht.emits⟩⟩⟩⟩
  | loop hc _ hb hleave hagain =>
    exact List.forall_mem_cons.2 ⟨.plain (by simp), List.forall_mem_append.2 ⟨hc.emits,
      List.forall_mem_cons.2 ⟨.branch rfl hleave, List.forall_mem_append.2
        ⟨hb.emits, List.forall_mem_singleton.2 (.branch rfl hagain)⟩⟩⟩⟩

/-- The instructions of several statements. -/
theorem StatementsCode.emits {c : EmitContext} {d : Declaration} {ss : List Node} {code : Code}
    (h : StatementsCode c d ss code) : ∀ i ∈ code, c.Emits i := by
  cases h with
  | nil => simp
  | cons hst _ hr => exact List.forall_mem_append.2 ⟨hst.emits, hr.emits⟩

end

namespace EmitContext

theorem tail_eq_nil {d : Declaration} (h : d.body.completes = false) : tail d = [] := by
  simp [tail, h]

theorem tail_of_void {d : Declaration} (h : d.body.completes = true) (hd : d.type = .void) :
    tail d = [{ op := .vreturn }] := by
  simp [tail, h, hd]

theorem tail_of_int {d : Declaration} (h : d.body.completes = true) (hd : d.type = .int) :
    tail d = [{ op := .iconst0 }, { op := .ireturn }] := by
  simp [tail, h, hd]

theorem emits_tail (c : EmitContext) (d : Declaration) : ∀ i ∈ tail d, c.Emits i := by
  unfold tail
  split
  · cases d.type with
    | void => exact List.forall_mem_singleton.2 (.plain (by simp))
    | int =>
      exact List.forall_mem_cons.2 ⟨.plain (by simp), List.forall_mem_singleton.2 (.plain (by simp))⟩
  · simp

/-- The slots of a context are below a number. -/
def SlotsBelow (c : EmitContext) (n : Nat) : Prop :=
  ∀ (id : DeclId) (slot : Nat), c.slots[id]? = some slot → slot < n

theorem encodable_cut_slot {op : Opcode} (hop : op = .iload ∨ op = .istore) (n : Nat) :
    ({ op, operand := n, wide := decide (0xFF < n) } : Instruction).cut.Encodable := by
  by_cases hwide : 0xFF < n
  · have hcut : ((n : Int) % 0x10000) = (n % 0x10000 : Nat) := by omega
    rw [decide_eq_true hwide, Instruction.cut, if_pos rfl]
    dsimp only
    rw [hcut]
    exact .wide hop (by omega)
  · rw [decide_eq_false hwide, Instruction.cut, if_neg Bool.false_ne_true]
    exact .index (Or.inl (by rcases hop with rfl | rfl <;> rfl)) (Nat.le_of_not_lt hwide)

/-- Emitted instructions fit their bytes once their slots are cut down to two bytes. -/
theorem Emits.encodable_cut {c : EmitContext} {i : Instruction} (h : c.Emits i) :
    i.cut.Encodable := by
  cases h with
  | push h =>
    rcases push_eq_ok h with ⟨hv, rfl⟩ | ⟨hv, rfl⟩ | ⟨index, -, ⟨hsmall, rfl⟩ | rfl⟩
    · simp only [fitsByte, Bool.and_eq_true, decide_eq_true_eq] at hv
      exact .byte rfl hv.1 hv.2
    · simp only [fitsShortPush, Bool.and_eq_true, decide_eq_true_eq] at hv
      exact .short (Or.inl rfl) (by omega) hv.2
    · exact .index (Or.inr rfl) hsmall
    · exact .longIndex rfl (toNat_le index)
  | @load id n =>
    match n with
    | 0 | 1 | 2 | 3 => exact .none rfl rfl
    | n + 4 => exact encodable_cut_slot (Or.inl rfl) (n + 4)
  | @store id n =>
    match n with
    | 0 | 1 | 2 | 3 => exact .none rfl rfl
    | n + 4 => exact encodable_cut_slot (Or.inr rfl) (n + 4)
  | field hop => exact .longIndex (by rcases hop with rfl | rfl <;> rfl) (toNat_le _)
  | invoke => exact .longIndex rfl (toNat_le _)
  | plain hop =>
    have hboth : ∀ op ∈ [Opcode.iconst0, .iconst1, .pop, .iadd, .isub, .imul, .idiv, .ireturn,
        .vreturn], op.isListed = true ∧ op.operand = .none := by decide
    exact .none (hboth _ hop).1 (hboth _ hop).2
  | branch hop hv =>
    simp only [fitsBranch, Bool.and_eq_true, decide_eq_true_eq] at hv
    exact .short (Or.inr hop) hv.1 hv.2

theorem cut_loadSlot {n : Nat} (h : n ≤ 0xFFFF) : (loadSlot n).cut = loadSlot n := by
  match n with
  | 0 | 1 | 2 | 3 => rfl
  | n + 4 =>
    have hcut : ((n + 4 : Nat) : Int) % 0x10000 = (n + 4 : Nat) := by omega
    simp only [loadSlot, Instruction.cut, hcut, ite_self]

theorem cut_storeSlot {n : Nat} (h : n ≤ 0xFFFF) : (storeSlot n).cut = storeSlot n := by
  match n with
  | 0 | 1 | 2 | 3 => rfl
  | n + 4 =>
    have hcut : ((n + 4 : Nat) : Int) % 0x10000 = (n + 4 : Nat) := by omega
    simp only [storeSlot, Instruction.cut, hcut, ite_self]

/-- Only the slots of emitted instructions are ever cut. -/
theorem Emits.cut_eq {c : EmitContext} {n : Nat} (hs : c.SlotsBelow n) (hn : n ≤ 0x10000)
    {i : Instruction} (h : c.Emits i) : i.cut = i := by
  cases h with
  | push h =>
    rcases push_eq_ok h with ⟨hv, rfl⟩ | ⟨hv, rfl⟩ | ⟨index, -, ⟨hsmall, rfl⟩ | rfl⟩ <;> rfl
  | load h =>
    have hlt := hs _ _ h
    exact cut_loadSlot (by omega)
  | store h =>
    have hlt := hs _ _ h
    exact cut_storeSlot (by omega)
  | field | invoke | plain | branch => rfl

/-- Emitted instructions fit their bytes. -/
theorem Emits.encodable {c : EmitContext} {n : Nat} (hs : c.SlotsBelow n) (hn : n ≤ 0x10000)
    {i : Instruction} (h : c.Emits i) : i.Encodable :=
  h.cut_eq hs hn ▸ h.encodable_cut

end EmitContext

/-! ### Procedures -/

namespace EmitContext

/-- The context in which a procedure is emitted. -/
def ofProcedure (p : Program) (pool : PoolBuilder) (d : Declaration) : EmitContext :=
  { program := p, pool, procedure := d.name, slots := slotsOf (p.localsOf d) }

/-- The stack that a procedure needs. -/
def stackOf (p : Program) (d : Declaration) : Nat :=
  max (p.stmtStack d.body) (if d.body.completes && d.type == .int then 1 else 0)

theorem stackOf_pos (p : Program) {d : Declaration} (hc : d.body.completes = true)
    (hd : d.type = .int) : 0 < stackOf p d := by
  simp only [stackOf, hc, hd, beq_self_eq_true, Bool.and_self, if_true]
  omega

theorem slotsOf_eq (ids : List DeclId) :
    slotsOf ids = (numberFrom (fun id : DeclId => id) {} 0 ids).1 := rfl

/-- A declaration has the slot of its place. -/
theorem getElem?_slotsOf {ids : List DeclId} (h : ids.Nodup) (id : DeclId) (n : Nat) :
    (slotsOf ids)[id]? = some n ↔ ids[n]? = some id := by
  rw [slotsOf_eq, getElem?_numbering (fun id : DeclId => id) (by rwa [List.map_id']), List.map_id']

theorem size_slotsOf {ids : List DeclId} (h : ids.Nodup) : (slotsOf ids).size = ids.length := by
  rw [slotsOf_eq, size_numberFrom (fun id : DeclId => id) (by rwa [List.map_id']) (by simp)]
  simp

variable {p : Program} {pool : PoolBuilder} {id : DeclId} {d : Declaration}

/-- A procedure together with its table and its statements. -/
structure Layout (p : Program) (pool : PoolBuilder) (d : Declaration) (statements : List Node)
    (body : Code) : Prop where
  /-- The statements are those of the procedure. -/
  body_eq : ∃ place, d.body = .block statements place
  /-- Their code follows the rules. -/
  code : StatementsCode (ofProcedure p pool d) d statements body
  /-- With the return behind it, it is not too long. -/
  size_le : (body ++ tail d).size ≤ 0xFFFF

theorem fits_ofProcedure (hp : p.WellFormed) {t : TableId} {params vars : List DeclId}
    (ht : p.ProcedureTable d t params vars) : (ofProcedure p pool d).Fits t where
  wellFormed := hp
  ne_class := Nat.ne_of_gt ht.pos
  slot_iff id := by
    have hlocals : p.localsOf d = p.membersOf t := by rw [Program.localsOf, ht.locals_eq]
    have hnodup : (p.localsOf d).Nodup := hlocals ▸ hp.tidy.nodup_membersOf t
    simp only [ofProcedure, getElem?_slotsOf hnodup]
    rw [hlocals, ← List.mem_iff_getElem?, hp.tidy.mem_membersOf]

theorem nodup_localsOf (hp : p.WellFormed) (d : Declaration) : (p.localsOf d).Nodup := by
  unfold Program.localsOf
  split
  · exact hp.tidy.nodup_membersOf _
  · exact .nil

/-- The code of the body of a procedure, and the return behind it. -/
theorem exists_body_of_procedureCode {m : MethodCode} (h : procedureCode p pool d = .ok m) :
    ∃ body, (ofProcedure p pool d).statement d.body = .ok body ∧
      (body ++ tail d).size ≤ 0xFFFF ∧
      m = ⟨UInt16.ofNat (stackOf p d), UInt16.ofNat (slotsOf (p.localsOf d)).size,
        (body ++ tail d).encode⟩ := by
  simp only [procedureCode, bind_eq_ok] at h
  obtain ⟨body, hbody, h⟩ := h
  split at h
  · simp at h
  · rename_i hsize
    exact ⟨body, hbody, Nat.le_of_not_lt hsize, (pure_eq_ok.1 h).symm⟩

/-- What is emitted for the body of a procedure of a checked program follows the rules. -/
theorem exists_statementsCode (hp : p.Checked) (hd : p.decl? id = some d)
    (hk : d.kind = .procedure) {body : Code}
    (h : (ofProcedure p pool d).statement d.body = .ok body) :
    ∃ statements place, d.body = .block statements place ∧
      StatementsCode (ofProcedure p pool d) d statements body := by
  obtain ⟨t, params, vars, ht⟩ := hp.wellFormed.procedure id d hd hk
  obtain ⟨t', ht', hlinked⟩ := hp.linked id d hd hk
  obtain rfl : t' = t := Option.some.inj (ht'.symm.trans ht.locals_eq)
  have hchecks := hp.analyzed id d hd hk
  simp only [Program.analyzeProcedure, bind_eq_ok] at hchecks
  obtain ⟨_, hvalues, _, hreach, -⟩ := hchecks
  have hfits : (ofProcedure p pool d).Fits _ := fits_ofProcedure hp.wellFormed ht
  obtain ⟨statements, place, hblock, hstatements⟩ := hlinked.eq_block
  refine ⟨statements, place, hblock, ?_⟩
  rw [hblock] at hvalues hreach h
  exact statementsCode_of_forall (fun s hs _ => statementCode_of_statement hfits
    (hstatements s hs)) hvalues hreach h

/-- The method of a procedure of a checked program. -/
theorem procedureCode_eq_ok (hp : p.Checked) (hd : p.decl? id = some d) (hk : d.kind = .procedure)
    {m : MethodCode} (h : procedureCode p pool d = .ok m) :
    ∃ statements body, Layout p pool d statements body ∧
      m = ⟨UInt16.ofNat (stackOf p d), UInt16.ofNat (p.localsOf d).length,
        (body ++ tail d).encode⟩ := by
  obtain ⟨body, hbody, hsize, rfl⟩ := exists_body_of_procedureCode h
  obtain ⟨statements, place, hblock, hcode⟩ := exists_statementsCode hp hd hk hbody
  rw [size_slotsOf (nodup_localsOf hp.wellFormed d)]
  exact ⟨statements, body, ⟨⟨place, hblock⟩, hcode, hsize⟩, rfl⟩

namespace Layout

variable {statements : List Node} {body : Code}

theorem completes_eq (h : Layout p pool d statements body) :
    d.body.completes = Node.allComplete statements := by
  obtain ⟨place, hbody⟩ := h.body_eq
  rw [hbody, Node.completes]

theorem stmtStack_eq (h : Layout p pool d statements body) :
    p.stmtStack d.body = p.stmtsStack statements := by
  obtain ⟨place, hbody⟩ := h.body_eq
  rw [hbody, Program.stmtStack]

/-- The stack fits a number of two bytes. -/
theorem stackOf_le (h : Layout p pool d statements body) : stackOf p d ≤ 0xFFFF := by
  have hstack := h.code.stmtsStack_le
  have hlength := Code.length_le_size (body ++ tail d)
  have hsize := h.size_le
  rw [List.length_append] at hlength
  have hbody : p.stmtsStack statements ≤ 0xFFFF := by
    change p.stmtsStack statements ≤ body.length at hstack
    omega
  rw [stackOf, h.stmtStack_eq]
  split <;> omega

theorem slotsBelow (hp : p.WellFormed) (d : Declaration) :
    (ofProcedure p pool d).SlotsBelow (p.localsOf d).length := by
  intro id n hn
  rw [ofProcedure, getElem?_slotsOf (nodup_localsOf hp d)] at hn
  exact (List.getElem?_eq_some_iff.1 hn).1

theorem emits (h : Layout p pool d statements body) :
    ∀ i ∈ body ++ tail d, (ofProcedure p pool d).Emits i :=
  List.forall_mem_append.2 ⟨h.code.emits, emits_tail _ d⟩

theorem encodable (h : Layout p pool d statements body) (hp : p.WellFormed)
    (hslots : (p.localsOf d).length ≤ 0xFFFF) : ∀ i ∈ body ++ tail d, i.Encodable :=
  fun i hi => (h.emits i hi).encodable (slotsBelow hp d) (Nat.le_succ_of_le hslots)

end Layout

/-! ### The constructor -/

/-- `code` stores constants into their fields. -/
inductive StoresCode (c : EmitContext) : List DeclId → Code → Prop
  | nil : StoresCode c [] []
  | cons {id : DeclId} {d : Declaration} {rest : List DeclId} {i : Instruction} {index : UInt16}
      {code : Code} (hd : c.program.decl? id = some d) (hk : d.kind = .constant)
      (hi : c.push d.value d.position = .ok i) (hr : c.pool.refs[id]? = some index)
      (h : StoresCode c rest code) :
      StoresCode c (id :: rest) (i :: { op := .putStatic, operand := index.toNat } :: code)

theorem storesCode_of_storeConstants {c : EmitContext} {ids : List DeclId}
    (hids : ∀ id ∈ ids, ∃ d, c.program.decl? id = some d ∧ d.kind = .constant) {code : Code}
    (h : c.storeConstants ids = .ok code) : StoresCode c ids code := by
  induction ids generalizing code with
  | nil =>
    obtain rfl := Except.ok.inj h
    exact .nil
  | cons id rest ih =>
    rw [List.forall_mem_cons] at hids
    obtain ⟨⟨d, hd, hk⟩, hrest⟩ := hids
    simp only [storeConstants, hd, bind_eq_ok, pure_eq_ok] at h
    obtain ⟨i, hi, index, hindex, others, hothers, rfl⟩ := h
    obtain ⟨ref, href, rfl⟩ := reference_eq_ok hindex
    exact .cons hd hk hi href (ih hrest hothers)

theorem StoresCode.emits {c : EmitContext} {ids : List DeclId} {code : Code}
    (h : StoresCode c ids code) : ∀ i ∈ code, c.Emits i := by
  induction h with
  | nil => simp
  | cons hd hk hi hr _ ih =>
    exact List.forall_mem_cons.2 ⟨.push hi,
      List.forall_mem_cons.2 ⟨.field (Or.inr rfl) hd (by simp [hk]) hr, ih⟩⟩

/-- The code of the constructor around that of its stores. -/
def initCode (pool : PoolBuilder) (stores : Code) : Code :=
  { op := .aload0 } :: { op := .invokeSpecial, operand := pool.superInit.toNat } ::
    (stores ++ [{ op := .vreturn }])

theorem slotsBelow_init (p : Program) (pool : PoolBuilder) :
    ({ program := p, pool } : EmitContext).SlotsBelow 0 := by
  intro id slot h
  simp at h

theorem encodable_initCode {ids : List DeclId} {stores : Code}
    (h : StoresCode { program := p, pool } ids stores) : ∀ i ∈ initCode pool stores, i.Encodable :=
  List.forall_mem_cons.2 ⟨.none rfl rfl, List.forall_mem_cons.2
    ⟨.longIndex rfl (toNat_le _), List.forall_mem_append.2
      ⟨fun i hi => (h.emits i hi).encodable (slotsBelow_init p pool) (Nat.zero_le _),
        List.forall_mem_singleton.2 (.none rfl rfl)⟩⟩⟩

/-- The method of the constructor. -/
theorem constructorCode_eq_ok {m : MethodCode} (h : constructorCode p pool = .ok m) :
    ∃ stores, StoresCode { program := p, pool } p.constants stores ∧
      (initCode pool stores).size ≤ 0xFFFF ∧ m = ⟨1, 1, (initCode pool stores).encode⟩ := by
  simp only [constructorCode, bind_eq_ok] at h
  obtain ⟨stores, hstores, h⟩ := h
  split at h
  · simp at h
  · rename_i hsize
    refine ⟨stores, storesCode_of_storeConstants ?_ hstores, Nat.le_of_not_lt hsize,
      (pure_eq_ok.1 h).symm⟩
    intro id hid
    have hkind := (List.mem_filter.1 hid).2
    unfold Program.hasKind at hkind
    split at hkind
    · rename_i d hd
      exact ⟨d, hd, beq_iff_eq.1 hkind⟩
    · simp at hkind

end EmitContext

end Classwright
