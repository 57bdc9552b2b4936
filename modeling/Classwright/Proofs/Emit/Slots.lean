import Classwright.Proofs.Emit.Typed
import Classwright.Proofs.Machine.Compiled

/-!
# Slots of parameters and local variables

The loads and stores in the code of a procedure go in parallel with the reads and writes of
parameters and local variables in its statements, each with the number of its declaration, cut down
to the two bytes that a slot has (`Build.usesSlots`).  So a procedure with at most 65535 parameters
and local variables uses a slot of its own for each, and the slots are counted right; beyond that
number several declarations share a slot.
-/

namespace Classwright

/-- A use of a slot, or of the declaration that it stands for. -/
inductive SlotUse (α : Type) where
  /-- It is read. -/
  | load (x : α)
  /-- It is written. -/
  | store (x : α)
  deriving Repr, DecidableEq

/-- The use of what `g` gives for what is used. -/
def SlotUse.map {α β : Type} (g : α → β) : SlotUse α → SlotUse β
  | load x => load (g x)
  | store x => store (g x)

/-- What is used. -/
def SlotUse.target {α : Type} : SlotUse α → α
  | load x | store x => x

/-- The number that an instruction loads or stores. -/
def Instruction.slotUse? (i : Instruction) : Option (SlotUse Nat) :=
  match i.op with
  | .iload => some (.load i.operand.toNat)
  | .iload0 => some (.load 0)
  | .iload1 => some (.load 1)
  | .iload2 => some (.load 2)
  | .iload3 => some (.load 3)
  | .istore => some (.store i.operand.toNat)
  | .istore0 => some (.store 0)
  | .istore1 => some (.store 1)
  | .istore2 => some (.store 2)
  | .istore3 => some (.store 3)
  | _ => none

/-- The loads and stores of code, in order. -/
def Code.slotUses (code : Code) : List (SlotUse Nat) :=
  code.filterMap Instruction.slotUse?

@[simp] theorem Code.slotUses_append (code others : Code) :
    Code.slotUses (code ++ others) = code.slotUses ++ others.slotUses :=
  List.filterMap_append

/-! ### Uses in trees -/

namespace Program

variable (p : Program)

mutual

/-- The parameters and local variables that an expression reads, in the order of evaluation. -/
def expressionUses : Node → List (SlotUse DeclId)
  | .name _ (some id) _ => if p.isLocal id then [.load id] else []
  | .binary _ left right _ => expressionUses left ++ expressionUses right
  | .call _ arguments _ _ => argumentUses arguments
  | _ => []

/-- Those that arguments read. -/
def argumentUses : List Node → List (SlotUse DeclId)
  | [] => []
  | e :: rest => expressionUses e ++ argumentUses rest

end

mutual

/-- The parameters and local variables that a statement reads and writes, in the order of its code,
in which an `else` block stands in front of the other one. -/
def statementUses : Node → List (SlotUse DeclId)
  | .binary .assign (.name _ (some id) _) value _ =>
    p.expressionUses value ++ if p.isLocal id then [.store id] else []
  | .call _ arguments _ _ => p.argumentUses arguments
  | .exit value _ => p.expressionUses value
  | .branch condition thenBlock elseBlock _ =>
    p.expressionUses condition ++ (statementUses elseBlock ++ statementUses thenBlock)
  | .loop condition body _ => p.expressionUses condition ++ statementUses body
  | .block statements _ => statementsUses statements
  | _ => []

/-- Those that several statements read and write. -/
def statementsUses : List Node → List (SlotUse DeclId)
  | [] => []
  | s :: rest => statementUses s ++ statementsUses rest

end

/-- How many parameters and local variables a procedure has. -/
def slotCount (d : Declaration) : Nat :=
  d.arity + (p.localVariables d).length

/-- The number of a parameter or local variable in its procedure: the parameters come first, and
then the local variables, each in order. -/
def slotOf (d : Declaration) (id : DeclId) : Nat :=
  (p.localsOf d).idxOf id

variable {p}

theorem WellFormed.isLocal_of_table (hp : p.WellFormed) {id : DeclId} {d : Declaration}
    (hd : p.decl? id = some d) (ht : d.table ≠ classTable) : p.isLocal id = true := by
  rcases hp.local_kind id d hd ht with hk | hk
  · simp [isLocal, hasKind, hd, hk]
  · simp [isLocal, isLocalVariable, hd, hk, ht]

theorem isLocal_of_constant {id : DeclId} {d : Declaration} (hd : p.decl? id = some d)
    (hk : d.kind = .constant) : p.isLocal id = false := by
  simp [isLocal, isLocalVariable, hasKind, hd, hk]

theorem isLocal_of_field {id : DeclId} {d : Declaration} (hd : p.decl? id = some d)
    (hk : d.kind = .var) (ht : d.table = classTable) : p.isLocal id = false := by
  simp [isLocal, isLocalVariable, hasKind, hd, hk, ht]

end Program

/-! ### Uses in code -/

theorem slotUse?_loadSlot (n : Nat) : (loadSlot n).slotUse? = some (.load n) := by
  match n with
  | 0 | 1 | 2 | 3 => rfl
  | n + 4 => rfl

theorem slotUse?_storeSlot (n : Nat) : (storeSlot n).slotUse? = some (.store n) := by
  match n with
  | 0 | 1 | 2 | 3 => rfl
  | n + 4 => rfl

theorem slotUse?_of_push {c : EmitContext} {v : Int32} {place : Position} {i : Instruction}
    (h : c.push v place = .ok i) : i.slotUse? = none := by
  rcases EmitContext.push_eq_ok h with ⟨-, rfl⟩ | ⟨-, rfl⟩ | ⟨index, -, ⟨-, rfl⟩ | rfl⟩ <;> rfl

theorem slotUses_operatorCode? {op : Operator} {code : Code} (h : operatorCode? op = some code) :
    code.slotUses = [] := by
  cases op <;> simp only [operatorCode?, Option.some.injEq, reduceCtorEq] at h <;> subst h <;> rfl

theorem slotUses_joinCode (joins : Bool) (thenCode : Code) :
    (joinCode joins thenCode).slotUses = [] := by
  cases joins <;> rfl

variable {c : EmitContext} {slot : DeclId → Nat}

mutual

/-- The code of an expression loads the slots of what the expression reads. -/
theorem ExpressionCode.slotUses_eq (hp : c.program.WellFormed)
    (hslot : ∀ id n, c.slots[id]? = some n → slot id = n) {e : Node} {code : Code}
    (h : ExpressionCode c e code) :
    code.slotUses = (c.program.expressionUses e).map (SlotUse.map slot) := by
  cases h with
  | literal hi =>
    rw [Code.slotUses, List.filterMap_cons_none (slotUse?_of_push hi)]
    rfl
  | constant hd hk hi =>
    rw [Program.expressionUses, Program.isLocal_of_constant hd hk, Code.slotUses,
      List.filterMap_cons_none (slotUse?_of_push hi)]
    rfl
  | slot hd hk ht hn =>
    rw [Program.expressionUses, hp.isLocal_of_table hd ht, Code.slotUses,
      List.filterMap_cons_some (slotUse?_loadSlot _), ← hslot _ _ hn]
    rfl
  | field hd hk ht =>
    rw [Program.expressionUses, Program.isLocal_of_field hd hk ht]
    rfl
  | call _ _ _ _ ha =>
    have hcall {index : UInt16} :
        Code.slotUses [{ op := .invokeStatic, operand := index.toNat }] = [] := rfl
    rw [Program.expressionUses, Code.slotUses_append, ha.slotUses_eq hp hslot, hcall,
      List.append_nil]
  | binary hop hl _ hr =>
    rw [Program.expressionUses, Code.slotUses_append, Code.slotUses_append,
      hl.slotUses_eq hp hslot, hr.slotUses_eq hp hslot, slotUses_operatorCode? hop,
      List.append_nil, List.map_append]

/-- Likewise for arguments. -/
theorem ArgumentsCode.slotUses_eq (hp : c.program.WellFormed)
    (hslot : ∀ id n, c.slots[id]? = some n → slot id = n) {es : List Node} {code : Code}
    (h : ArgumentsCode c es code) :
    code.slotUses = (c.program.argumentUses es).map (SlotUse.map slot) := by
  cases h with
  | nil => rfl
  | cons he _ hr =>
    rw [Program.argumentUses, Code.slotUses_append, he.slotUses_eq hp hslot,
      hr.slotUses_eq hp hslot, List.map_append]

end

mutual

/-- The code of a statement loads and stores the slots of what the statement reads and writes. -/
theorem StatementCode.slotUses_eq (hp : c.program.WellFormed)
    (hslot : ∀ id n, c.slots[id]? = some n → slot id = n) {d : Declaration} {s : Node}
    {code : Code} (h : StatementCode c d s code) :
    code.slotUses = (c.program.statementUses s).map (SlotUse.map slot) := by
  cases h with
  | @assignSlot x id _ _ _ _ _ n he hk ht hn hvalue =>
    have hstore : Code.slotUses [storeSlot n] = [.store (slot id)] := by
      rw [Code.slotUses, List.filterMap_cons_some (slotUse?_storeSlot n), hslot id n hn]
      rfl
    rw [Program.statementUses, hp.isLocal_of_table he ht, if_pos rfl, Code.slotUses_append,
      hvalue.slotUses_eq hp hslot, hstore, List.map_append]
    rfl
  | assignField he hk ht hr hvalue =>
    rw [Program.statementUses, Program.isLocal_of_field he hk ht, if_neg Bool.false_ne_true,
      Code.slotUses_append, hvalue.slotUses_eq hp hslot, List.map_append]
    rfl
  | @call _ _ link _ _ hcall =>
    -- dropping an answer uses no slot
    have hpop : Code.slotUses (if c.program.returnsValue link then [{ op := .pop }] else []) =
        [] := by
      split <;> rfl
    rw [Program.statementUses, Code.slotUses_append, hcall.slotUses_eq hp hslot, hpop,
      List.append_nil, Program.expressionUses]
  | leave => rfl
  | answer _ hvalue =>
    have hreturn : Code.slotUses [{ op := .ireturn }] = [] := rfl
    rw [Program.statementUses, Code.slotUses_append, hvalue.slotUses_eq hp hslot, hreturn,
      List.append_nil]
  | branch hc _ ht he =>
    -- tests and jumps use no slot, so the uses of the parts come in their order
    have hcons (operand : Int) (rest : Code) :
        Code.slotUses ({ op := .ifEq, operand } :: rest) = rest.slotUses := rfl
    have hfirst (rest : Code) : Code.slotUses ({ op := .iconst1 } :: rest) = rest.slotUses := rfl
    simp only [Program.statementUses, selectCode, hfirst, Code.slotUses_append, hcons,
      slotUses_joinCode, hc.slotUses_eq hp hslot, ht.slotUses_eq hp hslot,
      he.slotUses_eq hp hslot, List.append_nil, List.map_append]
  | loop hc _ hb =>
    have hcons (operand : Int) (rest : Code) :
        Code.slotUses ({ op := .ifEq, operand } :: rest) = rest.slotUses := rfl
    have hfirst (rest : Code) : Code.slotUses ({ op := .iconst0 } :: rest) = rest.slotUses := rfl
    have hgoto (operand : Int) : Code.slotUses [{ op := .goto, operand }] = [] := rfl
    simp only [Program.statementUses, repeatCode, hfirst, Code.slotUses_append, hcons, hgoto,
      hc.slotUses_eq hp hslot, hb.slotUses_eq hp hslot, List.append_nil, List.map_append]

/-- Likewise for several statements. -/
theorem StatementsCode.slotUses_eq (hp : c.program.WellFormed)
    (hslot : ∀ id n, c.slots[id]? = some n → slot id = n) {d : Declaration} {ss : List Node}
    {code : Code} (h : StatementsCode c d ss code) :
    code.slotUses = (c.program.statementsUses ss).map (SlotUse.map slot) := by
  cases h with
  | nil => rfl
  | cons hs _ hr =>
    rw [Program.statementsUses, Code.slotUses_append, hs.slotUses_eq hp hslot,
      hr.slotUses_eq hp hslot, List.map_append]

end

/-! ### Slots that do not fit -/

theorem slotUse?_cut_loadSlot (n : Nat) :
    (loadSlot n).cut.slotUse? = some (.load (n % 0x10000)) := by
  by_cases h : n ≤ 0xFFFF
  · rw [EmitContext.cut_loadSlot h, slotUse?_loadSlot, Nat.mod_eq_of_lt (Nat.lt_succ_of_le h)]
  · obtain ⟨m, rfl⟩ : ∃ m, n = m + 4 := ⟨n - 4, by omega⟩
    have hwide : 0xFF < m + 4 := by omega
    have hslot : (((m + 4 : Nat) : Int) % 0x10000).toNat = (m + 4) % 0x10000 := by omega
    simp only [loadSlot, Instruction.cut, hwide, decide_true, if_true, Instruction.slotUse?, hslot]

theorem slotUse?_cut_storeSlot (n : Nat) :
    (storeSlot n).cut.slotUse? = some (.store (n % 0x10000)) := by
  by_cases h : n ≤ 0xFFFF
  · rw [EmitContext.cut_storeSlot h, slotUse?_storeSlot, Nat.mod_eq_of_lt (Nat.lt_succ_of_le h)]
  · obtain ⟨m, rfl⟩ : ∃ m, n = m + 4 := ⟨n - 4, by omega⟩
    have hwide : 0xFF < m + 4 := by omega
    have hslot : (((m + 4 : Nat) : Int) % 0x10000).toNat = (m + 4) % 0x10000 := by omega
    simp only [storeSlot, Instruction.cut, hwide, decide_true, if_true, Instruction.slotUse?, hslot]

/-- The slot of an emitted instruction is cut down to two bytes. -/
theorem EmitContext.Emits.slotUse?_cut {i : Instruction} (h : c.Emits i) :
    i.cut.slotUse? = i.slotUse?.map (SlotUse.map (· % 0x10000)) := by
  cases h with
  | push h =>
    rcases EmitContext.push_eq_ok h with ⟨-, rfl⟩ | ⟨-, rfl⟩ | ⟨index, -, ⟨-, rfl⟩ | rfl⟩ <;> rfl
  | load =>
    rw [slotUse?_cut_loadSlot, slotUse?_loadSlot]
    rfl
  | store =>
    rw [slotUse?_cut_storeSlot, slotUse?_storeSlot]
    rfl
  | field hop => rcases hop with rfl | rfl <;> rfl
  | invoke => rfl
  | @plain op hop =>
    have hnone : ∀ op ∈ [Opcode.iconst0, .iconst1, .pop, .iadd, .isub, .imul, .idiv, .ireturn,
        .vreturn], ({ op } : Instruction).slotUse? = none := by decide
    have hcut : ({ op } : Instruction).cut = { op } := rfl
    rw [hcut, hnone op hop]
    rfl
  | @branch op v hop => cases op <;> first | rfl | exact absurd hop (by decide)

theorem Code.slotUses_map_cut {code : Code} (h : ∀ i ∈ code, c.Emits i) :
    Code.slotUses (code.map Instruction.cut) =
      code.slotUses.map (SlotUse.map (· % 0x10000)) := by
  induction code with
  | nil => rfl
  | cons i rest ih =>
    rw [List.forall_mem_cons] at h
    simp only [Code.slotUses, List.map_cons, List.filterMap_cons, h.1.slotUse?_cut] at ih ⊢
    cases i.slotUse? with
    | none => exact ih h.2
    | some use => exact congrArg (use.map (· % 0x10000) :: ·) (ih h.2)

/-! ### Methods -/

/-- A method body with `count` slots, of which it uses `slot x` where the statements of the procedure
use the declaration `x`. -/
structure MethodCode.UsesSlots (body : MethodCode) (p : Program) (d : Declaration) (count : Nat)
    (slot : DeclId → Nat) : Prop where
  /-- It has the slots. -/
  maxLocals_eq : body.maxLocals.toNat = count
  /-- Its loads and stores are the reads and writes of the statements. -/
  slotUses_eq : ∃ code, Code.decode body.code = .ok code ∧
    code.slotUses = (p.statementUses d.body).map (SlotUse.map slot)

namespace Program

variable {p : Program} {pool : PoolBuilder} {id : DeclId} {d : Declaration}

theorem WellFormed.length_localsOf (hp : p.WellFormed) (hd : p.decl? id = some d)
    (hk : d.kind = .procedure) : (p.localsOf d).length = p.slotCount d := by
  obtain ⟨t, params, vars, ht⟩ := hp.procedure id d hd hk
  rw [ht.localsOf_eq, slotCount, ht.localVariables_eq, Declaration.arity, ht.params_eq,
    List.length_append, List.length_map]

/-- The slots of different declarations are different. -/
theorem slotOf_inj {x y : DeclId} (hx : x ∈ p.localsOf d) (h : p.slotOf d x = p.slotOf d y) :
    x = y :=
  (List.idxOf_inj hx).1 h

/-- Numbers that fit two bytes are not cut. -/
theorem WellFormed.slotOf_mod (hp : p.WellFormed) (hd : p.decl? id = some d)
    (hk : d.kind = .procedure) (h : p.slotCount d ≤ 0xFFFF) (x : DeclId) :
    p.slotOf d x % 0x10000 = p.slotOf d x := by
  have hle : p.slotOf d x ≤ (p.localsOf d).length := List.idxOf_le_length
  rw [hp.length_localsOf hd hk] at hle
  exact Nat.mod_eq_of_lt (by omega)

/-- What the statements of a procedure use are its parameters and local variables. -/
theorem mem_localsOf_of_statementUses {statements : List Node} {code : Code} (hp : p.WellFormed)
    (h : EmitContext.Layout p pool d statements code) :
    ∀ use ∈ p.statementUses d.body, use.target ∈ p.localsOf d := by
  have hnodup := EmitContext.nodup_localsOf hp d
  -- The code determines the number of what is used, so it does not matter which numbers are given
  -- to anything that is no local of the procedure.
  have huses (slot : DeclId → Nat) (hslot : ∀ x ∈ p.localsOf d, slot x = p.slotOf d x) :
      code.slotUses = (p.statementUses d.body).map (SlotUse.map slot) := by
    obtain ⟨place, hbody⟩ := h.body_eq
    rw [hbody, statementUses]
    refine h.code.slotUses_eq hp fun x n hn => ?_
    rw [EmitContext.ofProcedure, EmitContext.getElem?_slotsOf hnodup] at hn
    obtain ⟨hlt, rfl⟩ := List.getElem?_eq_some_iff.1 hn
    rw [hslot _ (List.getElem_mem hlt)]
    exact hnodup.idxOf_getElem n hlt
  let shifted (x : DeclId) : Nat := if x ∈ p.localsOf d then p.slotOf d x else p.slotOf d x + 1
  have hsame := (huses (p.slotOf d) fun x _ => rfl).symm.trans
    (huses shifted fun x hx => if_pos hx)
  intro use huse
  have hmap := List.map_inj_left.1 hsame use huse
  by_contra hnot
  cases use with
  | load x | store x =>
    have hx : p.slotOf d x = shifted x := by simpa [SlotUse.map] using hmap
    rw [show shifted x = p.slotOf d x + 1 from if_neg hnot] at hx
    omega

theorem usesSlots_of_procedureCode (hp : p.Checked) (hd : p.decl? id = some d)
    (hk : d.kind = .procedure) {body : MethodCode}
    (h : EmitContext.procedureCode p pool d = .ok body) :
    body.code.length ≤ 0xFFFF ∧ (∀ use ∈ p.statementUses d.body, use.target ∈ p.localsOf d) ∧
      body.UsesSlots p d (p.slotCount d % 0x10000) (fun x => p.slotOf d x % 0x10000) := by
  obtain ⟨statements, code, hlayout, rfl⟩ := EmitContext.procedureCode_eq_ok hp hd hk h
  have hcut : ∀ i ∈ code ++ EmitContext.tail d, i.cut.Encodable :=
    fun i hi => (hlayout.emits i hi).encodable_cut
  have hnodup := EmitContext.nodup_localsOf hp.wellFormed d
  have hslot (x : DeclId) (n : Nat)
      (hn : (EmitContext.ofProcedure p pool d).slots[x]? = some n) : p.slotOf d x = n := by
    rw [EmitContext.ofProcedure, EmitContext.getElem?_slotsOf hnodup] at hn
    obtain ⟨hlt, rfl⟩ := List.getElem?_eq_some_iff.1 hn
    exact hnodup.idxOf_getElem n hlt
  refine ⟨?_, mem_localsOf_of_statementUses hp.wellFormed hlayout, ?_, _,
    Code.decode_encode_cut hcut, ?_⟩
  · rw [Code.length_encode_cut hcut]
    exact hlayout.size_le
  · rw [hp.wellFormed.length_localsOf hd hk]
    exact UInt16.toNat_ofNat'
  · have huses := hlayout.code.slotUses_eq hp.wellFormed hslot
    have htail : Code.slotUses (EmitContext.tail d) = [] := by
      unfold EmitContext.tail
      cases d.body.completes <;> cases d.type <;> rfl
    obtain ⟨place, hbody⟩ := hlayout.body_eq
    rw [Code.slotUses_map_cut hlayout.emits, Code.slotUses_append, htail, List.append_nil, huses,
      hbody, statementUses, List.map_map]
    refine List.map_congr_left fun use _ => ?_
    cases use <;> rfl

end Program

/-- The member `m` is the method of the procedure `d`, with a slot for each parameter and local
variable, where all numbers are cut down to two bytes. -/
structure Program.KeepsSlots (p : Program) (f : ClassFile) (d : Declaration) (m : Member) : Prop where
  /-- It has the name and the descriptor of the procedure. -/
  name : f.memberName m = .ok (d.name, d.descriptor)
  /-- What is used are the parameters and local variables of the procedure. -/
  declared : ∀ use ∈ p.statementUses d.body, use.target ∈ p.localsOf d
  /-- The numbers are right modulo 65536. -/
  modulo : ∃ body, f.methodCode m = .ok body ∧
    body.UsesSlots p d (p.slotCount d % 0x10000) (fun x => p.slotOf d x % 0x10000)
  /-- They are right if they fit, and then each declaration has a slot of its own. -/
  fits : p.slotCount d ≤ 0xFFFF →
    (∃ body, f.methodCode m = .ok body ∧ body.UsesSlots p d (p.slotCount d) (p.slotOf d)) ∧
      ∀ x ∈ p.localsOf d, ∀ y ∈ p.localsOf d, x ≠ y → p.slotOf d x ≠ p.slotOf d y

/-- The methods of an accepted program have a slot for each parameter and local variable and use
the slot of a declaration where the procedure uses the declaration, with all numbers cut down to two
bytes.  So each declaration has a slot of its own if there are not more than 65535 of them. -/
theorem Build.usesSlots {text : Text} {p : Program} {f : ClassFile}
    (h : (Build.ofText text).result = .ok (p, f)) :
    ∃ methods constructor, f.methods = methods ++ [constructor] ∧
      List.Forall₂ (p.KeepsSlots f) p.procedureDecls methods := by
  obtain ⟨hp, hfile⟩ := Build.checked h
  obtain ⟨pool, hf⟩ := Program.emitted_of_classFile hp.wellFormed hfile
  obtain ⟨methods, constructor, hmethods, hprocedures, -⟩ := hf.methods
  have hdecls : ∀ d ∈ p.procedureDecls, ∃ id, p.decl? id = some d ∧ d.kind = .procedure :=
    fun d hd => hp.wellFormed.mem_procedureDecls.1 hd
  refine ⟨methods, constructor, hmethods,
    ((List.forall₂_and_left _ _).2 ⟨hdecls, hprocedures⟩).imp ?_⟩
  rintro d m ⟨⟨id, hd, hk⟩, body, hbody, hmethod⟩
  rw [← hf.pool_eq] at hmethod
  obtain ⟨hlength, hdeclared, huses⟩ := Program.usesSlots_of_procedureCode hp hd hk hbody
  have hread : f.methodCode m = .ok body := ClassFile.methodCode_of_methodOf hmethod (by omega)
  refine ⟨ClassFile.memberName_of_holds hmethod.name hmethod.descriptor, hdeclared,
    ⟨body, hread, huses⟩, fun hfit => ⟨⟨body, hread, ?_⟩, ?_⟩⟩
  · have hslot : (fun x => p.slotOf d x % 0x10000) = p.slotOf d :=
      funext (hp.wellFormed.slotOf_mod hd hk hfit)
    rw [hslot, Nat.mod_eq_of_lt (Nat.lt_succ_of_le hfit)] at huses
    exact huses
  · intro x hx y hy hne heq
    exact hne (Program.slotOf_inj hx heq)

theorem Build.usesSlots_factorial : ∃ p f, (Build.ofText factorialSource).result = .ok (p, f) ∧
    ∃ methods constructor, f.methods = methods ++ [constructor] ∧
      List.Forall₂ (p.KeepsSlots f) p.procedureDecls methods := by
  obtain ⟨p, f, h, -⟩ := factorialSource_builds
  exact ⟨p, f, h, Build.usesSlots h⟩

end Classwright
