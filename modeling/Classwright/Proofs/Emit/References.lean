import Classwright.Proofs.Emit.Unbounded
import Classwright.Proofs.Emit.Slots

/-!
# What the members and the code of a class file refer to

The fields of an accepted program are its constants and variables, its methods are its procedures
with the constructor behind them, and the reference that the pool notes for a declaration names just
this declaration.  What the code of a procedure takes from the pool goes in parallel with its
statements: the numbers that are too large to be pushed from two bytes, the variables of the class
that are read and written, and the procedures that are called (`Build.refersTo_declarations`).  The
numbering of pool entries by content never mixes two of them up, since an index always leads to an
entry of that content.
-/

namespace Classwright

/-- What an instruction takes from the pool. -/
inductive PoolUse (α : Type) where
  /-- It pushes a number. -/
  | number (v : Int32)
  /-- It reads a field. -/
  | read (x : α)
  /-- It writes a field. -/
  | write (x : α)
  /-- It calls a method of a class. -/
  | call (x : α)
  /-- It calls a constructor. -/
  | construct (className name descriptor : Text)
  deriving Repr, DecidableEq

/-- The use of what `g` gives for what is used. -/
def PoolUse.map {α β : Type} (g : α → β) : PoolUse α → PoolUse β
  | number v => number v
  | read x => read (g x)
  | write x => write (g x)
  | call x => call (g x)
  | construct className name descriptor => construct className name descriptor

/-- What an instruction takes from the pool of a class file, none if it takes nothing. -/
def ClassFile.poolUse? (f : ClassFile) (i : Instruction) :
    Option (Except MachineError (PoolUse (Text × Text × Text))) :=
  match i.op with
  | .ldc | .ldcW => some ((LinkContext.integer f i.operand.toNat).map .number)
  | .getStatic => some ((LinkContext.memberRef f i.operand.toNat .fieldRef).map .read)
  | .putStatic => some ((LinkContext.memberRef f i.operand.toNat .fieldRef).map .write)
  | .invokeStatic => some ((LinkContext.memberRef f i.operand.toNat .methodRef).map .call)
  | .invokeSpecial => some ((LinkContext.memberRef f i.operand.toNat .methodRef).map
      fun (className, name, descriptor) => .construct className name descriptor)
  | _ => none

/-- What code takes from the pool, in order. -/
def ClassFile.poolUses (f : ClassFile) (code : Code) :
    List (Except MachineError (PoolUse (Text × Text × Text))) :=
  code.filterMap f.poolUse?

/-! ### Uses in trees -/

/-- A number is taken from the pool unless it is pushed from two bytes or fewer. -/
def numberUses (v : Int32) : List (PoolUse DeclId) :=
  if fitsShortPush v.toInt then [] else [.number v]

namespace Program

variable (p : Program)

/-- What reading a name takes from the pool: the value of a constant, or the field of a variable of
the class. -/
def readUses (id : DeclId) : List (PoolUse DeclId) :=
  match p.decl? id with
  | some { kind := .constant, value, .. } => numberUses value
  | _ => if p.isLocal id then [] else [.read id]

/-- What writing a name takes from the pool. -/
def writeUses (id : DeclId) : List (PoolUse DeclId) :=
  if p.isLocal id then [] else [.write id]

mutual

/-- What an expression takes from the pool, in the order of evaluation. -/
def expressionPoolUses : Node → List (PoolUse DeclId)
  | .literal v _ => numberUses v
  | .name _ (some id) _ => p.readUses id
  | .binary _ left right _ => expressionPoolUses left ++ expressionPoolUses right
  | .call _ arguments (some id) _ => argumentPoolUses arguments ++ [.call id]
  | _ => []

/-- What arguments take from the pool. -/
def argumentPoolUses : List Node → List (PoolUse DeclId)
  | [] => []
  | e :: rest => expressionPoolUses e ++ argumentPoolUses rest

end

mutual

/-- What a statement takes from the pool, in the order of its code, in which an `else` block stands
in front of the other one. -/
def statementPoolUses : Node → List (PoolUse DeclId)
  | .binary .assign (.name _ (some id) _) value _ => p.expressionPoolUses value ++ p.writeUses id
  | .call callee arguments link place => p.expressionPoolUses (.call callee arguments link place)
  | .exit value _ => p.expressionPoolUses value
  | .branch condition thenBlock elseBlock _ =>
    p.expressionPoolUses condition ++ (statementPoolUses elseBlock ++ statementPoolUses thenBlock)
  | .loop condition body _ => p.expressionPoolUses condition ++ statementPoolUses body
  | .block statements _ => statementsPoolUses statements
  | _ => []

/-- What several statements take from the pool. -/
def statementsPoolUses : List Node → List (PoolUse DeclId)
  | [] => []
  | s :: rest => statementPoolUses s ++ statementsPoolUses rest

end

/-- What the constructor takes from the pool: the constructor of the class that is extended, and for
each constant its value and its field. -/
def constructorPoolUses : List (PoolUse DeclId) :=
  .construct ClassFile.objectClass ClassFile.initName ClassFile.initDescriptor ::
    p.constants.flatMap fun id => p.readUses id ++ [.write id]

end Program

/-! ### Symbols -/

/-- The descriptor of the member of a declaration: all values are numbers, and so are all
parameters. -/
def Declaration.memberDescriptor (d : Declaration) : Text :=
  if d.isValue then ClassFile.intDescriptor else procedureDescriptor d.arity d.type

/-- The kind of the reference to a declaration. -/
def Declaration.memberTag (d : Declaration) : Tag :=
  if d.isValue then .fieldRef else .methodRef

/-- The class, the name and the descriptor by which a declaration of the class is known. -/
def Program.symbol (p : Program) (id : DeclId) : Text × Text × Text :=
  match p.decl? id with
  | some d => (p.name, d.name, d.memberDescriptor)
  | none => default

theorem Program.symbol_eq {p : Program} {id : DeclId} {d : Declaration} (hd : p.decl? id = some d) :
    p.symbol id = (p.name, d.name, d.memberDescriptor) := by
  rw [symbol, hd]

/-- No two fields and no two methods are known by the same symbol. -/
theorem Program.WellFormed.symbol_inj {p : Program} (hp : p.WellFormed) {i j : DeclId}
    {d e : Declaration} (hi : p.decl? i = some d) (hj : p.decl? j = some e)
    (hd : d.table = classTable) (he : e.table = classTable) (htag : d.memberTag = e.memberTag)
    (h : p.symbol i = p.symbol j) : i = j := by
  rw [symbol_eq hi, symbol_eq hj, Prod.mk.injEq, Prod.mk.injEq] at h
  obtain ⟨-, hname, hdescriptor⟩ := h
  have hvalue : d.isValue = e.isValue := by
    unfold Declaration.memberTag at htag
    cases hd : d.isValue <;> cases he : e.isValue <;> simp_all
  cases hv : d.isValue with
  | true => exact hp.tidy.value_unique hi hj (hd.trans he.symm) hv (hvalue ▸ hv) hname
  | false =>
    -- Methods may share a name, and then their descriptors tell them apart.
    have hkind {d : Declaration} (hv : d.isValue = false) : d.kind = .procedure := by
      simpa [Declaration.isValue] using hv
    rw [Declaration.memberDescriptor, Declaration.memberDescriptor, hvalue, ← hvalue, hv]
      at hdescriptor
    have harity := append_procedureDescriptor_inj (s := []) (t := []) (by simp) hdescriptor
    exact hp.procedure_unique hi hj (hkind hv) (hkind (hvalue ▸ hv)) hname harity.2.1

/-! ### Uses in code -/

/-- `f` has the pool that code was emitted with, the complete pool of the program. -/
structure EmitContext.Linked (c : EmitContext) (f : ClassFile) : Prop where
  /-- The pool is complete. -/
  complete : c.pool.Complete c.program
  /-- The file has its entries. -/
  pool_eq : f.pool = c.pool.entries

namespace EmitContext

variable {c : EmitContext} {f : ClassFile}

/-- The reference of a declaration names it. -/
theorem Linked.memberRef (h : c.Linked f) {id : DeclId} {d : Declaration} {index : UInt16}
    (hd : c.program.decl? id = some d) (hr : c.pool.refs[id]? = some index) :
    LinkContext.memberRef f index.toNat d.memberTag = .ok (c.program.symbol id) := by
  obtain ⟨d', hd', hrefers⟩ := h.complete.refs id index hr
  obtain rfl := Option.some.inj (hd'.symm.trans hd)
  rw [← h.pool_eq] at hrefers
  have hthis := h.complete.this
  rw [← h.pool_eq] at hthis
  rw [Program.symbol_eq hd]
  cases hrefers with
  | field hk hholds hsigns =>
    have hv : d'.isValue = true := by
      rcases hk with hk | hk <;> simp [Declaration.isValue, hk]
    rw [Declaration.memberTag, Declaration.memberDescriptor, if_pos hv, if_pos hv]
    exact LinkContext.memberRef_of_holds (Or.inl rfl) hholds hthis hsigns
  | method hk hholds hsigns =>
    have hv : d'.isValue = false := by simp [Declaration.isValue, hk]
    rw [Declaration.descriptor_of_procedure hk] at hsigns
    rw [Declaration.memberTag, Declaration.memberDescriptor, if_neg (by simp [hv]),
      if_neg (by simp [hv])]
    exact LinkContext.memberRef_of_holds (Or.inr rfl) hholds hthis hsigns

theorem Linked.integer (h : c.Linked f) {v : Int32} {index : UInt16}
    (hi : c.pool.integers[v]? = some index) : LinkContext.integer f index.toNat = .ok v := by
  refine LinkContext.integer_of_holds ?_
  rw [h.pool_eq]
  exact h.complete.valid.integers v index hi

end EmitContext

namespace ClassFile

variable {f : ClassFile}

@[simp] theorem poolUses_nil : f.poolUses [] = [] := rfl

@[simp] theorem poolUses_append (code others : Code) :
    f.poolUses (code ++ others) = f.poolUses code ++ f.poolUses others :=
  List.filterMap_append

theorem poolUses_cons_none {i : Instruction} (h : f.poolUse? i = none) (rest : Code) :
    f.poolUses (i :: rest) = f.poolUses rest :=
  List.filterMap_cons_none h

theorem poolUses_loadSlot (n : Nat) : f.poolUses [loadSlot n] = [] := by
  match n with
  | 0 | 1 | 2 | 3 | n + 4 => rfl

theorem poolUses_storeSlot (n : Nat) : f.poolUses [storeSlot n] = [] := by
  match n with
  | 0 | 1 | 2 | 3 | n + 4 => rfl

theorem poolUses_operatorCode? {op : Operator} {code : Code} (h : operatorCode? op = some code) :
    f.poolUses code = [] := by
  cases op <;> simp only [operatorCode?, Option.some.injEq, reduceCtorEq] at h <;> subst h <;> rfl

theorem poolUses_joinCode (joins : Bool) (thenCode : Code) :
    f.poolUses (joinCode joins thenCode) = [] := by
  cases joins <;> rfl

end ClassFile

namespace Program

/-- The uses as they are found in a class file, each resolved. -/
def resolved (p : Program) (uses : List (PoolUse DeclId)) :
    List (Except MachineError (PoolUse (Text × Text × Text))) :=
  uses.map fun use => .ok (use.map p.symbol)

variable {p : Program}

@[simp] theorem resolved_nil : p.resolved [] = [] := rfl

@[simp] theorem resolved_append (uses others : List (PoolUse DeclId)) :
    p.resolved (uses ++ others) = p.resolved uses ++ p.resolved others :=
  List.map_append

theorem readUses_of_constant {id : DeclId} {d : Declaration} (hd : p.decl? id = some d)
    (hk : d.kind = .constant) : p.readUses id = numberUses d.value := by
  cases d
  subst hk
  rw [readUses, hd]

theorem readUses_of_ne {id : DeclId} {d : Declaration} (hd : p.decl? id = some d)
    (hk : d.kind ≠ .constant) :
    p.readUses id = if p.isLocal id then [] else [.read id] := by
  rw [readUses, hd]
  cases d with
  | mk kind => cases kind <;> first | rfl | exact absurd rfl hk

end Program

variable {c : EmitContext} {f : ClassFile}

/-- Pushing a number takes it from the pool if it is too large. -/
theorem poolUses_of_push (hf : c.Linked f) {v : Int32} {place : Position} {i : Instruction}
    (h : c.push v place = .ok i) : f.poolUses [i] = c.program.resolved (numberUses v) := by
  unfold EmitContext.push at h
  unfold numberUses
  split at h
  · rename_i hbyte
    obtain rfl := Except.ok.inj h
    -- a number of one byte is one of two bytes, and neither is in the pool
    have hshort : fitsShortPush v.toInt = true := by
      simp only [fitsByte, fitsShortPush, Bool.and_eq_true, decide_eq_true_eq] at hbyte ⊢
      omega
    rw [if_pos hshort]
    rfl
  · split at h
    · rename_i hshort
      obtain rfl := Except.ok.inj h
      rw [if_pos hshort]
      rfl
    · rename_i hlarge
      rw [if_neg hlarge]
      cases hindex : c.pool.integers[v]? with
      | none => rw [hindex] at h; cases h
      | some index =>
        rw [hindex] at h
        obtain rfl := Except.ok.inj h
        have hnumber := hf.integer hindex
        -- either way of loading a large number refers to it
        have hboth : ∀ op, op = .ldc ∨ op = .ldcW →
            f.poolUses [{ op, operand := index.toNat }] =
              c.program.resolved [.number v] := by
          rintro op (rfl | rfl) <;>
            simp [ClassFile.poolUses, ClassFile.poolUse?, hnumber, Program.resolved, PoolUse.map,
              Except.map]
        split
        · exact hboth _ (Or.inl rfl)
        · exact hboth _ (Or.inr rfl)

/-- An instruction that refers to a declaration of the class resolves to it. -/
theorem poolUses_of_reference (hf : c.Linked f) {id : DeclId} {d : Declaration} {index : UInt16}
    (hd : c.program.decl? id = some d) (hr : c.pool.refs[id]? = some index) :
    (d.isValue = true →
      f.poolUses [{ op := .getStatic, operand := index.toNat }] = c.program.resolved [.read id] ∧
      f.poolUses [{ op := .putStatic, operand := index.toNat }] = c.program.resolved [.write id]) ∧
    (d.isValue = false →
      f.poolUses [{ op := .invokeStatic, operand := index.toNat }] =
        c.program.resolved [.call id]) := by
  have hmember := hf.memberRef hd hr
  unfold Declaration.memberTag at hmember
  constructor
  · intro hv
    rw [if_pos hv] at hmember
    constructor <;>
      simp [ClassFile.poolUses, ClassFile.poolUse?, hmember, Program.resolved, PoolUse.map,
        Except.map]
  · intro hv
    rw [if_neg (by simp [hv])] at hmember
    simp [ClassFile.poolUses, ClassFile.poolUse?, hmember, Program.resolved, PoolUse.map,
      Except.map]

mutual

/-- The code of an expression takes from the pool what the expression does. -/
theorem ExpressionCode.poolUses_eq (hp : c.program.WellFormed) (hf : c.Linked f) {e : Node}
    {code : Code} (h : ExpressionCode c e code) :
    f.poolUses code = c.program.resolved (c.program.expressionPoolUses e) := by
  cases h with
  | literal hi => exact poolUses_of_push hf hi
  | constant hd hk hi =>
    rw [Program.expressionPoolUses, Program.readUses_of_constant hd hk]
    exact poolUses_of_push hf hi
  | slot hd hk ht =>
    rw [Program.expressionPoolUses, Program.readUses_of_ne hd hk, hp.isLocal_of_table hd ht,
      ClassFile.poolUses_loadSlot]
    rfl
  | field hd hk ht hr =>
    have hv := (poolUses_of_reference hf hd hr).1 (by simp [Declaration.isValue, hk])
    rw [Program.expressionPoolUses, Program.readUses_of_ne hd (by simp [hk]),
      Program.isLocal_of_field hd hk ht]
    exact hv.1
  | call hd hk _ hr ha =>
    rw [Program.expressionPoolUses, ClassFile.poolUses_append, ha.poolUses_eq hp hf,
      (poolUses_of_reference hf hd hr).2 (by simp [Declaration.isValue, hk]),
      Program.resolved_append]
  | binary hop hl _ hr =>
    rw [Program.expressionPoolUses, ClassFile.poolUses_append, ClassFile.poolUses_append,
      hl.poolUses_eq hp hf, hr.poolUses_eq hp hf, ClassFile.poolUses_operatorCode? hop,
      List.append_nil, Program.resolved_append]

/-- Likewise for arguments. -/
theorem ArgumentsCode.poolUses_eq (hp : c.program.WellFormed) (hf : c.Linked f) {es : List Node}
    {code : Code} (h : ArgumentsCode c es code) :
    f.poolUses code = c.program.resolved (c.program.argumentPoolUses es) := by
  cases h with
  | nil => rfl
  | cons he _ hr =>
    rw [Program.argumentPoolUses, ClassFile.poolUses_append, he.poolUses_eq hp hf,
      hr.poolUses_eq hp hf, Program.resolved_append]

end

mutual

/-- The code of a statement takes from the pool what the statement does. -/
theorem StatementCode.poolUses_eq (hp : c.program.WellFormed) (hf : c.Linked f) {d : Declaration}
    {s : Node} {code : Code} (h : StatementCode c d s code) :
    f.poolUses code = c.program.resolved (c.program.statementPoolUses s) := by
  cases h with
  | assignSlot hd hk ht hn hvalue =>
    rw [Program.statementPoolUses, Program.writeUses, hp.isLocal_of_table hd ht, if_pos rfl,
      ClassFile.poolUses_append, hvalue.poolUses_eq hp hf, ClassFile.poolUses_storeSlot,
      Program.resolved_append, Program.resolved_nil]
  | assignField hd hk ht hr hvalue =>
    have hv := (poolUses_of_reference hf hd hr).1 (by simp [Declaration.isValue, hk])
    rw [Program.statementPoolUses, Program.writeUses, Program.isLocal_of_field hd hk ht,
      if_neg Bool.false_ne_true, ClassFile.poolUses_append, hvalue.poolUses_eq hp hf, hv.2,
      Program.resolved_append]
  | @call _ _ link _ _ hcall =>
    have hpop : f.poolUses (if c.program.returnsValue link then [{ op := .pop }] else []) = [] := by
      split <;> rfl
    rw [Program.statementPoolUses, ClassFile.poolUses_append, hcall.poolUses_eq hp hf, hpop,
      List.append_nil]
  | leave => rfl
  | answer _ hvalue =>
    have hreturn : f.poolUses [{ op := .ireturn }] = [] := rfl
    rw [Program.statementPoolUses, ClassFile.poolUses_append, hvalue.poolUses_eq hp hf, hreturn,
      List.append_nil]
  | branch hc _ ht he =>
    -- tests and jumps do not use the pool
    have hskip (operand : Int) (rest : Code) :
        f.poolUses ({ op := .ifEq, operand } :: rest) = f.poolUses rest := rfl
    have hfirst (rest : Code) : f.poolUses ({ op := .iconst1 } :: rest) = f.poolUses rest := rfl
    simp only [Program.statementPoolUses, selectCode, hfirst, ClassFile.poolUses_append, hskip,
      ClassFile.poolUses_joinCode, hc.poolUses_eq hp hf, ht.poolUses_eq hp hf,
      he.poolUses_eq hp hf, List.append_nil, Program.resolved_append]
  | loop hc _ hb =>
    have hleave (operand : Int) (rest : Code) :
        f.poolUses ({ op := .ifEq, operand } :: rest) = f.poolUses rest := rfl
    have hfirst (rest : Code) : f.poolUses ({ op := .iconst0 } :: rest) = f.poolUses rest := rfl
    have hagain (operand : Int) : f.poolUses [{ op := .goto, operand }] = [] := rfl
    simp only [Program.statementPoolUses, repeatCode, hfirst, ClassFile.poolUses_append, hleave,
      hagain, hc.poolUses_eq hp hf, hb.poolUses_eq hp hf, List.append_nil,
      Program.resolved_append]

/-- Likewise for several statements. -/
theorem StatementsCode.poolUses_eq (hp : c.program.WellFormed) (hf : c.Linked f) {d : Declaration}
    {ss : List Node} {code : Code} (h : StatementsCode c d ss code) :
    f.poolUses code = c.program.resolved (c.program.statementsPoolUses ss) := by
  cases h with
  | nil => rfl
  | cons hs _ hr =>
    rw [Program.statementsPoolUses, ClassFile.poolUses_append, hs.poolUses_eq hp hf,
      hr.poolUses_eq hp hf, Program.resolved_append]

end

/-- The stores of the constructor take the values and the fields of the constants from the pool. -/
theorem EmitContext.StoresCode.poolUses_eq (hf : c.Linked f) {ids : List DeclId} {code : Code}
    (h : EmitContext.StoresCode c ids code) : f.poolUses code =
      c.program.resolved (ids.flatMap fun id => c.program.readUses id ++ [.write id]) := by
  induction h with
  | nil => rfl
  | @cons id d rest i index code hd hk hi hr _ ih =>
    have hv := (poolUses_of_reference hf hd hr).1 (by simp [Declaration.isValue, hk])
    have hsplit : f.poolUses (i :: { op := .putStatic, operand := index.toNat } :: code) =
        f.poolUses [i] ++ (f.poolUses [{ op := .putStatic, operand := index.toNat }] ++
          f.poolUses code) := by
      rw [← ClassFile.poolUses_append, ← ClassFile.poolUses_append]
      rfl
    rw [hsplit, poolUses_of_push hf hi, hv.2, ih, List.flatMap_cons, Program.resolved_append,
      Program.resolved_append, Program.readUses_of_constant hd hk, List.append_assoc]

/-- The code of the constructor takes from the pool what the constructor does. -/
theorem poolUses_initCode {p : Program} {pool : PoolBuilder} {stores : Code}
    (hf : EmitContext.Linked { program := p, pool } f)
    (h : EmitContext.StoresCode { program := p, pool } p.constants stores) :
    f.poolUses (EmitContext.initCode pool stores) = p.resolved p.constructorPoolUses := by
  obtain ⟨s, hholds, hsigns⟩ := hf.complete.superInit
  have hsuper := hf.complete.super
  rw [← hf.pool_eq] at hholds hsigns hsuper
  have hmember : LinkContext.memberRef f pool.superInit.toNat .methodRef =
      .ok (ClassFile.objectClass, ClassFile.initName, ClassFile.initDescriptor) :=
    LinkContext.memberRef_of_holds (Or.inr rfl) hholds hsuper hsigns
  have hcall : f.poolUse? { op := .invokeSpecial, operand := pool.superInit.toNat } =
      some (.ok (.construct ClassFile.objectClass ClassFile.initName
        ClassFile.initDescriptor)) := by
    simp [ClassFile.poolUse?, hmember, Except.map]
  have hreturn : f.poolUses [{ op := .vreturn }] = [] := rfl
  rw [EmitContext.initCode, ClassFile.poolUses_cons_none rfl, ClassFile.poolUses,
    List.filterMap_cons_some hcall]
  change _ :: f.poolUses (stores ++ [{ op := .vreturn }]) = _
  rw [ClassFile.poolUses_append, hreturn, List.append_nil, h.poolUses_eq hf]
  rfl

/-- Cutting slots down to their bytes does not change what is taken from the pool. -/
theorem EmitContext.Emits.poolUse?_cut {i : Instruction} (h : c.Emits i) :
    f.poolUse? i.cut = f.poolUse? i := by
  cases h with
  | push h =>
    rcases EmitContext.push_eq_ok h with ⟨-, rfl⟩ | ⟨-, rfl⟩ | ⟨index, -, ⟨-, rfl⟩ | rfl⟩ <;> rfl
  | @load id n =>
    match n with
    | 0 | 1 | 2 | 3 => rfl
    | n + 4 =>
      rw [Instruction.cut]
      split <;> rfl
  | @store id n =>
    match n with
    | 0 | 1 | 2 | 3 => rfl
    | n + 4 =>
      rw [Instruction.cut]
      split <;> rfl
  | field | invoke | plain | branch => rfl

theorem ClassFile.poolUses_map_cut {code : Code} (h : ∀ i ∈ code, c.Emits i) :
    f.poolUses (code.map Instruction.cut) = f.poolUses code := by
  rw [poolUses, List.filterMap_map]
  exact List.filterMap_congr fun i hi => (h i hi).poolUse?_cut

/-! ### Links -/

/-- What is used is a variable or a procedure of the class. -/
def PoolUse.Declared (p : Program) : PoolUse DeclId → Prop
  | number _ => True
  | read id | write id =>
    ∃ d, p.decl? id = some d ∧ d.table = Program.classTable ∧ d.kind = .var
  | call id => ∃ d, p.decl? id = some d ∧ d.table = Program.classTable ∧ d.kind = .procedure
  | construct _ _ _ => False

theorem declared_numberUses (p : Program) (v : Int32) : ∀ use ∈ numberUses v, use.Declared p := by
  unfold numberUses
  split
  · simp
  · exact List.forall_mem_singleton.2 trivial

mutual

theorem ExpressionCode.declared (hp : c.program.WellFormed) {e : Node} {code : Code}
    (h : ExpressionCode c e code) :
    ∀ use ∈ c.program.expressionPoolUses e, use.Declared c.program := by
  cases h with
  | literal => exact declared_numberUses _ _
  | constant hd hk =>
    rw [Program.expressionPoolUses, Program.readUses_of_constant hd hk]
    exact declared_numberUses _ _
  | slot hd hk ht =>
    rw [Program.expressionPoolUses, Program.readUses_of_ne hd hk, hp.isLocal_of_table hd ht]
    simp
  | field hd hk ht =>
    rw [Program.expressionPoolUses, Program.readUses_of_ne hd (by simp [hk]),
      Program.isLocal_of_field hd hk ht]
    exact List.forall_mem_singleton.2 ⟨_, hd, ht, hk⟩
  | call hd hk _ _ ha =>
    exact List.forall_mem_append.2 ⟨ha.declared hp,
      List.forall_mem_singleton.2 ⟨_, hd, hp.procedure_table_eq hd hk, hk⟩⟩
  | binary _ hl _ hr => exact List.forall_mem_append.2 ⟨hl.declared hp, hr.declared hp⟩

theorem ArgumentsCode.declared (hp : c.program.WellFormed) {es : List Node} {code : Code}
    (h : ArgumentsCode c es code) :
    ∀ use ∈ c.program.argumentPoolUses es, use.Declared c.program := by
  cases h with
  | nil => simp [Program.argumentPoolUses]
  | cons he _ hr => exact List.forall_mem_append.2 ⟨he.declared hp, hr.declared hp⟩

end

mutual

/-- The references in the code of a procedure are to variables and procedures of the class. -/
theorem StatementCode.declared (hp : c.program.WellFormed) {d : Declaration} {s : Node}
    {code : Code} (h : StatementCode c d s code) :
    ∀ use ∈ c.program.statementPoolUses s, use.Declared c.program := by
  cases h with
  | assignSlot hd _ ht _ hvalue =>
    rw [Program.statementPoolUses, Program.writeUses, hp.isLocal_of_table hd ht, if_pos rfl,
      List.append_nil]
    exact hvalue.declared hp
  | assignField hd hk ht _ hvalue =>
    rw [Program.statementPoolUses, Program.writeUses, Program.isLocal_of_field hd hk ht,
      if_neg Bool.false_ne_true]
    exact List.forall_mem_append.2 ⟨hvalue.declared hp,
      List.forall_mem_singleton.2 ⟨_, hd, ht, hk⟩⟩
  | call hcall => exact hcall.declared hp
  | leave => simp [Program.statementPoolUses, Program.expressionPoolUses]
  | answer _ hvalue => exact hvalue.declared hp
  | branch hc _ ht he =>
    exact List.forall_mem_append.2 ⟨hc.declared hp,
      List.forall_mem_append.2 ⟨he.declared hp, ht.declared hp⟩⟩
  | loop hc _ hb => exact List.forall_mem_append.2 ⟨hc.declared hp, hb.declared hp⟩

theorem StatementsCode.declared (hp : c.program.WellFormed) {d : Declaration} {ss : List Node}
    {code : Code} (h : StatementsCode c d ss code) :
    ∀ use ∈ c.program.statementsPoolUses ss, use.Declared c.program := by
  cases h with
  | nil => simp [Program.statementsPoolUses]
  | cons hs _ hr => exact List.forall_mem_append.2 ⟨hs.declared hp, hr.declared hp⟩

end

/-! ### Class files -/

/-- The body of a method of a class file takes some members and numbers from the pool. -/
def ClassFile.MethodUses (f : ClassFile) (p : Program) (uses : List (PoolUse DeclId)) (m : Member) :
    Prop :=
  ∃ body code, f.methodCode m = .ok body ∧ Code.decode body.code = .ok code ∧
    f.poolUses code = p.resolved uses

/-- The members of a class file are those of a program, and its references lead to them. -/
structure Program.LinkedInto (p : Program) (f : ClassFile) : Prop where
  /-- The file has the name of the class. -/
  owner : f.className f.this = .ok p.name
  /-- The fields are the constants and variables of the class, in order. -/
  fields : f.fields.map f.memberName =
    p.fieldDecls.map fun d => .ok (d.name, ClassFile.intDescriptor)
  /-- The methods are its procedures, in order, and the constructor. -/
  methods : f.methods.map f.memberName =
    (p.procedureDecls.map fun d => .ok (d.name, procedureDescriptor d.arity d.type)) ++
      [.ok (ClassFile.initName, ClassFile.initDescriptor)]
  /-- No two fields have the same name. -/
  fields_nodup : (f.fields.map fun m => (f.memberName m).map Prod.fst).Nodup
  /-- No two methods have the same name and descriptor. -/
  methods_nodup : (f.methods.map f.memberName).Nodup
  /-- The reference of each declaration names it, and nothing else of its kind. -/
  references : ∃ pool, PoolBuilder.ofProgram p = .ok pool ∧ f.pool = pool.entries ∧
    ∀ id d, p.decl? id = some d → d.table = classTable →
      (∃ index, pool.refs[id]? = some index ∧
        LinkContext.memberRef f index.toNat d.memberTag = .ok (p.symbol id)) ∧
      ∀ j e, p.decl? j = some e → e.table = classTable → e.memberTag = d.memberTag →
        p.symbol j = p.symbol id → j = id
  /-- What the code of procedures refers to is declared in the class. -/
  declared : ∀ d ∈ p.procedureDecls, ∀ use ∈ p.statementPoolUses d.body, use.Declared p
  /-- The code takes from the pool what the statements and the constructor do. -/
  uses : ∃ methods constructor, f.methods = methods ++ [constructor] ∧
    List.Forall₂ (fun d m => f.MethodUses p (p.statementPoolUses d.body) m) p.procedureDecls
      methods ∧
    f.MethodUses p p.constructorPoolUses constructor

namespace Program

variable {p : Program} {pool : PoolBuilder} {f : ClassFile}

/-- The method of a procedure takes from the pool what its statements do. -/
theorem methodUses_of_procedureCode (hp : p.Checked) (hf : p.Emitted pool f) {d : Declaration}
    (hd : d ∈ p.procedureDecls) {body : MethodCode} {m : Member}
    (hbody : EmitContext.procedureCode p pool d = .ok body)
    (hm : MethodOf pool.entries d.name d.descriptor body m) :
    (∀ use ∈ p.statementPoolUses d.body, use.Declared p) ∧
      f.MethodUses p (p.statementPoolUses d.body) m := by
  obtain ⟨id, hd, hk⟩ := hp.wellFormed.mem_procedureDecls.1 hd
  obtain ⟨statements, code, hlayout, rfl⟩ := EmitContext.procedureCode_eq_ok hp hd hk hbody
  have hlinked : (EmitContext.ofProcedure p pool d).Linked f := ⟨hf.complete, hf.pool_eq⟩
  have hcut : ∀ i ∈ code ++ EmitContext.tail d, i.cut.Encodable :=
    fun i hi => (hlayout.emits i hi).encodable_cut
  have htail : f.poolUses (EmitContext.tail d) = [] := by
    unfold EmitContext.tail
    cases d.body.completes <;> cases d.type <;> rfl
  obtain ⟨place, hblock⟩ := hlayout.body_eq
  have huses : p.statementPoolUses d.body = p.statementsPoolUses statements := by
    rw [hblock, statementPoolUses]
  rw [huses]
  rw [← hf.pool_eq] at hm
  refine ⟨hlayout.code.declared hp.wellFormed, _, _, ClassFile.methodCode_of_methodOf hm ?_,
    Code.decode_encode_cut hcut, ?_⟩
  · rw [Code.length_encode_cut hcut]
    exact Nat.le_trans hlayout.size_le (by decide)
  · rw [ClassFile.poolUses_map_cut hlayout.emits, ClassFile.poolUses_append, htail,
      List.append_nil]
    exact hlayout.code.poolUses_eq hp.wellFormed hlinked

theorem methodUses_of_constructorCode (hf : p.Emitted pool f) {body : MethodCode} {m : Member}
    (hbody : EmitContext.constructorCode p pool = .ok body)
    (hm : MethodOf pool.entries ClassFile.initName ClassFile.initDescriptor body m) :
    f.MethodUses p p.constructorPoolUses m := by
  obtain ⟨stores, hstores, hsize, rfl⟩ := EmitContext.constructorCode_eq_ok hbody
  have hcode := EmitContext.encodable_initCode hstores
  rw [← hf.pool_eq] at hm
  refine ⟨_, _, ClassFile.methodCode_of_methodOf hm ?_, Code.decode_encode hcode,
    poolUses_initCode ⟨hf.complete, hf.pool_eq⟩ hstores⟩
  rw [Code.length_encode hcode]
  exact Nat.le_trans hsize (by decide)

/-- The methods of the class by name and descriptor. -/
def methodPairs (p : Program) : List (Text × Text) :=
  (p.procedureDecls.map fun d => (d.name, procedureDescriptor d.arity d.type)) ++
    [(ClassFile.initName, ClassFile.initDescriptor)]

theorem WellFormed.nodup_methodPairs (hp : p.WellFormed) : p.methodPairs.Nodup := by
  have hkeys : p.methodPairs.map (fun pair => pair.1 ++ pair.2) = p.methodKeys := by
    rw [methodPairs, methodKeys, List.map_append, List.map_map]
    congr 1
    refine List.map_congr_left fun d hd => ?_
    obtain ⟨id, -, hk⟩ := hp.mem_procedureDecls.1 hd
    rw [Declaration.key, Declaration.descriptor_of_procedure hk]
    rfl
  exact List.Nodup.of_map _ (hkeys ▸ hp.nodup_methodKeys)

/-- A list of names that are read is free of repetitions if the names are. -/
theorem nodup_map_ok {α ε : Type} {xs : List α} (h : xs.Nodup) :
    (xs.map (Except.ok : α → Except ε α)).Nodup :=
  h.map fun _ _ => Except.ok.inj

end Program

/-- The members of the class file of an accepted program are those that the program declares, the
reference of each declaration names just this declaration, and the instructions of each method that
use the pool refer to what the names and calls of its procedure are linked to, and to the values of
its numbers and constants. -/
theorem Build.refersTo_declarations {text : Text} {p : Program} {f : ClassFile}
    (h : (Build.ofText text).result = .ok (p, f)) : p.LinkedInto f := by
  obtain ⟨hp, hfile⟩ := Build.checked h
  obtain ⟨pool, hpool⟩ := Program.exists_pool_of_classFile hfile
  have hf := Program.emitted_of_pool hp.wellFormed hpool hfile
  obtain ⟨methods, constructor, hmethods, hprocedures, code, hcode, hconstructor⟩ := hf.methods
  -- the members are written in the order of the declarations, the constructor last
  have hfields : f.fields.map f.memberName =
      p.fieldDecls.map fun d => .ok (d.name, ClassFile.intDescriptor) :=
    map_eq_of_forall₂ hf.fields fun d m hm => by
      rw [← hf.pool_eq] at hm
      exact ClassFile.memberName_of_holds hm.name hm.descriptor
  have hnames : f.methods.map f.memberName =
      (p.procedureDecls.map fun d => .ok (d.name, procedureDescriptor d.arity d.type)) ++
        [.ok (ClassFile.initName, ClassFile.initDescriptor)] := by
    rw [hmethods, List.map_append, List.map_singleton]
    congr 1
    · refine map_eq_of_forall₂ ((List.forall₂_and_left _ _).2
        ⟨fun d hd => hp.wellFormed.mem_procedureDecls.1 hd, hprocedures⟩) ?_
      rintro d m ⟨⟨id, hd, hk⟩, code, -, hm⟩
      rw [← hf.pool_eq] at hm
      rw [ClassFile.memberName_of_holds hm.name hm.descriptor,
        Declaration.descriptor_of_procedure hk]
    · rw [← hf.pool_eq] at hconstructor
      rw [ClassFile.memberName_of_holds hconstructor.name hconstructor.descriptor]
  have hlinked : ({ program := p, pool } : EmitContext).Linked f := ⟨hf.complete, hf.pool_eq⟩
  refine
    { owner := ?_
      fields := hfields
      methods := hnames
      fields_nodup := ?_
      methods_nodup := ?_
      references := ⟨pool, hpool, hf.pool_eq, fun id d hd ht => ⟨?_, ?_⟩⟩
      declared := ?_
      uses := ⟨methods, constructor, hmethods, ?_,
        Program.methodUses_of_constructorCode hf hcode hconstructor⟩ }
  · rw [hf.this_eq]
    exact ClassFile.className_of_namesClass (hf.pool_eq ▸ hf.complete.this)
  · -- The descriptors of fields are all the same, so their names alone must differ.
    have hfst : (f.fields.map fun m => (f.memberName m).map Prod.fst) =
        p.fieldNames.map .ok := by
      have hmap := congrArg (List.map (Except.map Prod.fst)) hfields
      simpa only [List.map_map, Function.comp_def, Except.map, Program.fieldNames] using hmap
    rw [hfst]
    exact Program.nodup_map_ok hp.wellFormed.nodup_fieldNames
  · have hpairs : f.methods.map f.memberName = p.methodPairs.map .ok := by
      rw [hnames, Program.methodPairs, List.map_append, List.map_map]
      rfl
    rw [hpairs]
    exact Program.nodup_map_ok hp.wellFormed.nodup_methodPairs
  · obtain ⟨index, hindex⟩ := PoolBuilder.finds_member hp.wellFormed hpool hd ht (Or.inl rfl)
    exact ⟨index, hindex, hlinked.memberRef hd hindex⟩
  · exact fun j e hj he htag hsymbol => hp.wellFormed.symbol_inj hj hd he ht htag hsymbol
  · -- Every procedure has its method, and in its code only such uses occur.
    intro d hd
    obtain ⟨n, hn⟩ := List.mem_iff_getElem?.1 hd
    obtain ⟨m, -, code, hcode, hm⟩ := forall₂_getElem? hprocedures hn
    exact (Program.methodUses_of_procedureCode hp hf hd hcode hm).1
  · refine ((List.forall₂_and_left _ _).2 ⟨fun d hd => hd, hprocedures⟩).imp ?_
    rintro d m ⟨hd, code, hcode, hm⟩
    exact (Program.methodUses_of_procedureCode hp hf hd hcode hm).2

theorem Build.refersTo_declarations_factorial :
    ∃ p f, (Build.ofText factorialSource).result = .ok (p, f) ∧ p.LinkedInto f := by
  obtain ⟨p, f, h, -⟩ := factorialSource_builds
  exact ⟨p, f, h, Build.refersTo_declarations h⟩

end Classwright
