import Classwright.Emit.ClassFile
import Classwright.Proofs.Relabelling.Checks

/-!
# Emission of relabelled programs

Programs that are the same under a relabelling have one constant pool
(`Relabelling.Identifies.ofProgram`), and the class file of the one is that of the other
(`Relabelling.Identifies.classFile_eq_ok`).  Errors of the emitter are the same under the
relabelling (`Relabelling.Identifies.classFile`).
-/

namespace Classwright

/-! ### The pool -/

namespace Relabelling.IdentifiesMembers

variable {ρ : Relabelling} {d' d : Declaration}

/-- Members that are the same differ in their trees and in where they stand. -/
theorem eq (h : ρ.IdentifiesMembers d' d) :
    d' = { d with body := d'.body, position := d'.position } := by
  obtain ⟨hrelabel, hname⟩ := h
  obtain ⟨kind', name', type', value', params', locals', body', table', position'⟩ := d'
  obtain ⟨kind, name, type, value, params, locals, body, table, position⟩ := d
  simp only [Declaration.relabel, Declaration.mk.injEq] at hrelabel hname
  obtain ⟨rfl, -, rfl, rfl, rfl, rfl, -, rfl, -⟩ := hrelabel
  obtain rfl := hname
  rfl

theorem addMember (h : ρ.IdentifiesMembers d' d) (owner : UInt16) :
    PoolBuilder.addMember owner d' = PoolBuilder.addMember owner d := by
  rw [h.eq]
  rfl

theorem field? (h : ρ.IdentifiesMembers d' d) (pool : PoolBuilder) :
    pool.field? d' = pool.field? d := by
  rw [h.eq]
  rfl

theorem descriptor (h : ρ.IdentifiesMembers d' d) : d'.descriptor = d.descriptor := by
  rw [h.eq]
  rfl

end Relabelling.IdentifiesMembers

theorem PoolBuilder.poolLiterals_relabel (ρ : Relabelling) (node : Node) :
    poolLiterals (node.relabel ρ) = poolLiterals node := by
  rw [poolLiterals, poolLiterals, Node.nodes_relabel, List.filterMap_map]
  congr 1
  funext node
  cases node <;> rfl

namespace Relabelling.Identifies

variable {ρ : Relabelling} {p q : Program}

theorem addMembers (h : ρ.Identifies q p) (owner : UInt16) {ids : List DeclId}
    (hids : ∀ id ∈ ids, id ∈ p.members) :
    PoolBuilder.addMembers q owner ids = PoolBuilder.addMembers p owner ids := by
  induction ids with
  | nil => rfl
  | cons id rest ih =>
    rw [List.forall_mem_cons] at hids
    rw [PoolBuilder.addMembers, PoolBuilder.addMembers, ih hids.2]
    rcases h.decl?_member hids.1 with ⟨hq, hp⟩ | ⟨d', d, hq, hp, hd⟩
    · rw [hq, hp]
    · simp only [hq, hp, hd.addMember]

/-- **One pool**: programs that are the same under a relabelling have the same constant pool, or
their pools overflow alike. -/
theorem ofProgram (h : ρ.Identifies q p) : PoolBuilder.ofProgram q = PoolBuilder.ofProgram p := by
  have hliterals (d' d : Declaration) (hd : ρ.IdentifiesMembers d' d) :
      PoolBuilder.poolLiterals d.body = PoolBuilder.poolLiterals d'.body := by
    have hbody : d'.body.relabel ρ = d.body.relabel ρ := congrArg Declaration.body hd.relabel
    rw [← PoolBuilder.poolLiterals_relabel ρ d.body, ← hbody, PoolBuilder.poolLiterals_relabel]
  have hprocedures := map_eq_of_forall₂ h.forall₂_procedures hliterals
  have hprogram : PoolBuilder.addProgram q = PoolBuilder.addProgram p := by
    simp only [PoolBuilder.addProgram, h.name, h.members, h.addMembers _ fun _ hid => hid,
      List.flatMap_def, hprocedures]
  rw [PoolBuilder.ofProgram, PoolBuilder.ofProgram, hprogram]

end Relabelling.Identifies

/-! ### Code -/

/-- The same procedure is emitted in two programs that are the same under a relabelling. -/
structure Relabelling.IdentifiesContexts (ρ : Relabelling) (c' c : EmitContext) : Prop where
  /-- The programs are the same. -/
  program : ρ.Identifies c'.program c.program
  /-- They have one pool. -/
  pool : c'.pool = c.pool
  /-- The procedures have the same name. -/
  procedure : ρ.name c'.procedure = ρ.name c.procedure
  /-- Slots are numbered alike. -/
  slots : c'.slots = c.slots

open EmitContext (prepend operatorOnto branchCode loopCode)

section

variable {ρ : Relabelling}

theorem mapError_prepend {g : EmitError → EmitError} {i' i : Except EmitError Instruction}
    {rest' rest : Except EmitError Code} (hi : i'.mapError g = i.mapError g)
    (hrest : rest'.mapError g = rest.mapError g) :
    (prepend i' rest').mapError g = (prepend i rest).mapError g := by
  simp only [prepend, mapError_bind, hi, hrest]

theorem mapError_operatorOnto (op : Operator) (place : Position)
    {rest' rest : Except EmitError Code}
    (hrest : rest'.mapError ρ.emitError = rest.mapError ρ.emitError) :
    (operatorOnto op (ρ.place place) rest').mapError ρ.emitError =
      (operatorOnto op place rest).mapError ρ.emitError := by
  unfold operatorOnto
  cases operatorCode? op with
  | none => simp [Relabelling.emitError]
  | some code => simp only [mapError_map, hrest]

theorem mapError_branchTo (op : Opcode) (distance : Int) (place : Position) :
    (branchTo op distance (ρ.place place)).mapError ρ.emitError =
      (branchTo op distance place).mapError ρ.emitError := by
  unfold branchTo
  split
  · rfl
  · simp [Relabelling.emitError, Relabelling.error]

theorem mapError_branchCode (condition thenCode elseCode : Code) (joins : Bool)
    (place : Position) :
    (branchCode condition thenCode elseCode joins (ρ.place place)).mapError ρ.emitError =
      (branchCode condition thenCode elseCode joins place).mapError ρ.emitError := by
  rw [branchCode, branchCode, mapError_bind, mapError_bind, mapError_branchTo]
  refine bind_congr fun skip => ?_
  split
  · simp only [mapError_bind, mapError_branchTo]
  · rfl

theorem mapError_loopCode (condition body : Code) (place : Position) :
    (loopCode condition body (ρ.place place)).mapError ρ.emitError =
      (loopCode condition body place).mapError ρ.emitError := by
  simp only [loopCode, mapError_bind, mapError_branchTo]

end

namespace Node

variable (ρ : Relabelling)

mutual

@[simp] theorem completes_relabel (node : Node) : (node.relabel ρ).completes = node.completes := by
  cases node with
  | branch condition thenBlock elseBlock place =>
    rw [relabel, completes, completes, completes_relabel thenBlock, completes_relabel elseBlock]
  | block statements place =>
    rw [relabel, completes, completes, allComplete_relabelAll statements]
  | _ => rfl

theorem allComplete_relabelAll (nodes : List Node) :
    allComplete (relabelAll ρ nodes) = allComplete nodes := by
  cases nodes with
  | nil => rfl
  | cons s rest =>
    rw [relabelAll, allComplete, allComplete, completes_relabel s, allComplete_relabelAll rest]

end

end Node

/-- The instruction that reads a variable: from its slot if it has one, else from its field. -/
def EmitContext.readVariable (c : EmitContext) (link : Option DeclId) :
    Except EmitError Instruction :=
  match c.slot? link with
  | some slot => .ok (loadSlot slot)
  | none => do
    let index ← c.reference link
    return { op := .getStatic, operand := index }

namespace Relabelling.IdentifiesContexts

variable {ρ : Relabelling} {c' c : EmitContext}

theorem refl (c : EmitContext) : ρ.IdentifiesContexts c c :=
  ⟨.refl _, rfl, rfl, rfl⟩

theorem push (h : ρ.IdentifiesContexts c' c) (v : Int32) (place place' : Position)
    (hplace : ρ.place place' = ρ.place place) :
    (c'.push v place').mapError ρ.emitError = (c.push v place).mapError ρ.emitError := by
  unfold EmitContext.push
  rw [h.pool]
  split
  · rfl
  · split
    · rfl
    · cases c.pool.integers[v]? with
      | none => simp [emitError, hplace]
      | some index => rfl

theorem reference (h : ρ.IdentifiesContexts c' c) (link : Option DeclId) :
    (c'.reference link).mapError ρ.emitError = (c.reference link).mapError ρ.emitError := by
  unfold EmitContext.reference
  rw [h.pool]
  cases link.bind fun id => c.pool.refs[id]? with
  | some index => rfl
  | none =>
    cases link with
    | none => rfl
    | some id => simp [emitError, h.program.nameOf]

theorem slot? (h : ρ.IdentifiesContexts c' c) (link : Option DeclId) :
    c'.slot? link = c.slot? link := by
  unfold EmitContext.slot?
  rw [h.slots]

theorem readVariable (h : ρ.IdentifiesContexts c' c) (link : Option DeclId) :
    (c'.readVariable link).mapError ρ.emitError = (c.readVariable link).mapError ρ.emitError := by
  unfold EmitContext.readVariable
  rw [h.slot?]
  cases c.slot? link with
  | some slot => rfl
  | none => simp only [mapError_bind, h.reference]

theorem readName (h : ρ.IdentifiesContexts c' c) (link : Option DeclId) (place : Position) :
    (c'.readName link (ρ.place place)).mapError ρ.emitError =
      (c.readName link place).mapError ρ.emitError := by
  unfold EmitContext.readName
  cases link with
  | none => exact h.readVariable none
  | some id =>
    rw [Option.bind_some, Option.bind_some]
    rcases h.program.decl?_cases id with ⟨hq, hp⟩ | ⟨d', d, hq, hp, hd⟩
    · rw [hq, hp]
      exact h.readVariable (some id)
    · -- only the kind and the value of the declaration matter, and they are no labels
      have hkind : d'.kind = d.kind := (congrArg Declaration.kind hd :)
      have hvalue : d'.value = d.value := (congrArg Declaration.value hd :)
      rw [hq, hp]
      obtain ⟨kind', name', type', value'⟩ := d'
      obtain ⟨kind, name, type, value⟩ := d
      obtain rfl : kind' = kind := hkind
      obtain rfl : value' = value := hvalue
      cases kind' with
      | constant => exact h.push value' place _ (ρ.place_place place)
      | _ => exact h.readVariable (some id)

theorem writeName (h : ρ.IdentifiesContexts c' c) (link : Option DeclId) :
    (c'.writeName link).mapError ρ.emitError = (c.writeName link).mapError ρ.emitError := by
  rw [EmitContext.writeName, EmitContext.writeName, h.slot?]
  cases c.slot? link with
  | some slot => rfl
  | none => simp only [mapError_bind, h.reference]

theorem invocation (h : ρ.IdentifiesContexts c' c) (link : Option DeclId) :
    (c'.invocation link).mapError ρ.emitError = (c.invocation link).mapError ρ.emitError := by
  simp only [EmitContext.invocation, mapError_bind, h.reference]

mutual

theorem expression (h : ρ.IdentifiesContexts c' c) (node : Node)
    {rest' rest : Except EmitError Code}
    (hrest : rest'.mapError ρ.emitError = rest.mapError ρ.emitError) :
    (c'.expression (node.relabel ρ) rest').mapError ρ.emitError =
      (c.expression node rest).mapError ρ.emitError := by
  cases node with
  | literal value place =>
    rw [Node.relabel, EmitContext.expression, EmitContext.expression]
    exact mapError_prepend (h.push value place _ (ρ.place_place place)) hrest
  | name id link place =>
    rw [Node.relabel, EmitContext.expression, EmitContext.expression]
    exact mapError_prepend (h.readName link place) hrest
  | call callee arguments link place =>
    rw [Node.relabel, EmitContext.expression, EmitContext.expression]
    exact expressions h arguments (mapError_prepend (h.invocation link) hrest)
  | binary op left right place =>
    rw [Node.relabel, EmitContext.expression, EmitContext.expression]
    exact expression h left (expression h right (mapError_operatorOnto op place hrest))
  | block statements place =>
    have hplace := Node.place_position_relabel ρ (.block statements place)
    exact congrArg (fun place => Except.error (EmitError.unexpectedExpression .block place)) hplace
  | absent => rfl
  | exit | branch | loop =>
    exact congrArg (fun place => Except.error (EmitError.unexpectedExpression _ place))
      (ρ.place_place _)

theorem expressions (h : ρ.IdentifiesContexts c' c) (nodes : List Node)
    {rest' rest : Except EmitError Code}
    (hrest : rest'.mapError ρ.emitError = rest.mapError ρ.emitError) :
    (c'.expressions (Node.relabelAll ρ nodes) rest').mapError ρ.emitError =
      (c.expressions nodes rest).mapError ρ.emitError := by
  cases nodes with
  | nil => exact hrest
  | cons e others =>
    rw [Node.relabelAll, EmitContext.expressions, EmitContext.expressions]
    exact expression h e (expressions h others hrest)

end

mutual

theorem statement (h : ρ.IdentifiesContexts c' c) (node : Node) :
    (c'.statement (node.relabel ρ)).mapError ρ.emitError =
      (c.statement node).mapError ρ.emitError := by
  cases node with
  | absent => rfl
  | literal | name =>
    exact congrArg (fun place => Except.error (EmitError.unexpectedStatement _ place))
      (ρ.place_place _)
  | binary op left right place =>
    have hother : (Except.error (.unexpectedStatement .binary (ρ.place place)) :
          Except EmitError Code).mapError ρ.emitError =
        (Except.error (.unexpectedStatement .binary place)).mapError ρ.emitError :=
      congrArg (fun place => Except.error (EmitError.unexpectedStatement _ place))
        (ρ.place_place _)
    cases op with
    | assign =>
      cases left with
      | name id link spot =>
        simp only [Node.relabel, EmitContext.statement]
        exact h.expression right (mapError_prepend (h.writeName link) rfl)
      | _ => exact hother
    | _ => exact hother
  | exit value place =>
    -- a bare return evaluates nothing, any other one its value
    let code : Except EmitError Code := .ok [{ op := .ireturn }]
    have hreturn := h.expression value (rfl : code.mapError ρ.emitError = _)
    cases value with
    | absent => rfl
    | _ => exact hreturn
  | call callee arguments link place =>
    rw [Node.relabel, EmitContext.statement, EmitContext.statement, h.program.returnsValue]
    exact h.expression (.call callee arguments link place) rfl
  | branch condition thenBlock elseBlock place =>
    simp only [Node.relabel, EmitContext.statement, mapError_bind, h.expression condition rfl,
      statement h thenBlock, statement h elseBlock, Node.completes_relabel, mapError_branchCode]
  | loop condition body place =>
    simp only [Node.relabel, EmitContext.statement, mapError_bind, h.expression condition rfl,
      statement h body, mapError_loopCode]
  | block body place =>
    rw [Node.relabel, EmitContext.statement, EmitContext.statement, statements h 0 body]

theorem statements (h : ρ.IdentifiesContexts c' c) (used : Nat) (nodes : List Node) :
    (c'.statements used (Node.relabelAll ρ nodes)).mapError ρ.emitError =
      (c.statements used nodes).mapError ρ.emitError := by
  cases nodes with
  | nil => rfl
  | cons s rest =>
    simp only [Node.relabelAll, EmitContext.statements, mapError_bind, statement h s]
    refine bind_congr fun code => ?_
    -- the error for too much code names the procedure
    split
    · simp [emitError, error, Cause.relabel, h.procedure]
    · simp only [mapError_bind, statements h _ rest]

end

theorem storeConstants (h : ρ.IdentifiesContexts c' c) (ids : List DeclId) :
    (c'.storeConstants ids).mapError ρ.emitError = (c.storeConstants ids).mapError ρ.emitError := by
  induction ids with
  | nil => rfl
  | cons id rest ih =>
    rw [EmitContext.storeConstants, EmitContext.storeConstants]
    rcases h.program.decl?_cases id with ⟨hq, hp⟩ | ⟨d', d, hq, hp, hd⟩
    · rw [hq, hp]
      exact ih
    · have hvalue : d'.value = d.value := (congrArg Declaration.value hd :)
      have hplace : ρ.place d'.position = ρ.place d.position := congrArg Declaration.position hd
      simp only [hq, hp, hvalue, mapError_bind, h.push d.value d.position _ hplace, h.reference, ih]

end Relabelling.IdentifiesContexts

/-! ### Stacks, methods and class files -/

namespace Relabelling.Identifies

variable {ρ : Relabelling} {p q : Program}

mutual

theorem exprStack (h : ρ.Identifies q p) (node : Node) :
    q.exprStack (node.relabel ρ) = p.exprStack node := by
  cases node with
  | binary op left right place =>
    rw [Node.relabel, Program.exprStack, Program.exprStack, exprStack h left, exprStack h right]
  | call callee arguments link place =>
    rw [Node.relabel, Program.exprStack, Program.exprStack, argumentStack h 0 arguments,
      h.returnsValue]
  | _ => rfl

theorem argumentStack (h : ρ.Identifies q p) (below : Nat) (nodes : List Node) :
    q.argumentStack below (Node.relabelAll ρ nodes) = p.argumentStack below nodes := by
  cases nodes with
  | nil => rfl
  | cons e rest =>
    rw [Node.relabelAll, Program.argumentStack, Program.argumentStack, exprStack h e,
      argumentStack h (below + 1) rest]

end

mutual

theorem stmtStack (h : ρ.Identifies q p) (node : Node) :
    q.stmtStack (node.relabel ρ) = p.stmtStack node := by
  cases node with
  | binary op left right place => exact h.exprStack right
  | call callee arguments link place => exact h.exprStack (.call callee arguments link place)
  | exit value place => exact h.exprStack value
  | branch condition thenBlock elseBlock place =>
    rw [Node.relabel, Program.stmtStack, Program.stmtStack, h.exprStack, stmtStack h thenBlock,
      stmtStack h elseBlock]
  | loop condition body place =>
    rw [Node.relabel, Program.stmtStack, Program.stmtStack, h.exprStack, stmtStack h body]
  | block statements place => exact stmtsStack h statements
  | absent | literal | name => rfl

theorem stmtsStack (h : ρ.Identifies q p) (nodes : List Node) :
    q.stmtsStack (Node.relabelAll ρ nodes) = p.stmtsStack nodes := by
  cases nodes with
  | nil => rfl
  | cons s rest =>
    rw [Node.relabelAll, Program.stmtsStack, Program.stmtsStack, stmtStack h s, stmtsStack h rest]

end

theorem procedureCode (h : ρ.Identifies q p) (pool : PoolBuilder) {d' d : Declaration}
    (hd : d'.relabel ρ = d.relabel ρ) :
    (EmitContext.procedureCode q pool d').mapError ρ.emitError =
      (EmitContext.procedureCode p pool d).mapError ρ.emitError := by
  have hbody : d'.body.relabel ρ = d.body.relabel ρ := congrArg Declaration.body hd
  have hname : ρ.name d'.name = ρ.name d.name := congrArg Declaration.name hd
  have hplace : ρ.place d'.position = ρ.place d.position := congrArg Declaration.position hd
  have htype : d'.type = d.type := (congrArg Declaration.type hd :)
  have hcompletes : d'.body.completes = d.body.completes := by
    rw [← Node.completes_relabel ρ, hbody, Node.completes_relabel]
  have htail : EmitContext.tail d' = EmitContext.tail d := by
    rw [EmitContext.tail, EmitContext.tail, hcompletes, htype]
  -- the bodies are compared by way of the relabelled one
  have hstack : q.stmtStack d'.body = p.stmtStack d.body := by
    rw [← (refl q).stmtStack, hbody, h.stmtStack]
  have hcode (slots : Std.HashMap DeclId Nat) :
      (({ program := q, pool, procedure := d'.name, slots } : EmitContext).statement
        d'.body).mapError ρ.emitError =
      (({ program := p, pool, procedure := d.name, slots } : EmitContext).statement
        d.body).mapError ρ.emitError := by
    have hcontexts : ρ.IdentifiesContexts { program := q, pool, procedure := d'.name, slots }
        { program := p, pool, procedure := d.name, slots } := ⟨h, rfl, hname, rfl⟩
    rw [← (IdentifiesContexts.refl _).statement, hbody, hcontexts.statement]
  simp only [EmitContext.procedureCode, mapError_bind, h.localsOf hd, hcode, htail, hstack,
    hcompletes, htype]
  refine bind_congr fun body => ?_
  split
  · simp [emitError, error, Cause.relabel, hname, hplace]
  · rfl

theorem constructorCode (h : ρ.Identifies q p) (pool : PoolBuilder) :
    (EmitContext.constructorCode q pool).mapError ρ.emitError =
      (EmitContext.constructorCode p pool).mapError ρ.emitError := by
  have hcontexts : ρ.IdentifiesContexts { program := q, pool } { program := p, pool } :=
    ⟨h, rfl, rfl, rfl⟩
  simp only [EmitContext.constructorCode, mapError_bind, h.constants, hcontexts.storeConstants]
  refine bind_congr fun stores => ?_
  split
  · simp [emitError, error, Cause.relabel, h.place]
  · rfl

theorem fields (h : ρ.Identifies q p) (pool : PoolBuilder) :
    (q.fields pool).mapError ρ.emitError = (p.fields pool).mapError ρ.emitError := by
  have hmembers := h.forall₂_decl? fun id hid => hid
  simp only [Program.fields, mapError_bind, h.members]
  rw [mapError_mapM hmembers fun d' d hd => congrArg _ (hd.field? pool)]

theorem methods (h : ρ.Identifies q p) (pool : PoolBuilder) :
    (q.methods pool).mapError ρ.emitError = (p.methods pool).mapError ρ.emitError := by
  have hmethod (d' d : Declaration) (hd : ρ.IdentifiesMembers d' d) :
      (q.procedureMethod pool d').mapError ρ.emitError =
        (p.procedureMethod pool d).mapError ρ.emitError := by
    simp only [Program.procedureMethod, mapError_bind, h.procedureCode pool hd.relabel, hd.name,
      hd.descriptor]
  simp only [Program.methods, mapError_bind, mapError_mapM h.forall₂_procedures hmethod,
    h.constructorCode pool]

/-- The emitter does not look at labels, but for the names of the members of the class. -/
theorem classFile (h : ρ.Identifies q p) :
    q.classFile.mapError ρ.emitError = p.classFile.mapError ρ.emitError := by
  simp only [Program.classFile, mapError_bind, h.ofProgram, h.fields, h.methods]

/-- **One class file**: programs that are the same under a relabelling have the same class file, if
they have one. -/
theorem classFile_eq_ok (h : ρ.Identifies q p) {f : ClassFile} :
    q.classFile = .ok f ↔ p.classFile = .ok f := by
  rw [← mapError_eq_ok ρ.emitError, h.classFile, mapError_eq_ok]

end Relabelling.Identifies

end Classwright
