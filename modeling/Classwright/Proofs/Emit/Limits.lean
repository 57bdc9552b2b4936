import Classwright.Proofs.Emit.File
import Classwright.Proofs.Emit.Unbounded
import Classwright.Proofs.Machine.Compiled

/-!
# When emission fails

The program of a source text that passes all checks is emitted unless it breaks a limit of the
class-file format (`Build.emits_within_limits`): its pool fails only by its size, and behind the
pool the class file is made exactly when the layouts of all methods keep within the limits.
Everything that emission looks up is there, and the stack that is counted for a method then fits two
bytes.
-/

namespace Classwright

/-! ### Links -/

/-- A name or call is linked to a declaration. -/
def Node.Resolves (p : Program) : Node → Prop
  | .name _ link _ | .call _ _ link _ => ∃ id d, link = some id ∧ p.decl? id = some d
  | _ => True

namespace Node

variable {p : Program} {t : TableId}

theorem LinkedExpression.resolves {e : Node} (h : e.LinkedExpression p t) :
    ∀ n ∈ e.nodes, n.Resolves p := by
  induction h with
  | literal => exact List.forall_mem_singleton.2 trivial
  | name hd => exact List.forall_mem_singleton.2 ⟨_, _, rfl, hd⟩
  | call hd _ _ _ ih =>
    rw [nodes_call]
    exact List.forall_mem_cons.2 ⟨⟨_, _, rfl, hd⟩, fun n hn => by
      obtain ⟨e, he, hn⟩ := List.mem_flatMap.1 hn
      exact ih e he n hn⟩
  | binary _ _ _ ihl ihr =>
    rw [nodes_binary]
    exact List.forall_mem_cons.2 ⟨trivial, List.forall_mem_append.2 ⟨ihl, ihr⟩⟩

theorem resolves_block {statements : List Node} {place : Position}
    (h : ∀ s ∈ statements, ∀ n ∈ s.nodes, n.Resolves p) :
    ∀ n ∈ (block statements place).nodes, n.Resolves p := by
  rw [nodes_block]
  exact List.forall_mem_cons.2 ⟨trivial, fun n hn => by
    obtain ⟨s, hs, hn⟩ := List.mem_flatMap.1 hn
    exact h s hs n hn⟩

theorem LinkedStatement.resolves {s : Node} (h : s.LinkedStatement p t) :
    ∀ n ∈ s.nodes, n.Resolves p := by
  induction h with
  | assign hd _ _ hvalue =>
    rw [nodes_binary]
    exact List.forall_mem_cons.2 ⟨trivial, List.forall_mem_append.2
      ⟨List.forall_mem_singleton.2 ⟨_, _, rfl, hd⟩, hvalue.resolves⟩⟩
  | call hcall => exact hcall.resolves
  | leave => exact List.forall_mem_singleton.2 trivial
  | answer hvalue =>
    rw [nodes_exit]
    exact List.forall_mem_cons.2 ⟨trivial, hvalue.resolves⟩
  | branch hcond _ _ iht ihe =>
    rw [nodes_branch]
    exact List.forall_mem_cons.2 ⟨trivial, List.forall_mem_append.2 ⟨hcond.resolves,
      List.forall_mem_append.2 ⟨resolves_block iht, resolves_block ihe⟩⟩⟩
  | loop hcond _ ihb =>
    rw [nodes_loop]
    exact List.forall_mem_cons.2 ⟨trivial, List.forall_mem_append.2
      ⟨hcond.resolves, resolves_block ihb⟩⟩

end Node

/-- Every number of a declaration or of a table that emission follows leads to one. -/
structure Program.LookupsDefined (p : Program) : Prop where
  /-- The members of the class are declared. -/
  members : ∀ id ∈ p.members, ∃ d, p.decl? id = some d
  /-- The class has a table, -/
  classTable : ∃ tab, p.table? classTable = some tab
  /-- and so has each procedure. -/
  tables : ∀ d ∈ p.procedureDecls, ∃ t tab, d.locals = some t ∧ p.table? t = some tab
  /-- The parameters and local variables of procedures are declared. -/
  locals : ∀ d ∈ p.procedureDecls, ∀ id ∈ p.localsOf d, ∃ e, p.decl? id = some e
  /-- The names and calls in procedures are linked to declarations. -/
  links : ∀ d ∈ p.procedureDecls, ∀ n ∈ d.body.nodes, n.Resolves p

theorem Program.Checked.lookupsDefined {p : Program} (hp : p.Checked) : p.LookupsDefined where
  members id hid := by
    obtain ⟨d, hd, -⟩ := hp.wellFormed.mem_members.1 hid
    exact ⟨d, hd⟩
  classTable := exists_table? hp.wellFormed.tidy.tables_pos
  tables d hd := by
    obtain ⟨id, hd, hk⟩ := hp.wellFormed.mem_procedureDecls.1 hd
    obtain ⟨t, params, vars, ht⟩ := hp.wellFormed.procedure id d hd hk
    obtain ⟨tab, htab, -⟩ := ht.parent
    exact ⟨t, tab, ht.locals_eq, htab⟩
  locals d hd id hid := by
    obtain ⟨_, hd, hk⟩ := hp.wellFormed.mem_procedureDecls.1 hd
    obtain ⟨t, params, vars, ht⟩ := hp.wellFormed.procedure _ d hd hk
    rw [localsOf, ht.locals_eq] at hid
    obtain ⟨e, he, -⟩ := (hp.wellFormed.tidy.mem_membersOf t id).1 hid
    exact ⟨e, he⟩
  links d hd := by
    obtain ⟨id, hd, hk⟩ := hp.wellFormed.mem_procedureDecls.1 hd
    obtain ⟨t, -, hlinked⟩ := hp.linked id d hd hk
    obtain ⟨statements, place, hbody, hs⟩ := hlinked.eq_block
    rw [hbody]
    exact Node.resolves_block fun s hmem => (hs s hmem).resolves

/-! ### Layouts of methods -/

namespace EmitContext

/-- The layout of the method of a procedure. -/
def procedureLayout (p : Program) (pool : PoolBuilder) (d : Declaration) : Code :=
  (ofProcedure p pool d).statementLayout d.body ++ tail d

/-- The layout of the code that stores constants into their fields. -/
def storesLayout (c : EmitContext) : List DeclId → Code
  | [] => []
  | id :: rest =>
    match c.program.decl? id with
    | none => storesLayout c rest
    | some d =>
      instructionLayout (c.push d.value d.position) ++
        (instructionLayout (c.reference (some id) >>= fun index =>
          pure { op := .putStatic, operand := index }) ++ storesLayout c rest)

/-- The layout of the constructor. -/
def constructorLayout (p : Program) (pool : PoolBuilder) : Code :=
  initCode pool (({ program := p, pool } : EmitContext).storesLayout p.constants)

end EmitContext

/-- The layouts of all methods keep within the limits. -/
structure Program.LayoutsFit (p : Program) (pool : PoolBuilder) : Prop where
  /-- Those of the procedures do, -/
  procedures : ∀ d ∈ p.procedureDecls, (EmitContext.procedureLayout p pool d).WithinLimits
  /-- and that of the constructor. -/
  constructor : (EmitContext.constructorLayout p pool).WithinLimits

/-! ### Complete pools -/

namespace PoolBuilder

variable {p : Program} {pool : PoolBuilder}

theorem finds_literal (hp : p.WellFormed) (h : ofProgram p = .ok pool) {d : Declaration}
    (hd : d ∈ p.procedureDecls) {v : Int32} (hv : v ∈ poolLiterals d.body) :
    pool.Finds (.integer v) := by
  refine finds_of_ofProgram hp h _ ?_
  have hmem : v ∈ literalsOf p := List.mem_flatMap.2 ⟨d, hd, hv⟩
  simp only [keysOf, List.mem_append]
  exact Or.inl (Or.inr (List.mem_map.2 ⟨v, hmem, rfl⟩))

theorem exists_utf8Index {text : Text} (h : pool.Finds (.utf8 text)) :
    ∃ index, pool.utf8Index text = .ok index := by
  obtain ⟨index, hindex⟩ := h
  exact ⟨index, by rw [utf8Index, hindex]⟩

theorem exists_member (flags : UInt16) {name descriptor : Text} (hn : pool.Finds (.utf8 name))
    (hd : pool.Finds (.utf8 descriptor)) : ∃ m, pool.member flags name descriptor = .ok m := by
  obtain ⟨n, hn⟩ := exists_utf8Index hn
  obtain ⟨d, hd⟩ := exists_utf8Index hd
  exact ⟨_, by rw [member, hn, ok_bind, hd]; rfl⟩

theorem exists_method (flags : UInt16) {name descriptor : Text} (code : MethodCode)
    (hn : pool.Finds (.utf8 name)) (hd : pool.Finds (.utf8 descriptor))
    (hc : pool.Finds (.utf8 ClassFile.codeAttribute)) :
    ∃ m, pool.method flags name descriptor code = .ok m := by
  obtain ⟨m, hm⟩ := exists_member flags hn hd
  obtain ⟨a, ha⟩ := exists_utf8Index hc
  exact ⟨_, by rw [method, hm, ok_bind, ha]; rfl⟩

/-- What a declaration needs for its field is there. -/
theorem exists_field? {d : Declaration} (h : ∀ key ∈ memberKeys d, pool.Finds key) :
    ∃ r, pool.field? d = .ok r := by
  unfold memberKeys at h
  unfold field?
  cases hk : d.kind with
  | constant =>
    simp only [hk, List.forall_mem_cons] at h
    obtain ⟨hname, hint, ⟨index, hindex⟩, hattribute, -⟩ := h
    obtain ⟨m, hm⟩ := exists_member constantFlags hname hint
    obtain ⟨a, ha⟩ := exists_utf8Index hattribute
    exact ⟨_, by rw [hm, ok_bind, ha, ok_bind, hindex]; rfl⟩
  | var =>
    simp only [hk, List.forall_mem_cons] at h
    obtain ⟨m, hm⟩ := exists_member staticFlags h.1 h.2.1
    exact ⟨_, by rw [hm]; rfl⟩
  | procedure | parameter => exact ⟨none, rfl⟩

end PoolBuilder

namespace EmitContext

variable {p : Program} {pool : PoolBuilder} {id : DeclId} {d : Declaration}

theorem stocked_ofProcedure (hp : p.WellFormed) (hpool : PoolBuilder.ofProgram p = .ok pool)
    {t : TableId} {params vars : List DeclId} (ht : p.ProcedureTable d t params vars) :
    (ofProcedure p pool d).Stocked t where
  fits := fits_ofProcedure hp ht
  refs _ _ he htable := PoolBuilder.finds_member hp hpool he htable (Or.inl rfl)
  constants id e he hk := by
    have htable : e.table = Program.classTable := by
      by_contra hne
      rcases hp.local_kind id e he hne with h | h <;> simp [h] at hk
    exact PoolBuilder.finds_member hp hpool he htable
      (Or.inr (by simp [PoolBuilder.memberKeys, hk]))

/-! ### Methods -/

theorem branchesFit_tail (d : Declaration) : (tail d).BranchesFit := by
  unfold tail
  split
  · cases d.type <;> simp [Code.BranchesFit, Opcode.operand]
  · exact Code.branchesFit_nil

/-- The method of a procedure is made exactly when its layout keeps within the limits. -/
theorem procedureCode_cases (hp : p.Checked) (hpool : PoolBuilder.ofProgram p = .ok pool)
    (hd : p.decl? id = some d) (hk : d.kind = .procedure) :
    ((procedureLayout p pool d).WithinLimits ∧ procedureCode p pool d =
      .ok ⟨UInt16.ofNat (stackOf p d), UInt16.ofNat (p.localsOf d).length,
        (procedureLayout p pool d).encode⟩) ∨
    (¬ (procedureLayout p pool d).WithinLimits ∧ ∃ e : CompileError,
      (e.kind = .methodTooLong ∨ e.kind = .branchOffsetOutOfRange) ∧
        procedureCode p pool d = .error (.compile e)) := by
  obtain ⟨t, params, vars, ht⟩ := hp.wellFormed.procedure id d hd hk
  obtain ⟨t', ht', hlinked⟩ := hp.linked id d hd hk
  obtain rfl : t' = t := Option.some.inj (ht'.symm.trans ht.locals_eq)
  -- the pool has what the body needs, so only a branch that is too long stops it
  have hstocked := stocked_ofProcedure hp.wellFormed hpool ht
  have hliterals : (ofProcedure p pool d).HasLiterals d.body := fun v hv =>
    PoolBuilder.finds_literal hp.wellFormed hpool
      (hp.wellFormed.mem_procedureDecls.2 ⟨id, hd, hk⟩) hv
  have hbody : Meets 0 ((ofProcedure p pool d).statementLayout d.body)
      ((ofProcedure p pool d).statement d.body) := by
    obtain ⟨statements, place, hblock, hs⟩ := hlinked.eq_block
    rw [hblock] at hliterals ⊢
    rw [statement, statementLayout]
    exact meets_statements (fun s hmem => statement_meets hstocked (hs s hmem)
      (hliterals.statement s hmem)) 0
  -- the length is checked behind the body, with the return at its end
  have hcode : procedureCode p pool d = (do
      let body ← (ofProcedure p pool d).statement d.body
      if maxCodeLength < (body ++ tail d).size then
        .error (.compile ⟨.methodTooLong d.name (body ++ tail d).size, d.position⟩)
      else
        return ⟨UInt16.ofNat (stackOf p d), UInt16.ofNat (slotsOf (p.localsOf d)).size,
          (body ++ tail d).encode⟩) := rfl
  rw [hcode, size_slotsOf (nodup_localsOf hp.wellFormed d)]
  cases hbody' : (ofProcedure p pool d).statement d.body with
  | ok body =>
    rw [hbody'] at hbody
    cases hbody with
    | done hfit =>
      rw [ok_bind]
      split
      · rename_i hlong
        exact Or.inr ⟨fun h => absurd h.1 (Nat.not_le_of_lt hlong), _, Or.inl rfl, rfl⟩
      · rename_i hshort
        exact Or.inl ⟨⟨Nat.le_of_not_lt hshort,
          Code.branchesFit_append.2 ⟨hfit, branchesFit_tail d⟩⟩, rfl⟩
  | error e =>
    rw [hbody'] at hbody
    cases hbody with
    | stopped hkind hlong =>
      refine Or.inr ⟨fun h => ?_, _, hkind, rfl⟩
      -- a branch that is too long makes the code too long, or does not fit
      have hover := hlong (Code.branchesFit_append.1 h.2).1
      have hsize := h.1
      rw [procedureLayout, Code.size_append] at hsize
      omega

theorem storeConstants_eq {c : EmitContext} {ids : List DeclId}
    (h : ∀ id ∈ ids, ∀ d, c.program.decl? id = some d →
      c.pool.Finds (.integer d.value) ∧ c.pool.Finds (.ref id)) :
    c.storeConstants ids = .ok (c.storesLayout ids) := by
  induction ids with
  | nil => rfl
  | cons id rest ih =>
    rw [List.forall_mem_cons] at h
    rw [storeConstants, storesLayout, ih h.2]
    cases hd : c.program.decl? id with
    | none => rfl
    | some d =>
      obtain ⟨hvalue, href⟩ := h.1 d hd
      obtain ⟨i, hi⟩ := exists_push d.position fun _ => hvalue
      obtain ⟨index, hindex⟩ := exists_reference href
      dsimp only
      rw [hi, hindex]
      rfl

theorem branchesFit_storesLayout (c : EmitContext) (ids : List DeclId) :
    (c.storesLayout ids).BranchesFit := by
  induction ids with
  | nil => exact Code.branchesFit_nil
  | cons id rest ih =>
    rw [storesLayout]
    split
    · exact ih
    · exact Code.branchesFit_append.2 ⟨branchesFit_push _ _, Code.branchesFit_append.2
        ⟨branchesFit_reference (by simp [Opcode.operand]) _, ih⟩⟩

/-- The constructor is made exactly when its layout keeps within the limits. -/
theorem constructorCode_cases (hp : p.WellFormed) (hpool : PoolBuilder.ofProgram p = .ok pool) :
    ((constructorLayout p pool).WithinLimits ∧
      constructorCode p pool = .ok ⟨1, 1, (constructorLayout p pool).encode⟩) ∨
    (¬ (constructorLayout p pool).WithinLimits ∧ ∃ e : CompileError, e.kind = .methodTooLong ∧
      constructorCode p pool = .error (.compile e)) := by
  -- the pool has the value and the reference of each constant
  have hfound : ∀ id ∈ p.constants, ∀ d, p.decl? id = some d →
      pool.Finds (.integer d.value) ∧ pool.Finds (.ref id) := by
    intro id hid d hd
    obtain ⟨hmem, hkind⟩ := List.mem_filter.1 hid
    obtain ⟨d', hd', ht⟩ := hp.mem_members.1 hmem
    obtain rfl := Option.some.inj (hd'.symm.trans hd)
    have hk : d'.kind = .constant := by simpa [Program.hasKind, hd'] using hkind
    exact ⟨PoolBuilder.finds_member hp hpool hd ht
      (Or.inr (by simp [PoolBuilder.memberKeys, hk])),
      PoolBuilder.finds_member hp hpool hd ht (Or.inl rfl)⟩
  have hstores := storeConstants_eq (c := { program := p, pool }) hfound
  -- there are no branches, so only the length can break a limit
  have hfit : (constructorLayout p pool).BranchesFit := by
    simp only [constructorLayout, initCode, Code.branchesFit_cons, Code.branchesFit_append]
    exact ⟨by simp [Opcode.operand], by simp [Opcode.operand], branchesFit_storesLayout _ _,
      by simp [Opcode.operand], by simp⟩
  have hcode : constructorCode p pool =
      if maxCodeLength < (constructorLayout p pool).size then
        .error (.compile ⟨.constructorTooLong (constructorLayout p pool).size, p.position⟩)
      else .ok ⟨1, 1, (constructorLayout p pool).encode⟩ := by
    rw [constructorCode, hstores]
    rfl
  rw [hcode]
  split
  · rename_i hlong
    exact Or.inr ⟨fun h => absurd h.1 (Nat.not_le_of_lt hlong), _, rfl, rfl⟩
  · rename_i hshort
    exact Or.inl ⟨⟨Nat.le_of_not_lt hshort, hfit⟩, rfl⟩

end EmitContext

/-! ### Class files -/

namespace Program

variable {p : Program} {pool : PoolBuilder}

theorem exists_fields (hp : p.WellFormed) (hpool : PoolBuilder.ofProgram p = .ok pool) :
    ∃ fields, p.fields pool = .ok fields := by
  cases hfields : (p.members.filterMap p.decl?).mapM pool.field? with
  | ok rs => exact ⟨_, by rw [fields, hfields]; rfl⟩
  | error e =>
    obtain ⟨d, hmem, herror⟩ := exists_of_mapM_eq_error hfields
    obtain ⟨id, hid, hd⟩ := List.mem_filterMap.1 hmem
    obtain ⟨d', hd', ht⟩ := hp.mem_members.1 hid
    obtain rfl := Option.some.inj (hd'.symm.trans hd)
    obtain ⟨r, hr⟩ := PoolBuilder.exists_field? (d := d') fun key hkey =>
      PoolBuilder.finds_member hp hpool hd ht (Or.inr hkey)
    rw [hr] at herror
    cases herror

/-- The member of a procedure is made when its code is. -/
theorem exists_procedureMethod (hp : p.WellFormed) (hpool : PoolBuilder.ofProgram p = .ok pool)
    {d : Declaration} (hd : d ∈ p.procedureDecls) {code : MethodCode}
    (hcode : EmitContext.procedureCode p pool d = .ok code) :
    ∃ m, p.procedureMethod pool d = .ok m := by
  obtain ⟨id, hd, hk⟩ := hp.mem_procedureDecls.1 hd
  have hkeys : ∀ key ∈ PoolBuilder.memberKeys d, pool.Finds key := fun key hkey =>
    PoolBuilder.finds_member hp hpool hd (hp.procedure_table_eq hd hk) (Or.inr hkey)
  simp only [PoolBuilder.memberKeys, hk, List.forall_mem_cons] at hkeys
  obtain ⟨m, hm⟩ := PoolBuilder.exists_method PoolBuilder.staticFlags code hkeys.1
    hkeys.2.1 (PoolBuilder.finds_standard hp hpool (by simp))
  exact ⟨m, by rw [procedureMethod, hcode, ok_bind, hm]⟩

/-- Behind its pool, the class file of a checked program is made exactly when the layouts of its
methods keep within the limits. -/
theorem Checked.classFile_cases (hp : p.Checked) (hpool : PoolBuilder.ofProgram p = .ok pool) :
    (p.LayoutsFit pool ∧ ∃ f, p.classFile = .ok f) ∨
      (¬ p.LayoutsFit pool ∧ ∃ e : CompileError,
        (e.kind = .methodTooLong ∨ e.kind = .branchOffsetOutOfRange) ∧
          p.classFile = .error (.compile e)) := by
  obtain ⟨fields, hfields⟩ := exists_fields hp.wellFormed hpool
  rw [classFile, hpool, ok_bind, hfields, ok_bind, methods]
  cases hms : (p.procedures.filterMap p.decl?).mapM (p.procedureMethod pool) with
  | error e =>
    -- Some procedure has no method, so its code breaks a limit.
    obtain ⟨d, hmem, herror⟩ := exists_of_mapM_eq_error hms
    obtain ⟨id, hd, hk⟩ := hp.wellFormed.mem_procedureDecls.1 hmem
    rcases EmitContext.procedureCode_cases hp hpool hd hk with ⟨-, hok⟩ | ⟨hlimit, e', hkind, he'⟩
    · obtain ⟨m, hm⟩ := exists_procedureMethod hp.wellFormed hpool hmem hok
      rw [hm] at herror
      cases herror
    · rw [procedureMethod, he'] at herror
      obtain rfl := Except.error.inj herror
      exact Or.inr ⟨fun hfit => hlimit (hfit.procedures d hmem), e', hkind, rfl⟩
  | ok ms =>
    -- All procedures keep within the limits, and the constructor decides.
    have hprocedures : ∀ d ∈ p.procedureDecls,
        (EmitContext.procedureLayout p pool d).WithinLimits := by
      intro d hmem
      obtain ⟨id, hd, hk⟩ := hp.wellFormed.mem_procedureDecls.1 hmem
      obtain ⟨n, hn⟩ := List.mem_iff_getElem?.1 hmem
      obtain ⟨m, -, hm⟩ := forall₂_getElem? (mapM_eq_ok.1 hms) hn
      rcases EmitContext.procedureCode_cases hp hpool hd hk with ⟨hlimit, -⟩ | ⟨-, e, -, he⟩
      · exact hlimit
      · rw [procedureMethod, he] at hm
        cases hm
    rw [ok_bind]
    rcases EmitContext.constructorCode_cases hp.wellFormed hpool with
      ⟨hlimit, hok⟩ | ⟨hlimit, e, hkind, he⟩
    · have hname : pool.Finds (.utf8 ClassFile.initName) :=
        PoolBuilder.finds_standard hp.wellFormed hpool (by simp)
      have hdescriptor : pool.Finds (.utf8 ClassFile.initDescriptor) :=
        PoolBuilder.finds_standard hp.wellFormed hpool (by simp)
      obtain ⟨m, hm⟩ := PoolBuilder.exists_method ClassFile.publicFlag
        ⟨1, 1, (EmitContext.constructorLayout p pool).encode⟩ hname hdescriptor
        (PoolBuilder.finds_standard hp.wellFormed hpool (by simp))
      rw [hok, ok_bind, hm]
      exact Or.inl ⟨⟨hprocedures, hlimit⟩, _, rfl⟩
    · rw [he]
      exact Or.inr ⟨fun hfit => hlimit hfit.constructor, e, Or.inl hkind, rfl⟩

/-- The methods of a class file hold their layouts, and the stacks that are counted for them. -/
structure LaidOut (p : Program) (pool : PoolBuilder) (f : ClassFile) : Prop where
  /-- No stack needs more than two bytes. -/
  stackOf_le : ∀ d ∈ p.procedureDecls, EmitContext.stackOf p d ≤ 0xFFFF
  /-- There is a method for each procedure, and the constructor behind them. -/
  methods : ∃ methods constructor, f.methods = methods ++ [constructor] ∧
    List.Forall₂ (fun d m => ∃ code : MethodCode, MethodOf f.pool d.name d.descriptor code m ∧
      code.maxStack.toNat = EmitContext.stackOf p d ∧
      code.code = (EmitContext.procedureLayout p pool d).encode) p.procedureDecls methods ∧
    ∃ code : MethodCode, MethodOf f.pool ClassFile.initName ClassFile.initDescriptor code
      constructor ∧ code.maxStack = 1 ∧ code.code = (EmitContext.constructorLayout p pool).encode

theorem Checked.laidOut (hp : p.Checked) (hpool : PoolBuilder.ofProgram p = .ok pool)
    {f : ClassFile} (h : p.classFile = .ok f) : p.LaidOut pool f := by
  have hemitted := emitted_of_pool hp.wellFormed hpool h
  obtain ⟨methods, constructor, hmethods, hprocedures, code, hcode, hconstructor⟩ :=
    hemitted.methods
  have hprocedure : ∀ d ∈ p.procedureDecls, ∀ code, EmitContext.procedureCode p pool d = .ok code →
      EmitContext.stackOf p d ≤ 0xFFFF ∧ code.maxStack.toNat = EmitContext.stackOf p d ∧
        code.code = (EmitContext.procedureLayout p pool d).encode := by
    intro d hmem code hcode
    obtain ⟨id, hd, hk⟩ := hp.wellFormed.mem_procedureDecls.1 hmem
    obtain ⟨statements, body, hlayout, -⟩ := EmitContext.procedureCode_eq_ok hp hd hk hcode
    have hstack := hlayout.stackOf_le
    rcases EmitContext.procedureCode_cases hp hpool hd hk with ⟨-, hok⟩ | ⟨-, e, -, he⟩
    · obtain rfl := Except.ok.inj (hok.symm.trans hcode)
      refine ⟨hstack, ?_, rfl⟩
      -- The count is not cut down to two bytes.
      rw [UInt16.toNat_ofNat']
      exact Nat.mod_eq_of_lt (Nat.lt_succ_of_le hstack)
    · rw [he] at hcode
      cases hcode
  refine ⟨fun d hmem => ?_, methods, constructor, hmethods, ?_, code, ?_, ?_⟩
  · obtain ⟨n, hn⟩ := List.mem_iff_getElem?.1 hmem
    obtain ⟨m, -, code, hcode, -⟩ := forall₂_getElem? hprocedures hn
    exact (hprocedure d hmem code hcode).1
  · rw [hemitted.pool_eq]
    refine List.forall₂_iff_get.2 ⟨hprocedures.length_eq, fun n h₁ h₂ => ?_⟩
    obtain ⟨code, hcode, hm⟩ := (List.forall₂_iff_get.1 hprocedures).2 n h₁ h₂
    obtain ⟨-, hstack, hbytes⟩ := hprocedure _ (List.get_mem _ _) code hcode
    exact ⟨code, hm, hstack, hbytes⟩
  · rw [hemitted.pool_eq]
    exact hconstructor
  · rcases EmitContext.constructorCode_cases hp.wellFormed hpool with ⟨-, hok⟩ | ⟨-, e, -, he⟩
    · obtain rfl := Except.ok.inj (hok.symm.trans hcode)
      exact ⟨rfl, rfl⟩
    · rw [he] at hcode
      cases hcode

end Program

/-! ### Source texts -/

namespace Build

/-- What emission makes of a program. -/
structure Emission (p : Program) : Prop where
  /-- It finds every declaration and table that it looks up. -/
  lookups : p.LookupsDefined
  /-- It fails by the limits of the class-file format only. -/
  limits : ∀ e, p.classFile = .error e → ∃ error : CompileError, e = .compile error ∧
    error.kind ∈ [.constantPoolOverflow, .methodTooLong, .branchOffsetOutOfRange]
  /-- Behind the pool, it succeeds exactly when the layouts keep within the limits. -/
  exact_limits : ∀ pool, PoolBuilder.ofProgram p = .ok pool →
    ((∃ f, p.classFile = .ok f) ↔ p.LayoutsFit pool)
  /-- Then the methods hold their layouts and stacks. -/
  laidOut : ∀ pool f, PoolBuilder.ofProgram p = .ok pool → p.classFile = .ok f → p.LaidOut pool f

/-- The program of a source text that passes all checks is emitted unless it breaks a limit. -/
theorem emits_within_limits {text : Text} {p : Program} (h : Passes text p) :
    Emission p where
  lookups := h.checked.lookupsDefined
  limits e he := by
    cases hpool : PoolBuilder.ofProgram p with
    | error e' =>
      rw [Program.classFile, hpool] at he
      obtain rfl := Except.error.inj he
      rw [PoolBuilder.eq_overflow_of_ofProgram h.checked.wellFormed hpool]
      exact ⟨_, rfl, by simp [CompileError.kind, Cause.kind]⟩
    | ok pool =>
      rcases h.checked.classFile_cases hpool with ⟨-, f, hf⟩ | ⟨-, error, hkind, herror⟩
      · rw [hf] at he
        cases he
      · obtain rfl := Except.error.inj (herror.symm.trans he)
        exact ⟨error, rfl, by rcases hkind with hk | hk <;> simp [hk]⟩
  exact_limits pool hpool := by
    rcases h.checked.classFile_cases hpool with ⟨hfit, f, hf⟩ | ⟨hfit, error, -, herror⟩
    · exact ⟨fun _ => hfit, fun _ => ⟨f, hf⟩⟩
    · refine ⟨fun hok => ?_, fun h => absurd h hfit⟩
      obtain ⟨f, hf⟩ := hok
      rw [herror] at hf
      cases hf
  laidOut _ _ hpool hf := h.checked.laidOut hpool hf

theorem emits_within_limits_factorial :
    ∃ p, Passes factorialSource p ∧ Emission p := by
  obtain ⟨p, f, h, -⟩ := factorialSource_builds
  exact ⟨p, (passes h).1, emits_within_limits (passes h).1⟩

end Build

end Classwright
