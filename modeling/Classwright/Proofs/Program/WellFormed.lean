import Classwright.Proofs.Parser.Built
import Classwright.Proofs.Program.Tables
import Mathlib.Tactic.ByContra
import Mathlib.Tactic.Set

/-!
# Well-formed programs

What every built program satisfies whether or not its names are linked (`Program.WellFormed`): its
tables are tidy, its names are identifiers, the class holds constants, variables and procedures, and
each procedure has a table inside that of the class, which lists its parameters and then its
variables.  Before linking the body of each procedure is a block (`Program.Built.isBlock_body`).
-/

namespace Classwright

namespace Program

variable {p q : Program}

/-- The table of a procedure: its parameters, in the order of its head, and then its variables. -/
structure ProcedureTable (p : Program) (d : Declaration) (t : TableId) (params vars : List DeclId) :
    Prop where
  /-- The procedure names the table. -/
  locals_eq : d.locals = some t
  /-- It is not that of the class. -/
  pos : classTable < t
  /-- It stands inside that of the class. -/
  parent : ∃ tab, p.table? t = some tab ∧ tab.parent = some classTable
  /-- It lists parameters and then variables. -/
  members_eq : p.membersOf t = params ++ vars
  /-- The parameters are those of the procedure. -/
  params_eq : d.params = params.map some
  /-- They are parameters. -/
  params_kind : ∀ id ∈ params, p.hasKind .parameter id = true
  /-- The others are variables. -/
  vars_kind : ∀ id ∈ vars, p.hasKind .var id = true

/-- The declarations of a program are those of a class. -/
structure WellFormed (p : Program) : Prop where
  /-- The tables agree with the declarations. -/
  tidy : p.Tidy
  /-- The name of the class is an identifier. -/
  name : p.name.IsIdentifier
  /-- So is the name of every declaration. -/
  decl_name : ∀ id d, p.decl? id = some d → d.name.IsIdentifier
  /-- No table stands around that of the class. -/
  root : ∀ tab, p.table? classTable = some tab → tab.parent = none
  /-- The class has no parameters. -/
  member_kind : ∀ id d, p.decl? id = some d → d.table = classTable → d.kind ≠ .parameter
  /-- Procedures and constants belong to the class. -/
  local_kind : ∀ id d, p.decl? id = some d → d.table ≠ classTable →
    d.kind = .parameter ∨ d.kind = .var
  /-- Each procedure has its table. -/
  procedure : ∀ id d, p.decl? id = some d → d.kind = .procedure →
    ∃ t params vars, p.ProcedureTable d t params vars

theorem ProcedureTable.localsOf_eq {d : Declaration} {t : TableId} {params vars : List DeclId}
    (h : p.ProcedureTable d t params vars) : p.localsOf d = params ++ vars := by
  rw [localsOf, h.locals_eq]
  exact h.members_eq

/-- The variables of a procedure are what its table lists behind the parameters. -/
theorem ProcedureTable.localVariables_eq {d : Declaration} {t : TableId}
    {params vars : List DeclId} (h : p.ProcedureTable d t params vars) :
    p.localVariables d = vars := by
  have hparams : params.filter (p.hasKind .var) = [] := by
    rw [List.filter_eq_nil_iff]
    intro id hid hvar
    have hparam := h.params_kind id hid
    unfold hasKind at hparam hvar
    cases hd : p.decl? id with
    | none => simp [hd] at hparam
    | some e =>
      simp only [hd, beq_iff_eq] at hparam hvar
      exact absurd (hparam.symm.trans hvar) (by decide)
  rw [localVariables, h.localsOf_eq, List.filter_append, hparams, List.nil_append,
    List.filter_eq_self.2 h.vars_kind]

theorem WellFormed.mem_members (hp : p.WellFormed) {id : DeclId} :
    id ∈ p.members ↔ ∃ d, p.decl? id = some d ∧ d.table = classTable :=
  hp.tidy.mem_membersOf classTable id

/-- The procedures of the class are the declarations of that kind. -/
theorem WellFormed.mem_procedures (hp : p.WellFormed) {id : DeclId} :
    id ∈ p.procedures ↔ ∃ d, p.decl? id = some d ∧ d.kind = .procedure := by
  rw [procedures, List.mem_filter, hp.mem_members]
  constructor
  · rintro ⟨⟨d, hd, -⟩, hk⟩
    simp only [Program.hasKind, hd, beq_iff_eq] at hk
    exact ⟨d, hd, hk⟩
  · rintro ⟨d, hd, hk⟩
    refine ⟨⟨d, hd, ?_⟩, by simp [Program.hasKind, hd, hk]⟩
    by_contra htable
    rcases hp.local_kind id d hd htable with h | h <;> simp [h] at hk

/-- The tables of old procedures are older than the table of a new one. -/
theorem WellFormed.locals_ne (hp : p.WellFormed) {id : DeclId} {e : Declaration}
    (hid : id ∈ p.procedures) (he : p.decl? id = some e) : e.locals ≠ some p.tables.size := by
  obtain ⟨e', he', hk⟩ := hp.mem_procedures.1 hid
  obtain rfl := Option.some.inj (he'.symm.trans he)
  obtain ⟨t, params, vars, ht⟩ := hp.procedure id e' he' hk
  obtain ⟨tab, htab, -⟩ := ht.parent
  rw [ht.locals_eq]
  exact fun heq => Nat.ne_of_lt (Array.getElem?_eq_some_iff.1 htab).1 (Option.some.inj heq)

/-! ### Adding declarations -/

/-- `q` is `p` with the declarations `new` added to the table `t`. -/
structure Extends (p q : Program) (t : TableId) (new : List DeclId) : Prop where
  /-- The class keeps its name. -/
  name_eq : q.name = p.name
  /-- Old declarations stay. -/
  decl?_old : ∀ j d, p.decl? j = some d → q.decl? j = some d
  /-- All others are in the table. -/
  decl?_new : ∀ j d, q.decl? j = some d → p.decl? j = some d ∨ j ∈ new ∧ d.table = t
  /-- The table has them at its end. -/
  membersOf_self : q.membersOf t = p.membersOf t ++ new
  /-- Other tables stay. -/
  membersOf_other : ∀ s, s ≠ t → q.membersOf s = p.membersOf s
  /-- No table is added. -/
  size_eq : q.tables.size = p.tables.size
  /-- Tables stay where they are. -/
  parent_eq : ∀ s, (q.table? s).map SymbolTable.parent = (p.table? s).map SymbolTable.parent

theorem extends_declare {t : TableId} {d : Declaration} {id : DeclId} (ht : t < p.tables.size)
    (h : p.declare t d = .ok (q, id)) : p.Extends q t [id] where
  name_eq := name_declare h
  decl?_old j e he := by
    rw [decl?_declare h]
    split
    · rename_i hj
      rw [hj, decl?_declare_new h] at he
      exact absurd he (by simp)
    · exact he
  decl?_new j e he := by
    rw [decl?_declare h] at he
    split at he
    · rename_i hj
      obtain rfl := Option.some.inj he
      exact Or.inr ⟨by simp [hj], rfl⟩
    · exact Or.inl he
  membersOf_self := by rw [membersOf_declare h ht, if_pos rfl]
  membersOf_other s hs := by rw [membersOf_declare h ht, if_neg (Ne.symm hs)]
  size_eq := tables_size_declare h
  parent_eq s := by
    rw [table?_declare h]
    split
    · rw [Option.map_map]
      congr 1
      funext tab
      exact parent_insert tab id d
    · rfl

theorem Extends.trans {r : Program} {t : TableId} {new more : List DeclId} (h : p.Extends q t new)
    (h' : q.Extends r t more) : p.Extends r t (new ++ more) where
  name_eq := h'.name_eq.trans h.name_eq
  decl?_old j d hd := h'.decl?_old j d (h.decl?_old j d hd)
  decl?_new j d hd := by
    rcases h'.decl?_new j d hd with hd | ⟨hj, ht⟩
    · rcases h.decl?_new j d hd with hd | ⟨hj, ht⟩
      · exact Or.inl hd
      · exact Or.inr ⟨List.mem_append_left _ hj, ht⟩
    · exact Or.inr ⟨List.mem_append_right _ hj, ht⟩
  membersOf_self := by rw [h'.membersOf_self, h.membersOf_self, List.append_assoc]
  membersOf_other s hs := (h'.membersOf_other s hs).trans (h.membersOf_other s hs)
  size_eq := h'.size_eq.trans h.size_eq
  parent_eq s := (h'.parent_eq s).trans (h.parent_eq s)

theorem Extends.hasKind {t : TableId} {new : List DeclId} (h : p.Extends q t new) {k : DeclKind}
    {id : DeclId} (hk : p.hasKind k id = true) : q.hasKind k id = true := by
  unfold Program.hasKind at hk ⊢
  cases hd : p.decl? id with
  | none => simp [hd] at hk
  | some d =>
    rw [hd] at hk
    rw [h.decl?_old id d hd]
    exact hk

theorem Extends.exists_parent {t s : TableId} {new : List DeclId} (h : p.Extends q s new)
    {outer : Option TableId} (ht : ∃ tab, p.table? t = some tab ∧ tab.parent = outer) :
    ∃ tab, q.table? t = some tab ∧ tab.parent = outer := by
  obtain ⟨tab, htab, hpar⟩ := ht
  have heq := h.parent_eq t
  rw [htab, Option.map_some, Option.map_eq_some_iff] at heq
  obtain ⟨tab', htab', hpar'⟩ := heq
  exact ⟨tab', htab', hpar'.trans hpar⟩

/-- Declaring parameters adds them, in order, to their table. -/
theorem declareParams_spec {t : TableId} {params : List (Text × Position)}
    {ids : List (Option DeclId)} (ht : t < p.tables.size) (hp : p.Tidy)
    (h : Parser.declareParams p t params = .ok (q, ids)) :
    ∃ new, ids = new.map some ∧ new.length = params.length ∧ p.Extends q t new ∧ q.Tidy ∧
      (∀ id ∈ new, q.hasKind .parameter id = true) ∧
      ∀ id ∈ new, ∀ d, q.decl? id = some d → d.kind = .parameter ∧ ∃ x ∈ params, d.name = x.1 := by
  induction params generalizing p ids with
  | nil =>
    simp only [Parser.declareParams, Except.ok.injEq, Prod.mk.injEq] at h
    obtain ⟨rfl, rfl⟩ := h
    exact ⟨[], rfl, rfl, ⟨rfl, fun _ _ h => h, fun _ _ h => Or.inl h, by simp, fun _ _ => rfl, rfl,
      fun _ => rfl⟩, hp, by simp, by simp⟩
  | cons param rest ih =>
    obtain ⟨name, position⟩ := param
    simp only [Parser.declareParams, bind_eq_ok, pure_eq_ok] at h
    obtain ⟨⟨p₁, id⟩, hd, ⟨p₂, others⟩, hrest, h⟩ := h
    simp only [Prod.mk.injEq] at h
    obtain ⟨rfl, rfl⟩ := h
    have hext := extends_declare ht hd
    obtain ⟨new, rfl, hlen, hext', htidy, hkind, hnames⟩ :=
      ih (by rw [tables_size_declare hd]; exact ht) (hp.declare ht hd) hrest
    have hid : p₂.decl? id = some { kind := .parameter, name, position, table := t } :=
      hext'.decl?_old id _ (by rw [decl?_declare hd, if_pos rfl])
    refine ⟨id :: new, rfl, by simp [hlen], hext.trans hext', htidy, ?_, ?_⟩
    · rw [List.forall_mem_cons]
      refine ⟨?_, hkind⟩
      simp [Program.hasKind, hid]
    · rw [List.forall_mem_cons]
      constructor
      · intro d hd'
        obtain rfl := Option.some.inj (hid.symm.trans hd')
        exact ⟨rfl, _, List.mem_cons_self, rfl⟩
      · intro j hj d hd'
        obtain ⟨hk, x, hx, hname⟩ := hnames j hj d hd'
        exact ⟨hk, x, List.mem_cons_of_mem _ hx, hname⟩

/-- The table of a procedure stays as declarations are added elsewhere. -/
theorem ProcedureTable.extends {d : Declaration} {t s : TableId} {params vars new : List DeclId}
    (h : p.ProcedureTable d t params vars) (hext : p.Extends q s new) (hs : t ≠ s) :
    q.ProcedureTable d t params vars where
  locals_eq := h.locals_eq
  pos := h.pos
  parent := hext.exists_parent h.parent
  members_eq := (hext.membersOf_other t hs).trans h.members_eq
  params_eq := h.params_eq
  params_kind id hid := hext.hasKind (h.params_kind id hid)
  vars_kind id hid := hext.hasKind (h.vars_kind id hid)

theorem WellFormed.empty {name : Text} {place : Position} (h : name.IsIdentifier) :
    (Program.empty name place).WellFormed where
  tidy := .empty name place
  name := h
  decl_name id d hd := by simp [Program.empty, decl?] at hd
  root tab htab := by rw [table?_empty htab]
  member_kind id d hd := by simp [Program.empty, decl?] at hd
  local_kind id d hd := by simp [Program.empty, decl?] at hd
  procedure id d hd := by simp [Program.empty, decl?] at hd

/-- Declaring constants and variables keeps a program well formed. -/
theorem WellFormed.declare {t : TableId} {d : Declaration} {id : DeclId} (hp : p.WellFormed)
    (ht : t < p.tables.size) (hname : d.name.IsIdentifier)
    (hkind : d.kind = .var ∨ d.kind = .constant ∧ t = classTable)
    (h : p.declare t d = .ok (q, id)) : q.WellFormed := by
  have hext := extends_declare ht h
  -- a declaration is an old one or the new one
  have hcases {j : DeclId} {e : Declaration} (he : q.decl? j = some e) :
      p.decl? j = some e ∨ j = id ∧ e = { d with table := t } := by
    rw [decl?_declare h] at he
    split at he
    · rename_i hj
      exact Or.inr ⟨hj, (Option.some.inj he).symm⟩
    · exact Or.inl he
  refine
    { tidy := hp.tidy.declare ht h
      name := by rw [hext.name_eq]; exact hp.name
      decl_name := ?decl_name
      root := ?root
      member_kind := ?member_kind
      local_kind := ?local_kind
      procedure := ?procedure }
  case decl_name =>
    intro j e he
    rcases hcases he with he | ⟨-, rfl⟩
    · exact hp.decl_name j e he
    · exact hname
  case root =>
    intro tab htab
    have heq := hext.parent_eq classTable
    rw [htab, Option.map_some, eq_comm, Option.map_eq_some_iff] at heq
    obtain ⟨tab', htab', hpar⟩ := heq
    rw [← hpar]
    exact hp.root tab' htab'
  case member_kind =>
    intro j e he htable
    rcases hcases he with he | ⟨-, rfl⟩
    · exact hp.member_kind j e he htable
    · rcases hkind with hk | ⟨hk, -⟩ <;> simp [hk]
  case local_kind =>
    intro j e he htable
    rcases hcases he with he | ⟨-, rfl⟩
    · exact hp.local_kind j e he htable
    · rcases hkind with hk | ⟨-, ht⟩
      · exact Or.inr hk
      · exact absurd ht htable
  case procedure =>
    intro j e he hk
    rcases hcases he with he | ⟨-, rfl⟩
    -- an old procedure: its table gets one more variable, or stays
    · obtain ⟨s, params, vars, hs⟩ := hp.procedure j e he hk
      by_cases hst : s = t
      · subst hst
        have hvar : d.kind = .var := by
          rcases hkind with hk | ⟨-, hclass⟩
          · exact hk
          · exact absurd hclass (Nat.ne_of_gt hs.pos)
        refine ⟨s, params, vars ++ [id], hs.locals_eq, hs.pos, hext.exists_parent hs.parent, ?_,
          hs.params_eq, ?_, ?_⟩
        · rw [hext.membersOf_self, hs.members_eq, List.append_assoc]
        · exact fun i hi => hext.hasKind (hs.params_kind i hi)
        · intro i hi
          rcases List.mem_append.1 hi with hi | hi
          · exact hext.hasKind (hs.vars_kind i hi)
          · rw [List.mem_singleton.1 hi]
            simp [Program.hasKind, decl?_declare h, hvar]
      · exact ⟨s, params, vars, hs.extends hext hst⟩
    -- the new one is no procedure
    · rcases hkind with hk' | ⟨hk', -⟩ <;> simp [hk'] at hk

/-- What declaring a procedure does, step by step. -/
theorem declareMethod_eq_ok {head : Parser.MethodHead} {procedure : DeclId} {table : TableId}
    (h : Parser.declareMethod p head = .ok (q, procedure, table)) :
    ∃ p₁ p₂ ids,
      p.declare classTable
        { kind := .procedure
          name := head.name
          type := head.type
          params := head.params.reverse.map fun _ => none
          position := head.place } = .ok (p₁, procedure) ∧
      table = p₁.tables.size ∧
      Parser.declareParams (p₁.addTable (some classTable) (some procedure)).1 table
        head.params.reverse = .ok (p₂, ids) ∧
      q = p₂.update procedure fun d => { d with locals := some table, params := ids } := by
  simp only [Parser.declareMethod, bind_eq_ok, pure_eq_ok] at h
  obtain ⟨⟨p₁, procedure'⟩, hd, ⟨p₂, ids⟩, hparams, h⟩ := h
  simp only [Prod.mk.injEq] at h
  obtain ⟨rfl, rfl, rfl⟩ := h
  exact ⟨p₁, p₂, ids, hd, rfl, hparams, rfl⟩

/-- A program with a new procedure: the old declarations, the procedure, and its parameters in a
table of their own. -/
structure AddsProcedure (p q : Program) (procedure : DeclId) (d : Declaration) (table : TableId)
    (params : List DeclId) : Prop where
  /-- The class keeps its name. -/
  name_eq : q.name = p.name
  /-- The tables are tidy. -/
  tidy : q.Tidy
  /-- The table is new. -/
  table_eq : table = p.tables.size
  /-- There is one table more. -/
  size_eq : q.tables.size = p.tables.size + 1
  /-- The procedure is new. -/
  procedure_new : p.decl? procedure = none
  /-- The procedure is there. -/
  decl?_procedure : q.decl? procedure = some d
  /-- It is a procedure of the class. -/
  kind_eq : d.kind = .procedure
  /-- It belongs to the class. -/
  table_class : d.table = classTable
  /-- Old declarations stay. -/
  decl?_old : ∀ j e, p.decl? j = some e → q.decl? j = some e
  /-- All others are parameters in the new table. -/
  decl?_new : ∀ j e, q.decl? j = some e → p.decl? j = some e ∨ j = procedure ∨
    j ∈ params ∧ e.table = table ∧ e.kind = .parameter
  /-- The class has one procedure more. -/
  membersOf_class : q.membersOf classTable = p.membersOf classTable ++ [procedure]
  /-- Other old tables stay. -/
  membersOf_other : ∀ s, s ≠ classTable → s ≠ table → q.membersOf s = p.membersOf s
  /-- Old tables stay where they are. -/
  parent_eq : ∀ s, s ≠ table →
    (q.table? s).map SymbolTable.parent = (p.table? s).map SymbolTable.parent
  /-- The new table lists the parameters. -/
  procedureTable : q.ProcedureTable d table params []

/-- Declaring a procedure adds it. -/
theorem addsProcedure_declareMethod {head : Parser.MethodHead} {procedure : DeclId}
    {table : TableId} (hp : p.Tidy) (h : Parser.declareMethod p head = .ok (q, procedure, table)) :
    ∃ d params, p.AddsProcedure q procedure d table params ∧ d.name = head.name ∧
      d.type = head.type ∧ d.body = .absent ∧ params.length = head.params.length ∧
      ∀ id ∈ params, ∀ e, q.decl? id = some e → ∃ x ∈ head.params, e.name = x.1 := by
  obtain ⟨p₁, p₂, ids, hd, rfl, hparams, rfl⟩ := declareMethod_eq_ok h
  have hpos : classTable < p.tables.size := hp.tables_pos
  have hsize := tables_size_declare hd
  have hext := extends_declare hpos hd
  have htidy₁ := hp.declare hpos hd
  have htidy : (p₁.addTable (some classTable) (some procedure)).1.Tidy :=
    htidy₁.addTable_inClass _
  -- the parameters are declared in the table that was added for the procedure
  obtain ⟨params, rfl, hlen, hext', htidy₂, hkind, hnames⟩ :=
    declareParams_spec (by simp) htidy hparams
  -- the procedure is declared without a table, and is told its table and parameters at the end
  have hproc : p₂.decl? procedure = some
      { kind := .procedure
        name := head.name
        type := head.type
        params := head.params.reverse.map fun _ => none
        position := head.place
        table := classTable } :=
    hext'.decl?_old procedure _ (by rw [decl?_addTable, decl?_declare hd, if_pos rfl])
  have hfresh : procedure ∉ params := by
    intro hmem
    exact absurd (hnames procedure hmem _ hproc).1 (by simp)
  have hnew := decl?_declare_new hd
  set d : Declaration :=
    { kind := .procedure
      name := head.name
      type := head.type
      params := params.map some
      locals := some p₁.tables.size
      position := head.place
      table := classTable } with hdef
  -- the update at the end leaves every other declaration as it is
  have hupdate (j : DeclId) (hj : j ≠ procedure) :
      (p₂.update procedure fun d =>
        { d with locals := some p₁.tables.size, params := params.map some }).decl? j =
      p₂.decl? j := by
    rw [decl?_update, if_neg (Ne.symm hj)]
  refine ⟨d, params, ?_, rfl, rfl, rfl, by simpa using hlen, ?_⟩
  · refine
      { name_eq := by rw [name_update, hext'.name_eq, name_addTable, hext.name_eq]
        tidy := ?_
        table_eq := hsize
        size_eq := by rw [tables_update, hext'.size_eq, tables_size_addTable, hsize]
        procedure_new := hnew
        decl?_procedure := by rw [decl?_update, if_pos rfl, hproc, Option.map_some]
        kind_eq := rfl
        table_class := rfl
        decl?_old := ?_
        decl?_new := ?_
        membersOf_class := ?_
        membersOf_other := ?_
        parent_eq := ?_
        procedureTable := ?_ }
    · refine htidy₂.update fun e he => ?_
      obtain rfl := Option.some.inj (hproc.symm.trans he)
      exact ⟨rfl, rfl, by simp [Declaration.arity, hlen], rfl⟩
    · intro j e he
      have hj : j ≠ procedure := by
        rintro rfl
        rw [hnew] at he
        exact absurd he (by simp)
      rw [hupdate j hj]
      exact hext'.decl?_old j e (hext.decl?_old j e he)
    · intro j e he
      by_cases hj : j = procedure
      · exact Or.inr (Or.inl hj)
      · rw [hupdate j hj] at he
        rcases hext'.decl?_new j e he with he' | ⟨hmem, htable⟩
        · rcases hext.decl?_new j e he' with he' | ⟨hmem, -⟩
          · exact Or.inl he'
          · exact absurd (List.mem_singleton.1 hmem) hj
        · exact Or.inr (Or.inr ⟨hmem, htable, (hnames j hmem e he).1⟩)
    · rw [membersOf_update, hext'.membersOf_other _ (by rw [hsize]; exact Nat.ne_of_lt hpos),
        membersOf_addTable, hext.membersOf_self]
    · intro s hs hs'
      rw [membersOf_update, hext'.membersOf_other s hs', membersOf_addTable,
        hext.membersOf_other s hs]
    · intro s hs
      rw [table?_update, hext'.parent_eq, table?_addTable, if_neg hs, hext.parent_eq]
    · refine ⟨rfl, by rw [hsize]; exact hpos, ?_, ?_, rfl, ?_, by simp⟩
      · exact hext'.exists_parent ⟨{ parent := some classTable, owner := some procedure },
          by rw [table?_addTable, if_pos rfl], rfl⟩
      · rw [membersOf_update, hext'.membersOf_self, membersOf_addTable, List.append_nil,
          membersOf_eq_nil (Nat.le_refl _), List.nil_append]
      · intro id hid
        have hk := hkind id hid
        have hne : id ≠ procedure := fun heq => hfresh (heq ▸ hid)
        unfold Program.hasKind at hk ⊢
        rw [hupdate id hne]
        exact hk
  · intro id hid e he
    have hne : id ≠ procedure := fun heq => hfresh (heq ▸ hid)
    rw [hupdate id hne] at he
    obtain ⟨-, x, hx, hname⟩ := hnames id hid e he
    exact ⟨x, List.mem_reverse.1 hx, hname⟩

/-- The tables of the other procedures stay as they are. -/
theorem AddsProcedure.procedureTable_old {procedure : DeclId} {d e : Declaration}
    {table t : TableId} {params ps vars : List DeclId} (h : p.AddsProcedure q procedure d table params)
    (ht : p.ProcedureTable e t ps vars) : q.ProcedureTable e t ps vars := by
  obtain ⟨tab, htab, hpar⟩ := ht.parent
  have hlt : t < p.tables.size := (Array.getElem?_eq_some_iff.1 htab).1
  have hne : t ≠ table := by
    rw [h.table_eq]
    exact Nat.ne_of_lt hlt
  have hkind (k : DeclKind) (id : DeclId) (hid : p.hasKind k id = true) :
      q.hasKind k id = true := by
    unfold Program.hasKind at hid ⊢
    cases hd : p.decl? id with
    | none => simp [hd] at hid
    | some e =>
      rw [hd] at hid
      rw [h.decl?_old id e hd]
      exact hid
  have heq := h.parent_eq t hne
  rw [htab, Option.map_some, Option.map_eq_some_iff] at heq
  obtain ⟨tab', htab', hpar'⟩ := heq
  exact ⟨ht.locals_eq, ht.pos, ⟨tab', htab', hpar'.trans hpar⟩,
    (h.membersOf_other t (Nat.ne_of_gt ht.pos) hne).trans ht.members_eq, ht.params_eq,
    fun id hid => hkind _ id (ht.params_kind id hid),
    fun id hid => hkind _ id (ht.vars_kind id hid)⟩

/-- Declaring a procedure keeps a program well formed. -/
theorem WellFormed.addsProcedure {procedure : DeclId} {d : Declaration} {table : TableId}
    {params : List DeclId} (hp : p.WellFormed) (h : p.AddsProcedure q procedure d table params)
    (hname : d.name.IsIdentifier)
    (hparams : ∀ id ∈ params, ∀ e, q.decl? id = some e → e.name.IsIdentifier) :
    q.WellFormed := by
  have hpos : classTable ≠ table := Nat.ne_of_lt h.procedureTable.pos
  refine
    { tidy := h.tidy
      name := by rw [h.name_eq]; exact hp.name
      decl_name := ?decl_name
      root := ?root
      member_kind := ?member_kind
      local_kind := ?local_kind
      procedure := ?procedure }
  -- a declaration is an old one, the procedure or a parameter
  case decl_name =>
    intro j e he
    rcases h.decl?_new j e he with he' | rfl | ⟨hj, -⟩
    · exact hp.decl_name j e he'
    · obtain rfl := Option.some.inj (h.decl?_procedure.symm.trans he)
      exact hname
    · exact hparams j hj e he
  case root =>
    intro tab htab
    have heq := h.parent_eq classTable hpos
    rw [htab, Option.map_some, eq_comm, Option.map_eq_some_iff] at heq
    obtain ⟨tab', htab', hpar⟩ := heq
    rw [← hpar]
    exact hp.root tab' htab'
  case member_kind =>
    intro j e he htable
    rcases h.decl?_new j e he with he' | rfl | ⟨-, ht, -⟩
    · exact hp.member_kind j e he' htable
    · obtain rfl := Option.some.inj (h.decl?_procedure.symm.trans he)
      simp [h.kind_eq]
    · exact absurd (htable.symm.trans ht) hpos
  case local_kind =>
    intro j e he htable
    rcases h.decl?_new j e he with he' | rfl | ⟨-, -, hk⟩
    · exact hp.local_kind j e he' htable
    · obtain rfl := Option.some.inj (h.decl?_procedure.symm.trans he)
      exact absurd h.table_class htable
    · exact Or.inl hk
  case procedure =>
    intro j e he hk
    rcases h.decl?_new j e he with he' | rfl | ⟨-, -, hk'⟩
    -- the tables of old procedures stay as they are
    · obtain ⟨t, ps, vars, ht⟩ := hp.procedure j e he' hk
      exact ⟨t, ps, vars, h.procedureTable_old ht⟩
    · obtain rfl := Option.some.inj (h.decl?_procedure.symm.trans he)
      exact ⟨table, params, [], h.procedureTable⟩
    · rw [hk'] at hk
      exact absurd hk (by simp)

theorem hasKind_update_body (p : Program) (procedure : DeclId) (g : Declaration → Node)
    (k : DeclKind) (id : DeclId) :
    (p.update procedure fun d => { d with body := g d }).hasKind k id = p.hasKind k id := by
  unfold Program.hasKind
  by_cases h : procedure = id
  · rw [decl?_update, if_pos h]
    cases p.decl? id <;> rfl
  · rw [decl?_update, if_neg h]

/-- Giving a procedure another body keeps a program well formed. -/
theorem WellFormed.update_body (hp : p.WellFormed) (procedure : DeclId) (g : Declaration → Node) :
    (p.update procedure fun d => { d with body := g d }).WellFormed := by
  have hcases {j : DeclId} {e : Declaration}
      (he : (p.update procedure fun d => { d with body := g d }).decl? j = some e) :
      ∃ e' body, p.decl? j = some e' ∧ e = { e' with body } := by
    rw [decl?_update] at he
    split at he
    · obtain ⟨e', he', rfl⟩ := Option.map_eq_some_iff.1 he
      exact ⟨e', _, he', rfl⟩
    · exact ⟨e, _, he, rfl⟩
  refine ⟨hp.tidy.update fun d _ => ⟨rfl, rfl, rfl, rfl⟩, hp.name, ?_, hp.root, ?_, ?_, ?_⟩
  · intro j e he
    obtain ⟨e', body, he', rfl⟩ := hcases he
    exact hp.decl_name j e' he'
  · intro j e he htable
    obtain ⟨e', body, he', rfl⟩ := hcases he
    exact hp.member_kind j e' he' htable
  · intro j e he htable
    obtain ⟨e', body, he', rfl⟩ := hcases he
    exact hp.local_kind j e' he' htable
  · intro j e he hk
    obtain ⟨e', body, he', rfl⟩ := hcases he
    obtain ⟨t, params, vars, ht⟩ := hp.procedure j e' he' hk
    exact ⟨t, params, vars, ht.locals_eq, ht.pos, ht.parent, ht.members_eq, ht.params_eq,
      fun id hid => by rw [hasKind_update_body]; exact ht.params_kind id hid,
      fun id hid => by rw [hasKind_update_body]; exact ht.vars_kind id hid⟩

/-! ### Built programs -/

/-- While a method is built, it is a procedure with its table. -/
def Stage.Ready (p : Program) : Stage → Prop
  | .members _ => True
  | .method procedure table =>
    ∃ d, p.decl? procedure = some d ∧ d.kind = .procedure ∧ d.locals = some table

theorem WellFormed.local_table {procedure : DeclId} {table : TableId} (hp : p.WellFormed)
    (h : (Stage.method procedure table).Ready p) :
    table < p.tables.size ∧ table ≠ classTable := by
  obtain ⟨d, hd, hk, hloc⟩ := h
  obtain ⟨t, params, vars, ht⟩ := hp.procedure procedure d hd hk
  obtain rfl := Option.some.inj (hloc.symm.trans ht.locals_eq)
  obtain ⟨tab, htab, -⟩ := ht.parent
  exact ⟨(Array.getElem?_eq_some_iff.1 htab).1, Nat.ne_of_gt ht.pos⟩

/-- Declaring a value adds no procedure. -/
theorem decl?_of_declare_value {t : TableId} {v : Declaration} {n : DeclId}
    (h : p.declare t v = .ok (q, n)) (hv : v.kind ≠ .procedure) {id : DeclId} {d : Declaration}
    (hd : q.decl? id = some d) (hk : d.kind = .procedure) : p.decl? id = some d := by
  rw [decl?_declare h] at hd
  split at hd
  · obtain rfl := Option.some.inj hd
    exact absurd hk hv
  · exact hd

namespace Built

/-- Built programs are well formed. -/
theorem wellFormed {stage : Stage} (h : Built stage p) : p.WellFormed ∧ stage.Ready p := by
  induction h with
  | start h => exact ⟨.empty h, trivial⟩
  | constant _ h hq ih =>
    exact ⟨ih.1.declare ih.1.tidy.tables_pos h (Or.inr ⟨rfl, rfl⟩) hq, trivial⟩
  | field _ _ h hq ih =>
    exact ⟨ih.1.declare ih.1.tidy.tables_pos h (Or.inl rfl) hq, trivial⟩
  | head _ h hq ih =>
    obtain ⟨d, params, hadds, hname, -, -, -, hnames⟩ := addsProcedure_declareMethod ih.1.tidy hq
    refine ⟨ih.1.addsProcedure hadds (hname ▸ h.name) ?_, d, hadds.decl?_procedure, hadds.kind_eq,
      hadds.procedureTable.locals_eq⟩
    intro id hid e he
    obtain ⟨x, hx, hname⟩ := hnames id hid e he
    rw [hname]
    exact h.params x hx
  | localVariable _ h hq ih =>
    obtain ⟨hlt, -⟩ := ih.1.local_table ih.2
    obtain ⟨d, hd, hk, hloc⟩ := ih.2
    exact ⟨ih.1.declare hlt h (Or.inl rfl) hq, d,
      (extends_declare hlt hq).decl?_old _ d hd, hk, hloc⟩
  | body _ _ ih => exact ⟨ih.1.update_body _ fun _ => _, trivial⟩

/-- Every procedure whose body has been read has a block. -/
theorem isBlock_or_open {stage : Stage} (h : Built stage p) {id : DeclId} {d : Declaration}
    (hd : p.decl? id = some d) (hk : d.kind = .procedure) :
    d.body.IsBlock ∨ ∃ table, stage = .method id table := by
  induction h generalizing d with
  | start h => simp [Program.empty, decl?] at hd
  | constant _ _ hq ih =>
    have hold := decl?_of_declare_value hq (by simp) hd hk
    exact Or.inl ((ih hold hk).resolve_right (by simp))
  | field _ _ _ hq ih =>
    have hold := decl?_of_declare_value hq (by simp) hd hk
    exact Or.inl ((ih hold hk).resolve_right (by simp))
  | head hp _ hq ih =>
    obtain ⟨e, params, hadds, -⟩ := addsProcedure_declareMethod hp.wellFormed.1.tidy hq
    rcases hadds.decl?_new _ _ hd with hd | rfl | ⟨-, -, hk'⟩
    · exact Or.inl ((ih hd hk).resolve_right (by simp))
    · exact Or.inr ⟨_, rfl⟩
    · rw [hk'] at hk
      exact absurd hk (by simp)
  | localVariable _ _ hq ih => exact ih (decl?_of_declare_value hq (by simp) hd hk) hk
  | body _ hb ih =>
    rw [decl?_update] at hd
    split at hd
    · obtain ⟨d', -, rfl⟩ := Option.map_eq_some_iff.1 hd
      exact Or.inl hb
    · rename_i hne
      refine Or.inl ((ih hd hk).resolve_right ?_)
      rintro ⟨t, ht⟩
      simp only [Stage.method.injEq] at ht
      exact hne ht.1

/-- The body of each procedure of a built program is a block. -/
theorem isBlock_body {group : Parser.MemberGroup} (h : Built (.members group) p) {id : DeclId}
    {d : Declaration} (hd : p.decl? id = some d) (hk : d.kind = .procedure) : d.body.IsBlock :=
  (h.isBlock_or_open hd hk).resolve_right fun ⟨t, ht⟩ => by simp at ht

/-- **Each procedure has a table of its own.** -/
theorem locals_inj {stage : Stage} (h : Built stage p) {i j : DeclId} {d e : Declaration}
    (hi : p.decl? i = some d) (hj : p.decl? j = some e) (hd : d.kind = .procedure)
    (he : e.kind = .procedure) (hlocals : d.locals = e.locals) : i = j := by
  induction h generalizing d e with
  | start h => simp [Program.empty, decl?] at hi
  | constant _ _ hq ih =>
    exact ih (decl?_of_declare_value hq (by simp) hi hd) (decl?_of_declare_value hq (by simp) hj he)
      hd he hlocals
  | field _ _ _ hq ih =>
    exact ih (decl?_of_declare_value hq (by simp) hi hd) (decl?_of_declare_value hq (by simp) hj he)
      hd he hlocals
  | @head p q _ _ procedure _ hp _ hq ih =>
    have hwf := hp.wellFormed.1
    obtain ⟨new, params, hadds, -⟩ := addsProcedure_declareMethod hwf.tidy hq
    -- the new procedure names the new table, and the tables of the others are there before
    have hcases {k : DeclId} {c : Declaration} (hk : q.decl? k = some c)
        (hc : c.kind = .procedure) :
        (p.decl? k = some c ∧ c.locals ≠ some p.tables.size) ∨
          k = procedure ∧ c.locals = some p.tables.size := by
      rcases hadds.decl?_new _ _ hk with hold | rfl | ⟨-, -, hparam⟩
      · exact Or.inl ⟨hold, hwf.locals_ne (hwf.mem_procedures.2 ⟨c, hold, hc⟩) hold⟩
      · obtain rfl := Option.some.inj (hadds.decl?_procedure.symm.trans hk)
        exact Or.inr ⟨rfl, hadds.table_eq ▸ hadds.procedureTable.locals_eq⟩
      · rw [hparam] at hc
        cases hc
    rcases hcases hi hd with ⟨hold, hne⟩ | ⟨rfl, hnew⟩ <;>
      rcases hcases hj he with ⟨hold', hne'⟩ | ⟨rfl, hnew'⟩
    · exact ih hold hold' hd he hlocals
    · exact absurd (hlocals.trans hnew') hne
    · exact absurd (hlocals.symm.trans hnew) hne'
    · rfl
  | localVariable _ _ hq ih =>
    exact ih (decl?_of_declare_value hq (by simp) hi hd) (decl?_of_declare_value hq (by simp) hj he)
      hd he hlocals
  | @body p procedure table body _ _ ih =>
    have hcases {k : DeclId} {c : Declaration}
        (hk : (p.update procedure fun d => { d with body }).decl? k = some c) :
        ∃ c', p.decl? k = some c' ∧ c'.kind = c.kind ∧ c'.locals = c.locals := by
      rw [decl?_update] at hk
      split at hk
      · obtain ⟨c', hc', rfl⟩ := Option.map_eq_some_iff.1 hk
        exact ⟨c', hc', rfl, rfl⟩
      · exact ⟨c, hk, rfl, rfl⟩
    obtain ⟨d', hi', hkd, hld⟩ := hcases hi
    obtain ⟨e', hj', hke, hle⟩ := hcases hj
    exact ih hi' hj' (hkd.trans hd) (hke.trans he) (hld.trans (hlocals.trans hle.symm))

end Built

end Program

end Classwright
