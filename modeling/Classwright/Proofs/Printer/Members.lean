import Classwright.Proofs.Printer.Spelling

/-!
# How the lexemes of a program grow

As a program is built, each declaration adds lexemes at the end of what has been there before: a
constant or variable of the class its line (`Program.memberLexemes_declare`), a procedure its head
(`Program.openLexemes_head`), then each of its variables a line (`Program.openLexemes_declare`), and
at last its statements and a brace (`Program.memberLexemes_body`).
-/

namespace Classwright

open TokenKind (rightBrace)

namespace Program

variable {p q : Program}

/-! ### What the lexemes depend on -/

theorem nameOf_eq {id : DeclId} {d : Declaration} (h : p.decl? id = some d) :
    p.nameOf id = d.name := by
  rw [nameOf, h]

theorem nameOf_congr {id : DeclId} (h : q.decl? id = p.decl? id) : q.nameOf id = p.nameOf id := by
  rw [nameOf, nameOf, h]

theorem hasKind_congr {id : DeclId} (h : q.decl? id = p.decl? id) (k : DeclKind) :
    q.hasKind k id = p.hasKind k id := by
  rw [hasKind, hasKind, h]

theorem nameOf_update (p : Program) (procedure : DeclId) {f : Declaration → Declaration}
    (hf : ∀ d, (f d).name = d.name) : (p.update procedure f).nameOf = p.nameOf := by
  funext id
  unfold nameOf
  rw [decl?_update]
  by_cases h : procedure = id
  · rw [if_pos h]
    cases p.decl? id with
    | none => rfl
    | some d => exact hf d
  · rw [if_neg h]

/-- Every local of a procedure exists. -/
theorem ProcedureTable.exists_decl? {d : Declaration} {t : TableId} {params vars : List DeclId}
    (h : p.ProcedureTable d t params vars) {id : DeclId} (hid : id ∈ params ++ vars) :
    ∃ e, p.decl? id = some e := by
  have hkind : ∃ k, p.hasKind k id = true := by
    rcases List.mem_append.1 hid with hid | hid
    · exact ⟨_, h.params_kind id hid⟩
    · exact ⟨_, h.vars_kind id hid⟩
  obtain ⟨k, hk⟩ := hkind
  unfold hasKind at hk
  cases hd : p.decl? id with
  | none => simp [hd] at hk
  | some e => exact ⟨e, rfl⟩

theorem ProcedureTable.headLexemes_congr {d : Declaration} {t : TableId}
    {params vars : List DeclId} (h : p.ProcedureTable d t params vars)
    (hold : ∀ id e, p.decl? id = some e → q.decl? id = some e) :
    q.headLexemes d = p.headLexemes d := by
  have hnames : q.paramNames d = p.paramNames d := by
    rw [paramNames, paramNames, h.params_eq, List.map_map, List.map_map]
    refine List.map_congr_left fun id hid => ?_
    obtain ⟨e, he⟩ := h.exists_decl? (List.mem_append_left vars hid)
    exact nameOf_congr ((hold id e he).trans he.symm)
  rw [headLexemes, headLexemes, hnames]

theorem flatMap_variableLexemes_congr {ids : List DeclId}
    (h : ∀ id ∈ ids, q.decl? id = p.decl? id) :
    ids.flatMap (fun id => variableLexemes (q.nameOf id)) =
      ids.flatMap fun id => variableLexemes (p.nameOf id) := by
  rw [List.flatMap_def, List.flatMap_def]
  exact congrArg List.flatten (List.map_congr_left fun id hid => by rw [nameOf_congr (h id hid)])

/-- The lexemes of a procedure stay while its table does. -/
theorem ProcedureTable.procedureLexemes_congr {d : Declaration} {t : TableId}
    {params vars : List DeclId} (h : p.ProcedureTable d t params vars)
    (h' : q.ProcedureTable d t params vars)
    (hold : ∀ id e, p.decl? id = some e → q.decl? id = some e) :
    q.procedureLexemes d = p.procedureLexemes d := by
  have hvars : ∀ id ∈ vars, q.decl? id = p.decl? id := by
    intro id hid
    obtain ⟨e, he⟩ := h.exists_decl? (List.mem_append_right params hid)
    exact (hold id e he).trans he.symm
  rw [procedureLexemes, procedureLexemes, h.headLexemes_congr hold, h.localVariables_eq,
    h'.localVariables_eq, flatMap_variableLexemes_congr hvars]

/-! ### The constants and variables of the class -/

/-- The lexemes of the constants and variables of the class. -/
def fieldsLexemes (p : Program) : List Lexeme :=
  (p.members.filterMap p.decl?).flatMap Declaration.fieldLexemes

/-- The lexemes of some procedures. -/
def proceduresLexemes (p : Program) (ids : List DeclId) : List Lexeme :=
  (ids.filterMap p.decl?).flatMap p.procedureLexemes

theorem memberLexemes_eq (p : Program) :
    p.memberLexemes = p.fieldsLexemes ++ p.proceduresLexemes p.procedures := rfl

theorem proceduresLexemes_concat {ids : List DeclId} {id : DeclId} {d : Declaration}
    (h : p.decl? id = some d) : p.proceduresLexemes (ids ++ [id]) =
      p.proceduresLexemes ids ++ p.procedureLexemes d := by
  simp [proceduresLexemes, h]

theorem proceduresLexemes_congr {ids : List DeclId} (h : ∀ id ∈ ids, q.decl? id = p.decl? id)
    (hlexemes : ∀ id ∈ ids, ∀ d, p.decl? id = some d →
      q.procedureLexemes d = p.procedureLexemes d) :
    q.proceduresLexemes ids = p.proceduresLexemes ids := by
  rw [proceduresLexemes, proceduresLexemes, List.filterMap_congr h, List.flatMap_def,
    List.flatMap_def]
  refine congrArg List.flatten (List.map_congr_left fun d hd => ?_)
  obtain ⟨id, hid, hd⟩ := List.mem_filterMap.1 hd
  exact hlexemes id hid d hd

theorem WellFormed.exists_member (hp : p.WellFormed) {id : DeclId} (h : id ∈ p.members) :
    ∃ d, p.decl? id = some d := by
  obtain ⟨d, hd, -⟩ := hp.mem_members.1 h
  exact ⟨d, hd⟩

/-- What becomes of the members of the class when one is added. -/
theorem WellFormed.decl?_member (hp : p.WellFormed)
    (hold : ∀ id d, p.decl? id = some d → q.decl? id = some d) :
    ∀ id ∈ p.members, q.decl? id = p.decl? id := by
  intro id hid
  obtain ⟨d, hd⟩ := hp.exists_member hid
  exact (hold id d hd).trans hd.symm

theorem WellFormed.fieldsLexemes_concat (hp : p.WellFormed) {id : DeclId} {d : Declaration}
    (hmembers : q.members = p.members ++ [id]) (hd : q.decl? id = some d)
    (hold : ∀ id d, p.decl? id = some d → q.decl? id = some d) :
    q.fieldsLexemes = p.fieldsLexemes ++ d.fieldLexemes := by
  rw [fieldsLexemes, fieldsLexemes, hmembers, List.filterMap_append,
    List.filterMap_congr (hp.decl?_member hold)]
  simp [hd]

theorem WellFormed.procedures_concat (hp : p.WellFormed) {id : DeclId}
    (hmembers : q.members = p.members ++ [id])
    (hold : ∀ id d, p.decl? id = some d → q.decl? id = some d) :
    q.procedures = p.procedures ++ [id].filter (q.hasKind .procedure) := by
  rw [procedures, procedures, hmembers, List.filter_append]
  congr 1
  exact List.filter_congr fun j hj => hasKind_congr (hp.decl?_member hold j hj) _

/-! ### The latest procedure -/

/-- Where the procedures stand while a program is built. -/
def Stage.Latest (p : Program) : Stage → Prop
  | .members group => group ≠ .methods → p.procedures = []
  | .method procedure table => ∃ older, p.procedures = older ++ [procedure] ∧
      ∀ id ∈ older, ∀ e, p.decl? id = some e → e.locals ≠ some table

theorem procedures_declare_value (hp : p.WellFormed) {d : Declaration} {id : DeclId}
    (hk : d.kind ≠ .procedure) (h : p.declare classTable d = .ok (q, id)) :
    q.procedures = p.procedures := by
  have hext := extends_declare hp.tidy.tables_pos h
  have hid : q.decl? id = some { d with table := classTable } := by
    rw [decl?_declare h, if_pos rfl]
  rw [hp.procedures_concat hext.membersOf_self hext.decl?_old]
  simp [hasKind, hid, hk]

theorem AddsProcedure.procedures_eq {procedure : DeclId} {d : Declaration} {table : TableId}
    {params : List DeclId} (h : p.AddsProcedure q procedure d table params) (hp : p.WellFormed) :
    q.procedures = p.procedures ++ [procedure] := by
  rw [hp.procedures_concat h.membersOf_class h.decl?_old]
  simp [hasKind, h.decl?_procedure, h.kind_eq]

/-- Declaring outside the class keeps the members of the class. -/
theorem members_declare_local {t : TableId} {d : Declaration} {id : DeclId}
    (ht : t < p.tables.size) (hne : t ≠ classTable) (h : p.declare t d = .ok (q, id)) :
    q.members = p.members :=
  (extends_declare ht h).membersOf_other classTable (Ne.symm hne)

theorem WellFormed.procedures_congr (hp : p.WellFormed) (hmembers : q.members = p.members)
    (hold : ∀ id d, p.decl? id = some d → q.decl? id = some d) : q.procedures = p.procedures := by
  rw [procedures, procedures, hmembers]
  exact List.filter_congr fun j hj => hasKind_congr (hp.decl?_member hold j hj) _

theorem Built.latest {stage : Stage} (h : Built stage p) : stage.Latest p := by
  induction h with
  | start h =>
    intro _
    rw [procedures, members, membersOf_empty]
    rfl
  | constant hp _ hq ih =>
    intro _
    rw [procedures_declare_value hp.wellFormed.1 (by simp) hq]
    exact ih (by simp)
  | field hp hg _ hq ih =>
    intro _
    rw [procedures_declare_value hp.wellFormed.1 (by simp) hq]
    exact ih hg
  | @head p q _ _ _ _ hp _ hq ih =>
    have hwf := hp.wellFormed.1
    obtain ⟨d, params, hadds, -⟩ := addsProcedure_declareMethod hwf.tidy hq
    refine ⟨p.procedures, hadds.procedures_eq hwf, fun id hid e he => ?_⟩
    obtain ⟨e', he', -⟩ := hwf.mem_procedures.1 hid
    obtain rfl := Option.some.inj ((hadds.decl?_old id e' he').symm.trans he)
    rw [hadds.table_eq]
    exact hwf.locals_ne hid he'
  | @localVariable p q _ _ _ _ _ hp _ hq ih =>
    obtain ⟨hwf, hready⟩ := hp.wellFormed
    obtain ⟨hlt, hne⟩ := hwf.local_table hready
    have hext := extends_declare hlt hq
    obtain ⟨older, hprocedures, holder⟩ := ih
    refine ⟨older, ?_, fun id hid e he => ?_⟩
    · rw [hwf.procedures_congr (members_declare_local hlt hne hq) hext.decl?_old, hprocedures]
    · have hmem : id ∈ p.procedures := hprocedures ▸ List.mem_append_left _ hid
      obtain ⟨e', he', -⟩ := hwf.mem_procedures.1 hmem
      obtain rfl := Option.some.inj ((hext.decl?_old id e' he').symm.trans he)
      exact holder id hid e' he'
  | body _ _ ih => exact fun h => absurd rfl h

/-! ### How they grow -/

/-- The lexemes of a program up to the statements of its latest procedure. -/
def openLexemes (p : Program) (older : List DeclId) (d : Declaration) : List Lexeme :=
  p.fieldsLexemes ++ (p.proceduresLexemes older ++ (p.headLexemes d ++
    (p.localVariables d).flatMap fun id => variableLexemes (p.nameOf id)))

/-- A constant or variable of the class adds its line. -/
theorem memberLexemes_declare (hp : p.WellFormed) {d : Declaration} {id : DeclId}
    (hk : d.kind ≠ .procedure) (hnone : p.procedures = [])
    (h : p.declare classTable d = .ok (q, id)) :
    q.memberLexemes = p.memberLexemes ++ d.fieldLexemes := by
  have hext := extends_declare hp.tidy.tables_pos h
  have hid : q.decl? id = some { d with table := classTable } := by
    rw [decl?_declare h, if_pos rfl]
  rw [memberLexemes_eq, memberLexemes_eq, procedures_declare_value hp hk h, hnone,
    hp.fieldsLexemes_concat hext.membersOf_self hid hext.decl?_old]
  simp [proceduresLexemes, Declaration.fieldLexemes]

/-- The older procedures keep their lexemes when declarations are added outside their tables. -/
theorem WellFormed.proceduresLexemes_congr (hp : p.WellFormed) (hq : q.WellFormed)
    {ids : List DeclId} (hids : ∀ id ∈ ids, id ∈ p.procedures)
    (hold : ∀ id d, p.decl? id = some d → q.decl? id = some d)
    (hmembers : ∀ id ∈ ids, ∀ e, p.decl? id = some e → q.localsOf e = p.localsOf e) :
    q.proceduresLexemes ids = p.proceduresLexemes ids := by
  have hprocedure : ∀ id ∈ ids, ∃ e, p.decl? id = some e ∧ e.kind = .procedure :=
    fun id hid => hp.mem_procedures.1 (hids id hid)
  refine Program.proceduresLexemes_congr ?_ ?_
  · intro id hid
    obtain ⟨e, he, -⟩ := hprocedure id hid
    exact (hold id e he).trans he.symm
  · intro id hid e he
    obtain ⟨e', he', hk⟩ := hprocedure id hid
    obtain rfl := Option.some.inj (he'.symm.trans he)
    obtain ⟨t, params, vars, ht⟩ := hp.procedure id e' he' hk
    obtain ⟨t', params', vars', ht'⟩ := hq.procedure id e' (hold id e' he') hk
    obtain rfl := Option.some.inj (ht.locals_eq.symm.trans ht'.locals_eq)
    have hparams : params = params' :=
      List.map_injective_iff.2 (fun _ _ => Option.some.inj) (ht.params_eq.symm.trans ht'.params_eq)
    subst hparams
    have hvars : vars = vars' := by
      have heq := hmembers id hid e' he'
      rw [ht.localsOf_eq, ht'.localsOf_eq] at heq
      exact (List.append_cancel_left heq).symm
    subst hvars
    exact ht.procedureLexemes_congr ht' hold

/-- A procedure adds its head. -/
theorem openLexemes_head {procedure : DeclId} {d : Declaration} {table : TableId}
    {params : List DeclId} (hp : p.WellFormed) (hq : q.WellFormed)
    (h : p.AddsProcedure q procedure d table params) :
    q.openLexemes p.procedures d = p.memberLexemes ++ q.headLexemes d := by
  have hfields : q.fieldsLexemes = p.fieldsLexemes := by
    rw [hp.fieldsLexemes_concat h.membersOf_class h.decl?_procedure h.decl?_old]
    simp [Declaration.fieldLexemes, h.kind_eq]
  have hprocedures : q.proceduresLexemes p.procedures = p.proceduresLexemes p.procedures := by
    refine hp.proceduresLexemes_congr hq (fun _ hid => hid) h.decl?_old fun id hid e he => ?_
    obtain ⟨e', he', hk⟩ := hp.mem_procedures.1 hid
    obtain rfl := Option.some.inj (he'.symm.trans he)
    obtain ⟨t, params, vars, ht⟩ := hp.procedure id e' he' hk
    have hne : t ≠ table := by
      rw [h.table_eq]
      exact fun heq => hp.locals_ne hid he' (heq ▸ ht.locals_eq)
    rw [localsOf, localsOf, ht.locals_eq]
    exact h.membersOf_other t (Nat.ne_of_gt ht.pos) hne
  rw [openLexemes, hfields, hprocedures, h.procedureTable.localVariables_eq, memberLexemes_eq]
  simp

/-- A variable of the latest procedure adds its line. -/
theorem openLexemes_declare {older : List DeclId} {procedure : DeclId} {d e : Declaration}
    {table : TableId} {id : DeclId} (hp : p.WellFormed) (hq : q.WellFormed)
    (hprocedures : p.procedures = older ++ [procedure])
    (holder : ∀ id ∈ older, ∀ e, p.decl? id = some e → e.locals ≠ some table)
    (hd : p.decl? procedure = some d) (hlocals : d.locals = some table) (he : e.kind = .var)
    (h : p.declare table e = .ok (q, id)) :
    q.openLexemes older d = p.openLexemes older d ++ variableLexemes e.name := by
  have hkind : d.kind = .procedure := by
    obtain ⟨d', hd', hk⟩ := hp.mem_procedures.1 (hprocedures ▸ List.mem_append_right older
      (List.mem_singleton_self procedure))
    obtain rfl := Option.some.inj (hd'.symm.trans hd)
    exact hk
  -- the table of the procedure is not that of the class
  obtain ⟨hlt, hne⟩ := hp.local_table ⟨d, hd, hkind, hlocals⟩
  have hext := extends_declare hlt h
  have hmembers := members_declare_local hlt hne h
  obtain ⟨t, params, vars, ht⟩ := hp.procedure procedure d hd hkind
  obtain rfl := Option.some.inj (ht.locals_eq.symm.trans hlocals)
  have hid : q.decl? id = some { e with table := t } := by rw [decl?_declare h, if_pos rfl]
  -- what stands in front of the procedure stays the same
  have hfields : q.fieldsLexemes = p.fieldsLexemes := by
    rw [fieldsLexemes, fieldsLexemes, hmembers, List.filterMap_congr
      (hp.decl?_member hext.decl?_old)]
  have hothers : q.proceduresLexemes older = p.proceduresLexemes older := by
    refine hp.proceduresLexemes_congr hq
      (fun id hid => hprocedures ▸ List.mem_append_left _ hid) hext.decl?_old fun j hj f hf => ?_
    unfold localsOf
    cases hlocals' : f.locals with
    | none => rfl
    | some s => exact hext.membersOf_other s fun heq => holder j hj f hf (heq ▸ hlocals')
  -- its variables get one more
  have hvars : q.localVariables d = vars ++ [id] := by
    have htable : q.localsOf d = params ++ vars ++ [id] := by
      rw [localsOf, hlocals, ← ht.members_eq]
      exact hext.membersOf_self
    have hold : (params ++ vars).filter (q.hasKind .var) = p.localVariables d := by
      rw [localVariables, ht.localsOf_eq]
      refine List.filter_congr fun j hj => ?_
      obtain ⟨f, hf⟩ := ht.exists_decl? hj
      exact hasKind_congr ((hext.decl?_old j f hf).trans hf.symm) _
    rw [localVariables, htable, List.filter_append, hold, ht.localVariables_eq]
    simp [hasKind, hid, he]
  have hnames : ∀ j ∈ vars, q.decl? j = p.decl? j := by
    intro j hj
    obtain ⟨f, hf⟩ := ht.exists_decl? (List.mem_append_right params hj)
    exact (hext.decl?_old j f hf).trans hf.symm
  rw [openLexemes, openLexemes, hfields, hothers, ht.headLexemes_congr hext.decl?_old, hvars,
    List.flatMap_append, flatMap_variableLexemes_congr hnames, ht.localVariables_eq]
  simp [nameOf_eq hid]

/-- The statements of the latest procedure complete it. -/
theorem memberLexemes_body {older : List DeclId} {procedure : DeclId} {d : Declaration}
    (hp : p.WellFormed) (hprocedures : p.procedures = older ++ [procedure])
    (hd : p.decl? procedure = some d) (body : Node) :
    (p.update procedure fun d => { d with body }).memberLexemes =
      p.openLexemes older d ++ (body.blockLexemes ++ [rightBrace.lexeme]) := by
  set q := p.update procedure fun d => { d with body } with hq
  -- neither kinds nor names depend on a body
  have hkind (k : DeclKind) (id : DeclId) : q.hasKind k id = p.hasKind k id :=
    hasKind_update_body p procedure (fun _ => body) k id
  have hname : q.nameOf = p.nameOf := by
    rw [hq, nameOf_update]
    exact fun _ => rfl
  have hlexemes (e : Declaration) : q.procedureLexemes e = p.procedureLexemes e := by
    simp only [procedureLexemes, headLexemes, paramNames, localVariables, localsOf, hq,
      membersOf_update]
    simp only [← hq, funext (hkind .var), hname]
  have hfields : q.fieldsLexemes = p.fieldsLexemes := by
    have hdecl (id : DeclId) : (q.decl? id).map Declaration.fieldLexemes =
        (p.decl? id).map Declaration.fieldLexemes := by
      rw [hq, decl?_update]
      split
      · cases p.decl? id <;> rfl
      · rfl
    simp only [fieldsLexemes, List.flatMap_def, List.map_filterMap, hdecl]
    rfl
  have hnodup : procedure ∉ older := by
    have hnodup : p.procedures.Nodup := (hp.tidy.nodup_membersOf classTable).filter _
    rw [hprocedures, List.nodup_append] at hnodup
    exact fun hmem => hnodup.2.2 procedure hmem procedure (List.mem_singleton_self _) rfl
  -- the other procedures keep their bodies
  have hothers : q.proceduresLexemes older = p.proceduresLexemes older := by
    refine Program.proceduresLexemes_congr (fun id hid => ?_) fun _ _ e _ => hlexemes e
    have hne : procedure ≠ id := fun heq => hnodup (heq ▸ hid)
    rw [hq, decl?_update, if_neg hne]
  have hall : q.procedures = older ++ [procedure] := by
    rw [← hprocedures, procedures, procedures, funext (hkind .procedure)]
    rfl
  have hlatest : q.decl? procedure = some { d with body } := by
    rw [hq, decl?_update, if_pos rfl, hd, Option.map_some]
  rw [memberLexemes_eq, hall, proceduresLexemes_concat hlatest, hfields, hothers, hlexemes,
    openLexemes]
  simp only [List.append_assoc]
  rfl

/-! ### The names of parameters -/

/-- Parameters are declared with their names, in order. -/
theorem names_declareParams {t : TableId} {params : List (Text × Position)}
    {ids : List (Option DeclId)} (ht : t < p.tables.size) (hp : p.Tidy)
    (h : Parser.declareParams p t params = .ok (q, ids)) :
    (ids.map fun id => (id.map q.nameOf).getD []) = params.map Prod.fst := by
  induction params generalizing p ids with
  | nil =>
    simp only [Parser.declareParams, Except.ok.injEq, Prod.mk.injEq] at h
    obtain ⟨rfl, rfl⟩ := h
    rfl
  | cons param rest ih =>
    obtain ⟨name, position⟩ := param
    simp only [Parser.declareParams, bind_eq_ok, pure_eq_ok] at h
    obtain ⟨⟨p₁, id⟩, hd, ⟨p₂, others⟩, hrest, h⟩ := h
    simp only [Prod.mk.injEq] at h
    obtain ⟨rfl, rfl⟩ := h
    have ht' : t < p₁.tables.size := by rwa [tables_size_declare hd]
    have htidy := hp.declare ht hd
    obtain ⟨new, -, -, hext, -⟩ := declareParams_spec ht' htidy hrest
    have hid := hext.decl?_old id _ (by rw [decl?_declare hd, if_pos rfl])
    rw [List.map_cons, List.map_cons, ih ht' htidy hrest, Option.map_some, Option.getD_some,
      nameOf_eq hid]

/-- The parameters of a new procedure have the names of its head. -/
theorem paramNames_declareMethod {head : Parser.MethodHead} {procedure : DeclId}
    {table : TableId} {d : Declaration} (hp : p.Tidy)
    (h : Parser.declareMethod p head = .ok (q, procedure, table))
    (hd : q.decl? procedure = some d) :
    q.paramNames d = head.params.reverse.map Prod.fst := by
  obtain ⟨p₁, p₂, ids, hdeclare, rfl, hparams, rfl⟩ := declareMethod_eq_ok h
  have htidy₁ := hp.declare hp.tables_pos hdeclare
  have htidy : (p₁.addTable (some classTable) (some procedure)).1.Tidy :=
    htidy₁.addTable_inClass _
  rw [decl?_update, if_pos rfl, Option.map_eq_some_iff] at hd
  obtain ⟨e, -, rfl⟩ := hd
  rw [← names_declareParams (by simp) htidy hparams, paramNames, nameOf_update]
  exact fun _ => rfl

end Program

end Classwright
