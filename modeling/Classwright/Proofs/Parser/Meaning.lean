import Classwright.Proofs.Except
import Classwright.Proofs.Parser.Grammar
import Classwright.Proofs.Program.Listed

/-!
# The program of a class

The declarations of a class, one after the other (`Grammar.Class.declarations`), and the program
they make up (`Grammar.Class.program`).  They can be made if every initializer has a value and no
two of them have the same entry, and then make this program (`Grammar.Class.declare_eq_ok`).
-/

namespace Classwright

open Classwright.Parser Classwright.Program

namespace Grammar

/-! ### Declarations -/

/-- The declaration of a constant, with the value of its initializer. -/
def Constant.declaration (c : Constant) : Declaration :=
  { kind := .constant
    name := c.name.1.content
    value := c.value.node.constantValue.toOption.getD 0
    table := classTable
    position := c.name.1.position }

/-- The declaration of a variable in a table. -/
def Variable.declaration (table : TableId) (v : Variable) : Declaration :=
  { kind := .var, name := v.name.1.content, table, position := v.name.1.position }

/-- The declaration of a parameter in a table. -/
def Param.declaration (table : TableId) (x : Param) : Declaration :=
  { kind := .parameter, name := x.name.1.content, table, position := x.name.1.position }

/-- What a keyword says that a method returns. -/
def resultOf (t : Token) : ValueType :=
  if t.kind = .voidWord then .void else .int

/-- The block of a method. -/
def Method.body (m : Method) : Node :=
  .block (Stmt.nodes m.statements) m.leftBrace.1.position

/-- The declaration of a method, when its parameters get numbers from `first` on and its table is
`table`. -/
def Method.declaration (m : Method) (first : DeclId) (table : TableId) : Declaration :=
  { kind := .procedure
    name := m.name.1.content
    type := resultOf m.type.1
    params := (List.range' first m.paramList.length).map some
    locals := some table
    body := m.body
    table := classTable
    position := m.name.1.position }

/-- The declarations of a method, the first of which has the number `id`, and of its parameters and
variables. -/
def Method.declarations (id : DeclId) (table : TableId) (m : Method) : List Declaration :=
  m.declaration (id + 1) table :: (m.paramList.map (Param.declaration table) ++
    m.locals.map (Variable.declaration table))

/-- The declarations of methods one after the other, each with the next table. -/
def Method.allDeclarations : DeclId → TableId → List Method → List Declaration
  | _, _, [] => []
  | id, table, m :: rest => m.declarations id table ++
    Method.allDeclarations (id + (m.declarations id table).length) (table + 1) rest

/-- The declarations of a class, in the order they are made in: constants, variables, and each
method with its parameters and variables. -/
def Class.declarations (c : Class) : List Declaration :=
  let fields := c.constants.map Constant.declaration ++
    c.fields.map (Variable.declaration classTable)
  fields ++ Method.allDeclarations fields.length 1 c.methods

/-- The tables for some declarations, before they are made: that of the class and, inside it, one
for each procedure. -/
def tablesFor (ds : List Declaration) : List SymbolTable :=
  {} :: ds.zipIdx.filterMap fun x =>
    if x.1.isValue then none else some { parent := some classTable, owner := some x.2 }

/-- The program that some declarations make up. -/
def programOf (name : Text) (place : Position) (ds : List Declaration) : Program :=
  .ofDeclarations name place (tablesFor ds) ds

/-- The program of a class. -/
def Class.program (c : Class) : Program :=
  programOf c.name.1.content c.name.1.position c.declarations

/-! ### Declaring -/

/-- Declares a constant. -/
def Constant.declare (p : Program) (c : Constant) : Except CompileError Program :=
  declareConstant p c.name.1.content c.name.1.position c.value.node

/-- Declares a variable in a table. -/
def Variable.declare (table : TableId) (p : Program) (v : Variable) :
    Except CompileError Program := do
  let (p, _) ← p.declare table
    { kind := .var, name := v.name.1.content, position := v.name.1.position }
  return p

/-- The head of a method. -/
def Method.head (m : Method) : MethodHead :=
  { type := resultOf m.type.1
    name := m.name.1.content
    place := m.name.1.position
    params := (m.paramList.map fun x => (x.name.1.content, x.name.1.position)).reverse }

/-- Declares a method with its parameters and variables, and gives it its body. -/
def Method.declare (p : Program) (m : Method) : Except CompileError Program := do
  let (p, procedure, table) ← declareMethod p m.head
  let p ← m.locals.foldlM (Variable.declare table) p
  return p.update procedure fun d => { d with body := m.body }

/-- Makes the declarations of a class. -/
def Class.declare (c : Class) : Except CompileError Program := do
  let p ← c.constants.foldlM Constant.declare (.empty c.name.1.content c.name.1.position)
  let p ← c.fields.foldlM (Variable.declare classTable) p
  c.methods.foldlM Method.declare p

/-! ### What declaring does -/

theorem tablesFor_value {d : Declaration} (hd : d.isValue = true) (ds : List Declaration) :
    tablesFor (ds ++ [d]) = tablesFor ds := by
  simp [tablesFor, List.zipIdx_append, List.filterMap_append, hd]

theorem tablesFor_values {xs : List Declaration} (hxs : ∀ d ∈ xs, d.isValue = true)
    (ds : List Declaration) : tablesFor (ds ++ xs) = tablesFor ds := by
  induction xs generalizing ds with
  | nil => rw [List.append_nil]
  | cons d xs ih =>
    rw [List.forall_mem_cons] at hxs
    rw [List.append_cons, ih hxs.2, tablesFor_value hxs.1]

theorem tablesFor_procedure {d : Declaration} (hd : d.isValue = false) (ds : List Declaration) :
    tablesFor (ds ++ [d]) =
      tablesFor ds ++ [{ parent := some classTable, owner := some ds.length }] := by
  simp [tablesFor, List.zipIdx_append, List.filterMap_append, hd]

variable {name : Text} {place : Position} {ds : List Declaration}

/-- The declarations have different entries, and their tables are tidy. -/
structure Listed (name : Text) (place : Position) (ds : List Declaration) : Prop where
  /-- The tables are tidy. -/
  tidy : (programOf name place ds).Tidy
  /-- The entries are different. -/
  nodup : (ds.map Declaration.entry).Nodup

theorem nodup_concat {d : Declaration} (h : (ds.map Declaration.entry).Nodup) :
    ((ds ++ [d]).map Declaration.entry).Nodup ↔ d.entry ∉ ds.map Declaration.entry := by
  rw [List.map_append, List.nodup_append]
  simp [h]

theorem nodup_of_append {others : List Declaration}
    (h : ((ds ++ others).map Declaration.entry).Nodup) : (ds.map Declaration.entry).Nodup := by
  rw [List.map_append] at h
  exact (List.nodup_append.1 h).1

theorem Listed.empty (name : Text) (place : Position) : Listed name place [] :=
  ⟨Tidy.empty name place, List.nodup_nil⟩

theorem Listed.table_lt (h : Listed name place ds) : ∀ d ∈ ds, d.table < (tablesFor ds).length := by
  intro d hd
  obtain ⟨id, hid⟩ := List.getElem?_of_mem hd
  have hlt := h.tidy.table_lt ((decl?_ofDeclarations id).trans hid)
  rwa [programOf, tables_size_ofDeclarations] at hlt

/-- A value is declared at the end, unless its entry is taken. -/
theorem Listed.declare (h : Listed name place ds) {t : TableId} (ht : t < (tablesFor ds).length)
    {d : Declaration} (hd : d.isValue = true) {q : Program} {id : DeclId} :
    (programOf name place ds).declare t d = .ok (q, id) ↔
      ((ds ++ [{ d with table := t }]).map Declaration.entry).Nodup ∧
        q = programOf name place (ds ++ [{ d with table := t }]) ∧ id = ds.length := by
  have htables : tablesFor (ds ++ [{ d with table := t }]) = tablesFor ds :=
    tablesFor_value (d := { d with table := t }) hd ds
  rw [programOf, declare_ofDeclarations h.tidy ht, nodup_concat h.nodup, programOf, htables]

theorem Listed.concat (h : Listed name place ds) {t : TableId} (ht : t < (tablesFor ds).length)
    {d : Declaration} (hd : d.isValue = true)
    (hnodup : ((ds ++ [{ d with table := t }]).map Declaration.entry).Nodup) :
    Listed name place (ds ++ [{ d with table := t }]) := by
  have hdeclare := (h.declare ht hd).2 ⟨hnodup, rfl, rfl⟩
  refine ⟨h.tidy.declare ?_ hdeclare, hnodup⟩
  rwa [programOf, tables_size_ofDeclarations]

/-- The tables depend only on which declarations are procedures. -/
theorem tablesFor_congr {ds' : List Declaration}
    (h : ds'.map Declaration.isValue = ds.map Declaration.isValue) :
    tablesFor ds' = tablesFor ds := by
  have hmap (ds : List Declaration) : tablesFor ds = {} ::
      (ds.map Declaration.isValue).zipIdx.filterMap fun x =>
        if x.1 then none else some { parent := some classTable, owner := some x.2 } := by
    simp [tablesFor, List.zipIdx_map, List.filterMap_map]
  rw [hmap, hmap, h]

/-- Changing what a declaration says and not what it declares. -/
theorem programOf_update {f : Declaration → Declaration}
    (hf : ∀ d, (f d).kind = d.kind ∧ (f d).name = d.name ∧ (f d).table = d.table)
    (d : Declaration) (rest : List Declaration) :
    (programOf name place (ds ++ d :: rest)).update ds.length f =
      programOf name place (ds ++ f d :: rest) := by
  have hmodify : (ds ++ d :: rest).modify ds.length f = ds ++ f d :: rest := by
    induction ds with
    | nil => rfl
    | cons e ds ih => rw [List.cons_append, List.length_cons, List.modify_succ_cons, ih,
        List.cons_append]
  have htables : tablesFor (ds ++ f d :: rest) = tablesFor (ds ++ d :: rest) :=
    tablesFor_congr (by simp [Declaration.isValue, (hf d).1])
  rw [programOf, update_ofDeclarations hf, hmodify, programOf, htables]

/-- The program stays tidy if the number of parameters stays as well. -/
theorem Listed.update {f : Declaration → Declaration} {d : Declaration} {rest : List Declaration}
    (h : Listed name place (ds ++ d :: rest))
    (hf : ∀ d, (f d).kind = d.kind ∧ (f d).name = d.name ∧ (f d).table = d.table)
    (harity : (f d).arity = d.arity) : Listed name place (ds ++ f d :: rest) := by
  have hentry : (f d).entry = d.entry := by
    obtain ⟨hkind, hname, htable⟩ := hf d
    have hvalue : (f d).isValue = d.isValue := by
      rw [Declaration.isValue, hkind, Declaration.isValue]
    rw [Declaration.entry, hvalue, hname, htable, harity, Declaration.entry]
  constructor
  · rw [← programOf_update hf]
    refine h.tidy.update fun e he => ?_
    rw [programOf, decl?_ofDeclarations, List.getElem?_append_right (Nat.le_refl _), Nat.sub_self,
      List.getElem?_cons_zero] at he
    obtain rfl := Option.some.inj he
    exact ⟨(hf d).1, (hf d).2.1, harity, (hf d).2.2⟩
  · simpa [hentry] using h.nodup

/-- How declaring things of some sort adds to the declarations: it succeeds if `ok` holds of what
is declared and the new entries are different, and adds the declarations `new`. -/
structure Adds {α : Type} (name : Text) (place : Position) (C : List Declaration → Prop)
    (declare : Program → α → Except CompileError Program) (ok : α → Prop)
    (new : List Declaration → α → List Declaration) : Prop where
  /-- When it succeeds, and with what. -/
  eq_ok_iff : ∀ {ds x q}, Listed name place ds → C ds →
    (declare (programOf name place ds) x = .ok q ↔
      ok x ∧ ((ds ++ new ds x).map Declaration.entry).Nodup ∧
        q = programOf name place (ds ++ new ds x))
  /-- More can be declared behind it. -/
  listed : ∀ {ds x}, Listed name place ds → C ds →
    ((ds ++ new ds x).map Declaration.entry).Nodup →
      Listed name place (ds ++ new ds x) ∧ C (ds ++ new ds x)

/-- The declarations of several things. -/
def newAll {α : Type} (new : List Declaration → α → List Declaration) :
    List Declaration → List α → List Declaration
  | _, [] => []
  | ds, x :: xs => new ds x ++ newAll new (ds ++ new ds x) xs

/-- Things are declared one after the other. -/
theorem Adds.foldlM {α : Type} {C : List Declaration → Prop}
    {declare : Program → α → Except CompileError Program} {ok : α → Prop}
    {new : List Declaration → α → List Declaration} (h : Adds name place C declare ok new) :
    Adds name place C (fun p xs => xs.foldlM declare p) (fun xs => ∀ x ∈ xs, ok x)
      (newAll new) where
  eq_ok_iff {ds xs q} hds hC := by
    induction xs generalizing ds with
    | nil =>
      rw [List.foldlM_nil, pure_eq_ok, newAll, List.append_nil]
      simp [hds.nodup, eq_comm]
    | cons x xs ih =>
      have hfront (hnodup : ((ds ++ newAll new ds (x :: xs)).map Declaration.entry).Nodup) :
          ((ds ++ new ds x).map Declaration.entry).Nodup := by
        rw [newAll, ← List.append_assoc] at hnodup
        exact nodup_of_append hnodup
      rw [List.foldlM_cons, bind_eq_ok, List.forall_mem_cons]
      constructor
      · rintro ⟨p, hp, hq⟩
        obtain ⟨hx, hnodup, rfl⟩ := (h.eq_ok_iff hds hC).1 hp
        obtain ⟨hds', hC'⟩ := h.listed hds hC hnodup
        obtain ⟨hxs, hall, rfl⟩ := (ih hds' hC').1 hq
        rw [newAll, ← List.append_assoc]
        exact ⟨⟨hx, hxs⟩, hall, rfl⟩
      · rintro ⟨⟨hx, hxs⟩, hall, rfl⟩
        obtain ⟨hds', hC'⟩ := h.listed hds hC (hfront hall)
        refine ⟨_, (h.eq_ok_iff hds hC).2 ⟨hx, hfront hall, rfl⟩, (ih hds' hC').2 ⟨hxs, ?_⟩⟩
        rw [newAll, ← List.append_assoc] at hall
        exact ⟨hall, by rw [newAll, ← List.append_assoc]⟩
  listed {ds xs} hds hC hall := by
    induction xs generalizing ds with
    | nil =>
      rw [newAll, List.append_nil]
      exact ⟨hds, hC⟩
    | cons x xs ih =>
      rw [newAll, ← List.append_assoc] at hall ⊢
      obtain ⟨hds', hC'⟩ := h.listed hds hC (nodup_of_append hall)
      exact ih hds' hC' hall

/-- Things with one declaration each are declared one after the other. -/
theorem Adds.foldlM_value {α : Type} {C : List Declaration → Prop}
    {declare : Program → α → Except CompileError Program} {ok : α → Prop} {value : α → Declaration}
    (h : Adds name place C declare ok fun _ x => [value x]) :
    Adds name place C (fun p (xs : List α) => xs.foldlM declare p) (fun xs => ∀ x ∈ xs, ok x)
      fun _ xs => xs.map value := by
  have hnew : newAll (fun _ x => [value x]) = fun _ xs => xs.map value := by
    funext ds xs
    induction xs generalizing ds with
    | nil => rfl
    | cons x xs ih => rw [newAll, ih, List.map_cons, List.singleton_append]
  rw [← hnew]
  exact h.foldlM

/-! ### The members of a class -/

/-- A declared thing that is a value of a table. -/
theorem adds_value {α : Type} {C : List Declaration → Prop} {t : TableId}
    {declare : Program → α → Except CompileError Program} {ok : α → Prop} {value : α → Declaration}
    (hC : ∀ ds, C ds → t < (tablesFor ds).length) (hCs : ∀ ds x, C ds → C (ds ++ [value x]))
    (hvalue : ∀ x, (value x).isValue = true) (htable : ∀ x, (value x).table = t)
    (h : ∀ p x q, declare p x = .ok q ↔ ok x ∧ ∃ id, p.declare t (value x) = .ok (q, id)) :
    Adds name place C declare ok fun _ x => [value x] where
  eq_ok_iff {ds x q} hds hds' := by
    have hsame : ({ value x with table := t } : Declaration) = value x := by rw [← htable x]
    rw [h]
    simp only [hds.declare (hC ds hds') (hvalue x), hsame]
    simp
  listed {ds x} hds hds' hnodup := by
    have hsame : ({ value x with table := t } : Declaration) = value x := by rw [← htable x]
    have hconcat := hds.concat (hC ds hds') (hvalue x)
    rw [hsame] at hconcat
    exact ⟨hconcat hnodup, hCs ds x hds'⟩

/-- The initializer of a constant has a value. -/
def Constant.Evaluates (c : Constant) : Prop :=
  ∃ v, c.value.node.constantValue = .ok v

theorem adds_constants : Adds name place (fun _ => True) Constant.declare Constant.Evaluates
    fun _ c => [c.declaration] := by
  refine adds_value (t := classTable) (fun ds _ => by simp [tablesFor, classTable])
    (fun _ _ _ => trivial) (fun _ => rfl) (fun _ => rfl) fun p c q => ?_
  simp only [Constant.declare, declareConstant, bind_eq_ok, pure_eq_ok]
  have hvalue (v : Int32) (hv : c.value.node.constantValue = .ok v) : c.declaration =
      { kind := .constant
        name := c.name.1.content
        value := v
        position := c.name.1.position } := by
    rw [Constant.declaration, hv]
    rfl
  constructor
  · rintro ⟨v, hv, ⟨p', id⟩, hp, rfl⟩
    exact ⟨⟨v, hv⟩, id, by rw [hvalue v hv, hp]⟩
  · rintro ⟨⟨v, hv⟩, id, hp⟩
    exact ⟨v, hv, (q, id), by rw [← hvalue v hv, hp], rfl⟩

theorem adds_variables (t : TableId) : Adds name place (fun ds => t < (tablesFor ds).length)
    (Variable.declare t) (fun _ => True) fun _ v => [v.declaration t] := by
  refine adds_value (fun _ => id) (fun ds v h => by rwa [tablesFor_value rfl]) (fun _ => rfl)
    (fun _ => rfl) fun p v q => ?_
  simp only [Variable.declare, bind_eq_ok, pure_eq_ok, true_and]
  constructor
  · rintro ⟨⟨p', id⟩, hp, rfl⟩
    exact ⟨id, hp⟩
  · rintro ⟨id, hp⟩
    exact ⟨(q, id), hp, rfl⟩

/-- The parameters of a method are declared one after the other, in its table. -/
theorem Listed.declareParams {t : TableId} (xs : List Param) (h : Listed name place ds)
    (ht : t < (tablesFor ds).length) {q : Program} {ids : List (Option DeclId)} :
    Parser.declareParams (programOf name place ds) t
        (xs.map fun x => (x.name.1.content, x.name.1.position)) = .ok (q, ids) ↔
      ((ds ++ xs.map (Param.declaration t)).map Declaration.entry).Nodup ∧
        q = programOf name place (ds ++ xs.map (Param.declaration t)) ∧
          ids = (List.range' ds.length xs.length).map some := by
  induction xs generalizing ds q ids with
  | nil => simp [Parser.declareParams, h.nodup, eq_comm]
  | cons x xs ih =>
    have hx : ((programOf name place ds).declare t
        { kind := .parameter, name := x.name.1.content, position := x.name.1.position } =
        (programOf name place ds).declare t (x.declaration t)) := rfl
    have hlist : ds ++ (x.declaration t :: xs.map (Param.declaration t)) =
        ds ++ [x.declaration t] ++ xs.map (Param.declaration t) := by simp
    have htables : tablesFor (ds ++ [x.declaration t]) = tablesFor ds := tablesFor_value rfl ds
    have hids : some ds.length ::
        (List.range' (ds ++ [x.declaration t]).length xs.length).map some =
          (List.range' ds.length (x :: xs).length).map some := by simp [List.range'_succ]
    simp only [List.map_cons, Parser.declareParams, bind_eq_ok, pure_eq_ok, hx, hlist, ← hids]
    constructor
    · rintro ⟨⟨p, id⟩, hp, ⟨p', ids'⟩, hp', hq⟩
      obtain ⟨rfl, rfl⟩ := Prod.mk.inj hq
      obtain ⟨hnodup, rfl, rfl⟩ := (h.declare ht rfl).1 hp
      obtain ⟨hall, rfl, rfl⟩ := (ih (h.concat ht rfl hnodup) (htables ▸ ht)).1 hp'
      exact ⟨hall, rfl, rfl⟩
    · rintro ⟨hall, rfl, rfl⟩
      have hnodup := nodup_of_append hall
      exact ⟨_, (h.declare ht rfl).2 ⟨hnodup, rfl, rfl⟩, _,
        (ih (h.concat ht rfl hnodup) (htables ▸ ht)).2 ⟨hall, rfl, rfl⟩, rfl⟩

/-- Values may be declared one after the other as long as their entries are different. -/
theorem Listed.append {xs : List Declaration} (h : Listed name place ds)
    (hxs : ∀ d ∈ xs, d.isValue = true ∧ d.table < (tablesFor ds).length)
    (hnodup : ((ds ++ xs).map Declaration.entry).Nodup) : Listed name place (ds ++ xs) := by
  induction xs generalizing ds with
  | nil => rwa [List.append_nil]
  | cons d xs ih =>
    rw [List.forall_mem_cons] at hxs
    obtain ⟨⟨hvalue, htable⟩, hxs⟩ := hxs
    rw [List.append_cons] at hnodup ⊢
    have hconcat : Listed name place (ds ++ [d]) := h.concat htable hvalue (nodup_of_append hnodup)
    exact ih hconcat (by rwa [tablesFor_value hvalue]) hnodup

/-- A procedure is declared at the end. -/
theorem Listed.declareProcedure (h : Listed name place ds) {d : Declaration}
    (htable : d.table = classTable) {p : Program} {id : DeclId} :
    (programOf name place ds).declare classTable d = .ok (p, id) ↔
      ((ds ++ [d]).map Declaration.entry).Nodup ∧
        p = .ofDeclarations name place (tablesFor ds) (ds ++ [d]) ∧ id = ds.length := by
  have hsame : ({ d with table := classTable } : Declaration) = d := by rw [← htable]
  have hpos : classTable < (tablesFor ds).length := by simp [tablesFor, classTable]
  rw [programOf, declare_ofDeclarations h.tidy hpos, hsame, nodup_concat h.nodup]

/-- A procedure gets a table of its own. -/
theorem Listed.addTable (h : Listed name place ds) {d : Declaration} (hd : d.isValue = false)
    (htable : d.table = classTable) (hnodup : ((ds ++ [d]).map Declaration.entry).Nodup) :
    (Program.ofDeclarations name place (tablesFor ds) (ds ++ [d])).addTable (some classTable)
        (some ds.length) = (programOf name place (ds ++ [d]), (tablesFor ds).length) ∧
      Listed name place (ds ++ [d]) := by
  have hpos : classTable < (tablesFor ds).length := by simp [tablesFor, classTable]
  have htables : ∀ e ∈ ds ++ [d], e.table < (tablesFor ds).length := by
    intro e he
    rcases List.mem_append.1 he with he | he
    · exact h.table_lt e he
    · rwa [List.mem_singleton.1 he, htable]
  have hadd : (Program.ofDeclarations name place (tablesFor ds) (ds ++ [d])).addTable
      (some classTable) (some ds.length) = (programOf name place (ds ++ [d]),
        (tablesFor ds).length) := by
    rw [addTable_ofDeclarations htables, ← tablesFor_procedure hd, programOf]
  refine ⟨hadd, ?_, hnodup⟩
  have hdeclare := (h.declareProcedure htable).2 ⟨hnodup, rfl, rfl⟩
  have htidy : (Program.ofDeclarations name place (tablesFor ds) (ds ++ [d])).Tidy :=
    h.tidy.declare (by rwa [programOf, tables_size_ofDeclarations]) hdeclare
  have hnew : ((Program.ofDeclarations name place (tablesFor ds) (ds ++ [d])).addTable
      (some classTable) (some ds.length)).1.Tidy :=
    htidy.addTable_inClass _
  rwa [hadd] at hnew

/-- The declaration of a method before its parameters are declared. -/
def Method.announced (m : Method) : Declaration :=
  { kind := .procedure
    name := m.name.1.content
    type := resultOf m.type.1
    params := m.paramList.map fun _ => none
    position := m.name.1.position }

/-- The declaration of a method before its body is read. -/
def Method.opened (m : Method) (first : DeclId) (table : TableId) : Declaration :=
  { m.announced with
    locals := some table, params := (List.range' first m.paramList.length).map some }

theorem Method.entry_opened (m : Method) (first : DeclId) (table : TableId) :
    (m.opened first table).entry = m.announced.entry := by
  simp [Declaration.entry, Method.opened, Method.announced, Declaration.isValue, Declaration.arity]

/-- A method is declared in three steps: the procedure, its table and its parameters. -/
theorem Method.declare_head {p q : Program} {m : Method} {procedure : DeclId} {table : TableId} :
    Parser.declareMethod p m.head = .ok (q, procedure, table) ↔
      ∃ p₁ p₂ p₃ ids, p.declare classTable m.announced = .ok (p₁, procedure) ∧
        p₁.addTable (some classTable) (some procedure) = (p₂, table) ∧
        Parser.declareParams p₂ table
          (m.paramList.map fun x => (x.name.1.content, x.name.1.position)) = .ok (p₃, ids) ∧
        q = p₃.update procedure fun d => { d with locals := some table, params := ids } := by
  have hparams : m.head.params.reverse =
      m.paramList.map fun x => (x.name.1.content, x.name.1.position) := List.reverse_reverse _
  have hannounced : m.announced =
      { kind := .procedure
        name := m.head.name
        type := m.head.type
        params := m.head.params.reverse.map fun _ => none
        position := m.head.place } := by
    rw [hparams, List.map_map]
    rfl
  rw [Parser.declareMethod, ← hannounced, hparams]
  simp only [bind_eq_ok, pure_eq_ok]
  constructor
  · rintro ⟨⟨p₁, procedure⟩, hp₁, ⟨p₃, ids⟩, hp₃, hq⟩
    simp only [Prod.mk.injEq] at hq
    obtain ⟨rfl, rfl, rfl⟩ := hq
    exact ⟨p₁, _, p₃, ids, hp₁, rfl, hp₃, rfl⟩
  · rintro ⟨p₁, p₂, p₃, ids, hp₁, hp₂, hp₃, rfl⟩
    refine ⟨(p₁, procedure), hp₁, (p₃, ids), ?_, ?_⟩
    · rw [hp₂]
      exact hp₃
    · rw [hp₂]

/-- The declarations of a method up to its parameters, the first of which has the number `id`. -/
def Method.headDeclarations (id : DeclId) (table : TableId) (m : Method) : List Declaration :=
  m.opened (id + 1) table :: m.paramList.map (Param.declaration table)

theorem Method.entries_headDeclarations (m : Method) (ds : List Declaration) (t : TableId) :
    (ds ++ m.headDeclarations ds.length t).map Declaration.entry =
      (ds ++ [m.announced] ++ m.paramList.map (Param.declaration t)).map Declaration.entry := by
  simp [Method.headDeclarations, m.entry_opened]

/-- The head of a method declares it and its parameters. -/
theorem Listed.declareMethod (h : Listed name place ds) (m : Method) {q : Program}
    {procedure : DeclId} {table : TableId} :
    Parser.declareMethod (programOf name place ds) m.head = .ok (q, procedure, table) ↔
      ((ds ++ m.headDeclarations ds.length (tablesFor ds).length).map Declaration.entry).Nodup ∧
        q = programOf name place (ds ++ m.headDeclarations ds.length (tablesFor ds).length) ∧
          procedure = ds.length ∧ table = (tablesFor ds).length := by
  have hlength : (tablesFor ds).length < (tablesFor (ds ++ [m.announced])).length := by
    rw [tablesFor_procedure rfl, List.length_append]
    exact Nat.lt_succ_self _
  have hupdate (t : TableId) : (programOf name place (ds ++ [m.announced] ++
        m.paramList.map (Param.declaration t))).update ds.length (fun d =>
          { d with
            locals := some t
            params := (List.range' (ds ++ [m.announced]).length m.paramList.length).map some }) =
      programOf name place (ds ++ m.headDeclarations ds.length t) := by
    rw [← List.append_cons, List.length_append]
    apply programOf_update
    exact fun _ => ⟨rfl, rfl, rfl⟩
  rw [Method.declare_head, m.entries_headDeclarations]
  constructor
  · rintro ⟨p₁, p₂, p₃, ids, hp₁, hp₂, hp₃, rfl⟩
    obtain ⟨hnodup, rfl, rfl⟩ := (h.declareProcedure rfl).1 hp₁
    obtain ⟨hadd, hlisted⟩ := h.addTable rfl rfl hnodup
    obtain ⟨rfl, rfl⟩ := Prod.mk.inj (hadd.symm.trans hp₂)
    obtain ⟨hall, rfl, rfl⟩ := (hlisted.declareParams _ hlength).1 hp₃
    exact ⟨hall, hupdate _, rfl, rfl⟩
  · rintro ⟨hall, rfl, rfl, rfl⟩
    obtain ⟨hadd, hlisted⟩ := h.addTable rfl rfl (nodup_of_append hall)
    exact ⟨_, _, _, _, (h.declareProcedure rfl).2 ⟨nodup_of_append hall, rfl, rfl⟩, hadd,
      (hlisted.declareParams _ hlength).2 ⟨hall, rfl, rfl⟩, (hupdate _).symm⟩

/-- Behind the head of a method its table exists, and nothing is declared twice. -/
theorem Listed.headDeclarations (h : Listed name place ds) (m : Method)
    (hnodup : ((ds ++ m.headDeclarations ds.length (tablesFor ds).length).map
      Declaration.entry).Nodup) :
    Listed name place (ds ++ m.headDeclarations ds.length (tablesFor ds).length) ∧
      (tablesFor ds).length <
        (tablesFor (ds ++ m.headDeclarations ds.length (tablesFor ds).length)).length := by
  have htables : (tablesFor (ds ++ [m.announced])).length = (tablesFor ds).length + 1 := by
    rw [tablesFor_procedure rfl, List.length_append, List.length_singleton]
  rw [m.entries_headDeclarations] at hnodup
  obtain ⟨-, hlisted⟩ := h.addTable rfl rfl (nodup_of_append hnodup)
  have hparams : ∀ d ∈ m.paramList.map (Param.declaration (tablesFor ds).length),
      d.isValue = true ∧ d.table < (tablesFor (ds ++ [m.announced])).length := by
    rw [List.forall_mem_map, htables]
    exact fun x _ => ⟨rfl, Nat.lt_succ_self _⟩
  have hall := hlisted.append hparams hnodup
  have hsame := tablesFor_values (fun d hd => (hparams d hd).1) (ds ++ [m.announced])
  rw [← List.append_cons] at hall hsame
  constructor
  · exact hall.update (f := fun d => { d with
      locals := some (tablesFor ds).length
      params := (List.range' (ds.length + 1) m.paramList.length).map some })
      (fun _ => ⟨rfl, rfl, rfl⟩) (by simp [Declaration.arity, Method.announced])
  · have hopened : tablesFor (ds ++ m.headDeclarations ds.length (tablesFor ds).length) =
        tablesFor (ds ++ [m.announced]) := by
      rw [← hsame]
      apply tablesFor_congr
      simp [Method.headDeclarations, Declaration.isValue, Method.opened]
    rw [hopened, htables]
    exact Nat.lt_succ_self _

theorem Method.append_declarations (m : Method) (ds : List Declaration) (t : TableId) :
    ds ++ m.headDeclarations ds.length t ++ m.locals.map (Variable.declaration t) =
      ds ++ m.opened (ds.length + 1) t :: (m.paramList.map (Param.declaration t) ++
        m.locals.map (Variable.declaration t)) := by
  rw [Method.headDeclarations, List.append_assoc, List.cons_append]

theorem Method.entries_declarations (m : Method) (ds : List Declaration) (t : TableId) :
    (ds ++ m.declarations ds.length t).map Declaration.entry =
      (ds ++ m.headDeclarations ds.length t ++
        m.locals.map (Variable.declaration t)).map Declaration.entry := by
  have hentry : (m.declaration (ds.length + 1) t).entry = (m.opened (ds.length + 1) t).entry := rfl
  rw [m.append_declarations]
  simp [Method.declarations, hentry]

/-- A method is declared with its parameters and variables. -/
theorem adds_methods : Adds name place (fun _ => True) Method.declare (fun _ => True)
    fun ds m => m.declarations ds.length (tablesFor ds).length where
  eq_ok_iff {ds m q} hds _ := by
    have hbody : (programOf name place (ds ++ m.headDeclarations ds.length (tablesFor ds).length ++
        m.locals.map (Variable.declaration (tablesFor ds).length))).update ds.length
          (fun d => { d with body := m.body }) =
        programOf name place (ds ++ m.declarations ds.length (tablesFor ds).length) := by
      rw [m.append_declarations]
      apply programOf_update
      exact fun _ => ⟨rfl, rfl, rfl⟩
    simp only [Method.declare, bind_eq_ok, pure_eq_ok, true_and, m.entries_declarations]
    constructor
    · rintro ⟨⟨p, procedure, table⟩, hp, p', hp', rfl⟩
      obtain ⟨hnodup, rfl, rfl, rfl⟩ := (hds.declareMethod m).1 hp
      obtain ⟨hlisted, htable⟩ := hds.headDeclarations m hnodup
      obtain ⟨-, hall, rfl⟩ := ((adds_variables _).foldlM_value.eq_ok_iff hlisted htable).1 hp'
      exact ⟨hall, hbody⟩
    · rintro ⟨hall, rfl⟩
      obtain ⟨hlisted, htable⟩ := hds.headDeclarations m (nodup_of_append hall)
      exact ⟨_, (hds.declareMethod m).2 ⟨nodup_of_append hall, rfl, rfl, rfl⟩, _,
        ((adds_variables _).foldlM_value.eq_ok_iff hlisted htable).2
          ⟨fun _ _ => trivial, hall, rfl⟩, hbody⟩
  listed {ds m} hds _ hnodup := by
    rw [m.entries_declarations] at hnodup
    obtain ⟨hlisted, htable⟩ := hds.headDeclarations m (nodup_of_append hnodup)
    obtain ⟨hall, -⟩ := (adds_variables _).foldlM_value.listed hlisted htable hnodup
    rw [m.append_declarations] at hall
    exact ⟨hall.update (f := fun d => { d with body := m.body }) (fun _ => ⟨rfl, rfl, rfl⟩) rfl,
      trivial⟩

/-- A method has one table, for its parameters and variables. -/
theorem tablesFor_method (m : Method) (ds : List Declaration) (id : DeclId) (table : TableId) :
    tablesFor (ds ++ m.declarations id table) =
      tablesFor ds ++ [{ parent := some classTable, owner := some ds.length }] := by
  have hvalues : ∀ d ∈ m.paramList.map (Param.declaration table) ++
      m.locals.map (Variable.declaration table), d.isValue = true := by
    intro d hd
    rcases List.mem_append.1 hd with hd | hd
    · obtain ⟨x, -, rfl⟩ := List.mem_map.1 hd
      rfl
    · obtain ⟨v, -, rfl⟩ := List.mem_map.1 hd
      rfl
  rw [Method.declarations, List.append_cons, tablesFor_values hvalues, tablesFor_procedure rfl]

/-- The declarations of methods are numbered from the end on. -/
theorem newAll_methods (ds : List Declaration) (ms : List Method) :
    newAll (fun ds m => Method.declarations ds.length (tablesFor ds).length m) ds ms =
      Method.allDeclarations ds.length (tablesFor ds).length ms := by
  induction ms generalizing ds with
  | nil => rfl
  | cons m ms ih =>
    have htables : (tablesFor (ds ++ m.declarations ds.length (tablesFor ds).length)).length =
        (tablesFor ds).length + 1 := by
      rw [tablesFor_method, List.length_append, List.length_singleton]
    rw [newAll, ih, htables, List.length_append, Method.allDeclarations]

/-- **The declarations of a class can be made if every initializer has a value and no two of them
have the same entry, and make up the program of the class.** -/
theorem Class.declare_eq_ok {c : Class} {p : Program} :
    c.declare = .ok p ↔ (∀ k ∈ c.constants, k.Evaluates) ∧
      (c.declarations.map Declaration.entry).Nodup ∧ p = c.program := by
  have hempty := Listed.empty c.name.1.content c.name.1.position
  have hclass (ds : List Declaration) : classTable < (tablesFor ds).length := by
    simp [tablesFor, classTable]
  have hfields : ∀ d ∈ c.constants.map Constant.declaration ++
      c.fields.map (Variable.declaration classTable), d.isValue = true := by
    intro d hd
    rcases List.mem_append.1 hd with hd | hd
    · obtain ⟨k, -, rfl⟩ := List.mem_map.1 hd
      rfl
    · obtain ⟨v, -, rfl⟩ := List.mem_map.1 hd
      rfl
  -- values add no tables, so the methods are numbered from the table of the class on
  have htables : tablesFor ([] ++ c.constants.map Constant.declaration ++
      c.fields.map (Variable.declaration classTable)) = tablesFor [] := by
    rw [List.append_assoc, tablesFor_values hfields]
  have hdeclarations : c.declarations = [] ++ c.constants.map Constant.declaration ++
      c.fields.map (Variable.declaration classTable) ++
      newAll (fun ds m => Method.declarations ds.length (tablesFor ds).length m)
        ([] ++ c.constants.map Constant.declaration ++
          c.fields.map (Variable.declaration classTable)) c.methods := by
    rw [newAll_methods, htables]
    rfl
  rw [Class.program, hdeclarations, Class.declare]
  simp only [bind_eq_ok]
  constructor
  -- constants, variables and methods are declared in this order
  · rintro ⟨p₁, hp₁, p₂, hp₂, hp⟩
    obtain ⟨hvalues, h₁, rfl⟩ := (adds_constants.foldlM_value.eq_ok_iff hempty trivial).1 hp₁
    obtain ⟨hlisted₁, -⟩ := adds_constants.foldlM_value.listed hempty trivial h₁
    obtain ⟨-, h₂, rfl⟩ :=
      ((adds_variables classTable).foldlM_value.eq_ok_iff hlisted₁ (hclass _)).1 hp₂
    obtain ⟨hlisted₂, -⟩ :=
      (adds_variables classTable).foldlM_value.listed hlisted₁ (hclass _) h₂
    obtain ⟨-, h, rfl⟩ := (adds_methods.foldlM.eq_ok_iff hlisted₂ trivial).1 hp
    exact ⟨hvalues, h, rfl⟩
  · rintro ⟨hvalues, h, rfl⟩
    have h₂ := nodup_of_append h
    have h₁ := nodup_of_append h₂
    obtain ⟨hlisted₁, -⟩ := adds_constants.foldlM_value.listed hempty trivial h₁
    obtain ⟨hlisted₂, -⟩ :=
      (adds_variables classTable).foldlM_value.listed hlisted₁ (hclass _) h₂
    exact ⟨_, (adds_constants.foldlM_value.eq_ok_iff hempty trivial).2 ⟨hvalues, h₁, rfl⟩, _,
      ((adds_variables classTable).foldlM_value.eq_ok_iff hlisted₁ (hclass _)).2
        ⟨fun _ _ => trivial, h₂, rfl⟩,
      (adds_methods.foldlM.eq_ok_iff hlisted₂ trivial).2 ⟨fun _ _ => trivial, h, rfl⟩⟩

end Grammar

end Classwright
