import Mathlib.Logic.Relation
import Classwright.Proofs.Program.Listed

/-!
# Scopes

The tables of a program stand inside each other, and a name stands for what the nearest table has
by it.  Whatever tables are added and whatever is declared in them, tables stay tidy
(`Program.Tidy.performAll`): a declaration is in the list of its own table and in no other, and is
refused exactly if it clashes with one of that table (`Declaration.Clashes`).  Else it is added, and
nothing else changes (`Program.Adds`).

A table is younger than the one around it, so the way outwards ends, and what a lookup finds is
what is nearest (`Program.Nearest`).  The main result is `Program.requests_scopes`.
-/

namespace Classwright

/-- Two declarations that no table can hold both: two values with one name, or two procedures with
one name and as many parameters. -/
def Declaration.Clashes (d e : Declaration) : Prop :=
  d.name = e.name ∧ d.isValue = e.isValue ∧ (d.isValue = false → d.arity = e.arity)

/-- Declarations clash in a table if they take the same entry of it. -/
theorem Declaration.entry_eq_iff {d e : Declaration} :
    d.entry = e.entry ↔ d.table = e.table ∧ d.Clashes e := by
  unfold Declaration.entry Declaration.Clashes
  rw [Prod.mk.injEq, Prod.mk.injEq]
  cases hd : d.isValue <;> cases he : e.isValue <;> simp

namespace Program

variable {p : Program}

/-! ### Conflicts -/

/-- Declarations of one table do not clash. -/
theorem Tidy.eq_of_clashes (hp : p.Tidy) {i j : DeclId} {d e : Declaration}
    (hi : p.decl? i = some d) (hj : p.decl? j = some e) (htable : d.table = e.table)
    (h : d.Clashes e) : i = j := by
  obtain ⟨hname, hkind, harity⟩ := h
  cases hv : d.isValue with
  | true => exact hp.value_unique hi hj htable hv (hkind ▸ hv) hname
  | false => exact hp.procedure_unique i j d e hi hj htable hv (hkind ▸ hv) hname (harity hv)

/-- What a new declaration would redefine is the one of its table that it clashes with. -/
theorem Tidy.conflict?_eq_some_iff (hp : p.Tidy) {t : TableId} (ht : t < p.tables.size)
    {d e : Declaration} :
    p.conflict? t d = some e ↔ ∃ id, p.decl? id = some e ∧ e.table = t ∧ e.Clashes d := by
  obtain ⟨tab, htab⟩ := exists_table? ht
  have hfound : ∀ e, p.conflict? t d = some e →
      ∃ id, p.decl? id = some e ∧ e.table = t ∧ e.Clashes d := by
    intro e h
    cases hv : d.isValue with
    | true =>
      obtain ⟨id, hid, he⟩ : ∃ id, valueIn? tab d.name = some id ∧ p.decl? id = some e := by
        simpa [conflict?, htab, hv, Option.bind_eq_some_iff] using h
      obtain ⟨e', he', htable, hev, hname⟩ := (hp.values_iff t tab htab d.name id).1 hid
      obtain rfl := Option.some.inj (he.symm.trans he')
      exact ⟨id, he, htable, hname, by rw [hev, hv], fun hproc => by simp [hev] at hproc⟩
    | false =>
      obtain ⟨id, hid, he⟩ : ∃ id, p.procedureIn? tab d.name d.arity = some id ∧
          p.decl? id = some e := by
        simpa [conflict?, htab, hv, Option.bind_eq_some_iff] using h
      obtain ⟨e', he', htable, hev, hname, harity⟩ := hp.procedureIn?_eq_some htab hid
      obtain rfl := Option.some.inj (he.symm.trans he')
      exact ⟨id, he, htable, hname, by rw [hev, hv], fun _ => harity⟩
  refine ⟨hfound e, ?_⟩
  rintro ⟨id, he, htable, hclash⟩
  cases hconflict : p.conflict? t d with
  | none =>
    have hfree := (hp.conflict?_eq_none_iff ht d).1 hconflict id e he
    have hentry : e.entry = Declaration.entry { d with table := t } :=
      Declaration.entry_eq_iff.2 ⟨htable, hclash⟩
    exact absurd hentry hfree
  | some e' =>
    -- Two declarations that clash with a third one clash with each other.
    obtain ⟨id', he', htable', hname, hkind, harity⟩ := hfound e' hconflict
    have hboth : e.Clashes e' :=
      ⟨hclash.1.trans hname.symm, hclash.2.1.trans hkind.symm, fun hv =>
        (hclash.2.2 hv).trans (harity (by rw [hkind, ← hclash.2.1, hv])).symm⟩
    obtain rfl := hp.eq_of_clashes he he' (htable.trans htable'.symm) hboth
    exact he'.symm.trans he

/-- Declaring fails exactly for a clash, and the error names the declaration that was there. -/
theorem Tidy.declare_eq_error_iff (hp : p.Tidy) {t : TableId} (ht : t < p.tables.size)
    {d : Declaration} {err : CompileError} :
    p.declare t d = .error err ↔ ∃ id earlier, p.decl? id = some earlier ∧ earlier.table = t ∧
      earlier.Clashes d ∧ err = redefinition d earlier := by
  unfold Program.declare
  constructor
  · intro h
    cases hconflict : p.conflict? t d with
    | none => simp [hconflict] at h
    | some earlier =>
      obtain ⟨id, hid, htable, hclash⟩ := (hp.conflict?_eq_some_iff ht).1 hconflict
      rw [hconflict] at h
      exact ⟨id, earlier, hid, htable, hclash, (Except.error.inj h).symm⟩
  · rintro ⟨id, earlier, hid, htable, hclash, rfl⟩
    rw [(hp.conflict?_eq_some_iff ht).2 ⟨id, hid, htable, hclash⟩]

/-! ### Lookups -/

/-- The second table is the first one or is around it. -/
def Encloses (p : Program) : TableId → TableId → Prop :=
  Relation.ReflTransGen fun t outer => ∃ tab, p.table? t = some tab ∧ tab.parent = some outer

/-- Of a table and those around it, the first that has a declaration with `P` has it as `id`. -/
inductive Nearest (p : Program) (P : Declaration → Prop) : TableId → DeclId → Prop
  | here {t : TableId} {id : DeclId} {d : Declaration} (hd : p.decl? id = some d)
      (ht : d.table = t) (hP : P d) : Nearest p P t id
  | outer {t outer : TableId} {id : DeclId} {tab : SymbolTable} (htab : p.table? t = some tab)
      (hparent : tab.parent = some outer)
      (hnone : ∀ id d, p.decl? id = some d → d.table = t → ¬ P d) (h : Nearest p P outer id) :
      Nearest p P t id

section Lookup

variable {find : SymbolTable → Option DeclId} {P : Declaration → Prop}

/-- A search of one table finds its declaration with a given property. -/
def Finds (p : Program) (find : SymbolTable → Option DeclId) (P : Declaration → Prop) : Prop :=
  ∀ t tab, p.table? t = some tab → ∀ id,
    find tab = some id ↔ ∃ d, p.decl? id = some d ∧ d.table = t ∧ P d

theorem Finds.eq_none_iff (h : p.Finds find P) {t : TableId} {tab : SymbolTable}
    (ht : p.table? t = some tab) :
    find tab = none ↔ ∀ id d, p.decl? id = some d → d.table = t → ¬ P d := by
  rw [Option.eq_none_iff_forall_ne_some]
  constructor
  · intro hnone id d hd htable hP
    exact hnone id ((h t tab ht id).2 ⟨d, hd, htable, hP⟩)
  · intro hnone id hid
    obtain ⟨d, hd, htable, hP⟩ := (h t tab ht id).1 hid
    exact hnone id d hd htable hP

/-- One step of a search: the table around is always searched, since it is older. -/
theorem Tidy.searchFrom_eq (hp : p.Tidy) (find : SymbolTable → Option DeclId) {t : TableId}
    {tab : SymbolTable} (ht : p.table? t = some tab) :
    p.searchFrom find t = (find tab).or (tab.parent.bind (p.searchFrom find)) := by
  rw [searchFrom, ht]
  cases hfind : find tab with
  | some id => simp [hfind]
  | none =>
    cases hparent : tab.parent with
    | none => simp [hfind, hparent]
    | some outer => simp [hfind, hparent, hp.parent_lt t tab outer ht hparent]

/-- **Searching outwards** finds what is nearest. -/
theorem Tidy.searchFrom_eq_some_iff (hp : p.Tidy) (hfind : p.Finds find P) {t : TableId}
    (ht : t < p.tables.size) {id : DeclId} :
    p.searchFrom find t = some id ↔ p.Nearest P t id := by
  induction t using Nat.strongRecOn with
  | ind t ih =>
    obtain ⟨tab, htab⟩ := exists_table? ht
    rw [hp.searchFrom_eq find htab]
    constructor
    · intro h
      cases hhere : find tab with
      | some id' =>
        obtain ⟨d, hd, htable, hP⟩ := (hfind t tab htab id').1 hhere
        obtain rfl : id' = id := by simpa [hhere] using h
        exact .here hd htable hP
      | none =>
        obtain ⟨outer, hparent, hsearch⟩ : ∃ outer, tab.parent = some outer ∧
            p.searchFrom find outer = some id := by
          simpa [hhere, Option.bind_eq_some_iff] using h
        have hlt := hp.parent_lt t tab outer htab hparent
        have hnear := (ih outer hlt (Nat.lt_trans hlt ht)).1 hsearch
        exact .outer htab hparent ((hfind.eq_none_iff htab).1 hhere) hnear
    · intro h
      cases h with
      | here hd htable hP => rw [(hfind t tab htab id).2 ⟨_, hd, htable, hP⟩, Option.some_or]
      | @outer _ outer _ tab' htab' hparent hnone hnear =>
        obtain rfl := Option.some.inj (htab.symm.trans htab')
        have hlt := hp.parent_lt t tab outer htab hparent
        rw [(hfind.eq_none_iff htab).2 hnone, Option.none_or, hparent]
        exact (ih outer hlt (Nat.lt_trans hlt ht)).2 hnear

/-- A search fails exactly if neither the table nor one around it has what is searched. -/
theorem Tidy.searchFrom_eq_none_iff (hp : p.Tidy) (hfind : p.Finds find P) {t : TableId}
    (ht : t < p.tables.size) :
    p.searchFrom find t = none ↔
      ∀ outer, p.Encloses t outer → ∀ id d, p.decl? id = some d → d.table = outer → ¬ P d := by
  induction t using Nat.strongRecOn with
  | ind t ih =>
    obtain ⟨tab, htab⟩ := exists_table? ht
    rw [hp.searchFrom_eq find htab, Option.or_eq_none_iff, hfind.eq_none_iff htab,
      Option.bind_eq_none_iff]
    constructor
    · rintro ⟨hhere, houter⟩ s hs
      rcases Relation.ReflTransGen.cases_head hs with rfl | ⟨outer, ⟨tab', htab', hparent⟩, hrest⟩
      · exact hhere
      · obtain rfl := Option.some.inj (htab.symm.trans htab')
        have hlt := hp.parent_lt t tab outer htab hparent
        exact (ih outer hlt (Nat.lt_trans hlt ht)).1 (houter outer hparent) s hrest
    · intro h
      refine ⟨h t .refl, fun outer hparent => ?_⟩
      have hlt := hp.parent_lt t tab outer htab hparent
      refine (ih outer hlt (Nat.lt_trans hlt ht)).2 fun s hs => ?_
      exact h s (.head ⟨tab, htab, hparent⟩ hs)

end Lookup

/-- A value with a given name. -/
def IsValueNamed (name : Text) (d : Declaration) : Prop :=
  d.isValue = true ∧ d.name = name

/-- A procedure with a given name and number of parameters. -/
def IsProcedureNamed (name : Text) (arity : Nat) (d : Declaration) : Prop :=
  d.isValue = false ∧ d.name = name ∧ d.arity = arity

theorem Tidy.finds_values (hp : p.Tidy) (name : Text) :
    p.Finds (fun tab => valueIn? tab name) (IsValueNamed name) :=
  fun t tab ht id => hp.values_iff t tab ht name id

theorem Tidy.finds_procedures (hp : p.Tidy) (name : Text) (arity : Nat) :
    p.Finds (fun tab => p.procedureIn? tab name arity) (IsProcedureNamed name arity) := by
  intro t tab ht id
  refine ⟨hp.procedureIn?_eq_some ht, ?_⟩
  rintro ⟨d, hd, htable, hproc, hname, harity⟩
  have hmem := (hp.procedures_iff t tab ht name id).2 ⟨d, hd, htable, hproc, hname⟩
  cases hfound : p.procedureIn? tab name arity with
  | none =>
    have hno := List.find?_eq_none.1 hfound id hmem
    simp [hd, harity] at hno
  | some id' =>
    -- Another procedure that is found first would clash with this one.
    obtain ⟨d', hd', htable', hproc', hname', harity'⟩ := hp.procedureIn?_eq_some ht hfound
    have hclash : d'.Clashes d :=
      ⟨hname'.trans hname.symm, hproc'.trans hproc.symm, fun _ => harity'.trans harity.symm⟩
    obtain rfl := hp.eq_of_clashes hd' hd (htable'.trans htable.symm) hclash
    exact hfound

/-! ### Requests -/

/-- What can be asked of the symbol tables of a program. -/
inductive TableRequest where
  /-- To declare something in a table. -/
  | declare (table : TableId) (d : Declaration)
  /-- To add a table inside another one, or in none. -/
  | addTable (parent : Option TableId) (owner : Option DeclId)

/-- The program behind a request, the same one if that fails. -/
def perform (p : Program) : TableRequest → Program
  | .declare table d =>
    match p.declare table d with
    | .ok (q, _) => q
    | .error _ => p
  | .addTable parent owner => (p.addTable parent owner).1

/-- The program behind several requests. -/
def performAll (p : Program) (requests : List TableRequest) : Program :=
  requests.foldl perform p

/-- The table a request names exists. -/
def Fits (p : Program) : TableRequest → Prop
  | .declare table _ => table < p.tables.size
  | .addTable parent _ => ∀ outer ∈ parent, outer < p.tables.size

/-- The tables that requests name exist when it is their turn. -/
def AllFit (p : Program) : List TableRequest → Prop
  | [] => True
  | request :: rest => p.Fits request ∧ (p.perform request).AllFit rest

theorem perform_declare {t : TableId} {d : Declaration} {q : Program} {id : DeclId}
    (h : p.declare t d = .ok (q, id)) : p.perform (.declare t d) = q := by
  simp only [perform, h]

theorem Tidy.perform (hp : p.Tidy) {request : TableRequest} (h : p.Fits request) :
    (p.perform request).Tidy := by
  cases request with
  | addTable parent owner => exact hp.addTable h owner
  | declare table d =>
    show Tidy (match p.declare table d with | .ok (q, _) => q | .error _ => p)
    cases hdeclare : p.declare table d with
    | error err => exact hp
    | ok result => exact hp.declare h hdeclare

theorem Tidy.performAll (hp : p.Tidy) {requests : List TableRequest} (h : p.AllFit requests) :
    (p.performAll requests).Tidy := by
  induction requests generalizing p with
  | nil => exact hp
  | cons request rest ih => exact ih (hp.perform h.1) h.2

/-- Behind `p` the program `q` has the declaration `d` in the table `t` as `id`, and nothing else
has changed. -/
structure Adds (p : Program) (t : TableId) (d : Declaration) (q : Program) (id : DeclId) :
    Prop where
  /-- Declarations are numbered in order. -/
  id_eq : id = p.decls.size
  /-- The new one notes its table; the others are the same. -/
  decl?_eq : ∀ j, q.decl? j = if j = id then some { d with table := t } else p.decl? j
  /-- It is the last one of its table; the lists of other tables are the same. -/
  membersOf_eq : ∀ s, q.membersOf s = if t = s then p.membersOf s ++ [id] else p.membersOf s
  /-- Tables stand inside the same tables. -/
  parent_eq : ∀ s, (q.table? s).map SymbolTable.parent = (p.table? s).map SymbolTable.parent

/-- Declaring adds the declaration. -/
theorem adds_of_declare {t : TableId} {d : Declaration} {q : Program} {id : DeclId}
    (ht : t < p.tables.size) (h : p.declare t d = .ok (q, id)) : p.Adds t d q id where
  id_eq := (declare_eq_ok h).2.1
  decl?_eq := decl?_declare h
  membersOf_eq := membersOf_declare h ht
  parent_eq s := by
    rw [table?_declare h]
    split
    · rw [Option.map_map]
      exact congrArg (fun f => (p.table? s).map f) (funext fun tab => parent_insert tab id d)
    · rfl

/-- **Scopes.**  Whatever is declared and whatever tables are added, from a class without
declarations on: a declaration is in the list of its table and in no other, lists rise, and
declarations of one table do not clash.  Declaring fails exactly for a clash in the table, and then
changes nothing; else the declaration is added behind all others, as the last one of its table.
Tables are younger than what is around them, and a lookup from any of them finds the declaration of
the nearest table that has one, or nothing if none has. -/
theorem requests_scopes (name : Text) (place : Position) {requests : List TableRequest}
    (h : (Program.empty name place).AllFit requests) :
    let p := (Program.empty name place).performAll requests
    (∀ t id, id ∈ p.membersOf t ↔ ∃ d, p.decl? id = some d ∧ d.table = t) ∧
    (∀ t, (p.membersOf t).Pairwise (· < ·)) ∧
    (∀ i j d e, p.decl? i = some d → p.decl? j = some e → d.table = e.table → d.Clashes e →
      i = j) ∧
    (∀ t < p.tables.size, ∀ d,
      (∀ err, p.declare t d = .error err ↔ ∃ id earlier, p.decl? id = some earlier ∧
        earlier.table = t ∧ earlier.Clashes d ∧ err = redefinition d earlier) ∧
      (∀ id earlier, p.decl? id = some earlier → earlier.table = t → earlier.Clashes d →
        p.perform (.declare t d) = p) ∧
      (∀ q id, p.declare t d = .ok (q, id) → p.perform (.declare t d) = q ∧ p.Adds t d q id)) ∧
    (∀ t tab outer, p.table? t = some tab → tab.parent = some outer → outer < t) ∧
    (∀ t < p.tables.size, ∀ x id, p.lookupValue (some t) x = some id ↔
      p.Nearest (IsValueNamed x) t id) ∧
    (∀ t < p.tables.size, ∀ x, p.lookupValue (some t) x = none ↔
      ∀ outer, p.Encloses t outer → ∀ id d, p.decl? id = some d → d.table = outer →
        ¬ IsValueNamed x d) ∧
    (∀ t < p.tables.size, ∀ x arity id, p.lookupProcedure (some t) x arity = some id ↔
      p.Nearest (IsProcedureNamed x arity) t id) ∧
    (∀ t < p.tables.size, ∀ x arity, p.lookupProcedure (some t) x arity = none ↔
      ∀ outer, p.Encloses t outer → ∀ id d, p.decl? id = some d → d.table = outer →
        ¬ IsProcedureNamed x arity d) := by
  intro p
  have hp : p.Tidy := (Tidy.empty name place).performAll h
  refine ⟨hp.mem_membersOf, hp.sorted, fun i j d e hi hj => hp.eq_of_clashes hi hj, ?_,
    hp.parent_lt, ?_, ?_, ?_, ?_⟩
  · intro t ht d
    refine ⟨fun err => hp.declare_eq_error_iff ht, fun id earlier hid htable hclash => ?_,
      fun q id hdeclare => ⟨perform_declare hdeclare, adds_of_declare ht hdeclare⟩⟩
    have hfail := (hp.declare_eq_error_iff ht).2 ⟨id, earlier, hid, htable, hclash, rfl⟩
    simp only [perform, hfail]
  · intro t ht x id
    exact hp.searchFrom_eq_some_iff (hp.finds_values x) ht
  · intro t ht x
    exact hp.searchFrom_eq_none_iff (hp.finds_values x) ht
  · intro t ht x arity id
    exact hp.searchFrom_eq_some_iff (hp.finds_procedures x arity) ht
  · intro t ht x arity
    exact hp.searchFrom_eq_none_iff (hp.finds_procedures x arity) ht

/-! ### A class with a variable and a procedure -/

/-- A variable x. -/
def variableX : Declaration := { kind := .var, name := [120] }

/-- A procedure f with one parameter. -/
def procedureF : Declaration := { kind := .procedure, name := [102], params := [none] }

/-- Both are declared in the class, and a table is added inside its own. -/
def requestsXF : List TableRequest :=
  [.declare classTable variableX, .declare classTable procedureF, .addTable (some classTable) none]

/-- The class behind these requests. -/
def classXF : Program :=
  { Program.empty [65] .unknown with
    decls := #[variableX, procedureF]
    tables := #[(({} : SymbolTable).insert 0 variableX).insert 1 procedureF,
      { parent := some classTable }] }

theorem performAll_requestsXF :
    (Program.empty [65] .unknown).AllFit requestsXF ∧
      (Program.empty [65] .unknown).performAll requestsXF = classXF := by
  have hx : (Program.empty [65] .unknown).declare classTable variableX =
      .ok ({ Program.empty [65] .unknown with
        decls := #[variableX]
        tables := #[({} : SymbolTable).insert 0 variableX] }, 0) := by
    simp [declare, conflict?, Program.empty, table?, classTable, valueIn?, decl?, variableX]
  have hf : (Program.perform (.empty [65] .unknown) (.declare classTable variableX)).declare
      classTable procedureF =
      .ok ({ Program.empty [65] .unknown with
        decls := #[variableX, procedureF]
        tables := #[(({} : SymbolTable).insert 0 variableX).insert 1 procedureF] }, 1) := by
    rw [perform_declare hx]
    simp [declare, conflict?, Program.empty, table?, classTable, procedureIn?, decl?, variableX,
      procedureF, SymbolTable.insert, Declaration.isValue]
  constructor
  · refine ⟨Nat.zero_lt_one, ?_, ?_, trivial⟩
    · rw [perform_declare hx]
      exact Nat.zero_lt_one
    · rw [perform_declare hf]
      exact fun outer houter => Option.some.inj houter ▸ Nat.zero_lt_one
  · rw [performAll, requestsXF, List.foldl_cons, List.foldl_cons, perform_declare hf]
    rfl

/-- There is nothing but x and f. -/
theorem eq_of_decl?_classXF {id : DeclId} {d : Declaration} (h : classXF.decl? id = some d) :
    d = variableX ∨ d = procedureF := by
  have hlt : id < 2 := (Array.getElem?_eq_some_iff.1 h).1
  match id, hlt with
  | 0, _ => exact .inl (Option.some.inj h).symm
  | 1, _ => exact .inr (Option.some.inj h).symm

/-- The added table is empty. -/
theorem table_ne_of_decl?_classXF {id : DeclId} {d : Declaration}
    (h : classXF.decl? id = some d) : d.table ≠ 1 := by
  rcases eq_of_decl?_classXF h with rfl | rfl <;> decide

/-- From the added table x is found, and f by its one parameter only.  A constant x of the class is
refused for the variable, and a procedure f without parameters comes behind both. -/
theorem requests_scopes_outer :
    let p := (Program.empty [65] .unknown).performAll requestsXF
    (Program.empty [65] .unknown).AllFit requestsXF ∧ p.lookupValue (some 1) [120] = some 0 ∧
      p.lookupProcedure (some 1) [102] 1 = some 1 ∧ p.lookupProcedure (some 1) [102] 0 = none ∧
      p.declare classTable { variableX with kind := .constant } =
        .error ⟨.valueRedefined .var [120] .unknown, .unknown⟩ ∧
      ∃ q, p.declare classTable { procedureF with params := [] } = .ok (q, 2) ∧
        q.membersOf classTable = [0, 1, 2] := by
  intro p
  obtain ⟨hfit, hp⟩ := performAll_requestsXF
  have hx : classXF.decl? 0 = some variableX := rfl
  have hf : classXF.decl? 1 = some procedureF := rfl
  have hinner : classXF.table? 1 = some { parent := some classTable } := rfl
  have hclass : classTable < classXF.tables.size := Nat.zero_lt_two
  have hone : 1 < classXF.tables.size := Nat.one_lt_two
  have hscopes := requests_scopes [65] .unknown hfit
  rw [hp] at hscopes
  obtain ⟨-, -, -, hdeclares, -, hvalues, -, hprocedures, hnone⟩ := hscopes
  show _ ∧ p.lookupValue (some 1) [120] = some 0 ∧ _
  rw [show p = classXF from hp]
  refine ⟨hfit, (hvalues 1 hone [120] 0).2 ?_, (hprocedures 1 hone [102] 1 1).2 ?_,
    (hnone 1 hone [102] 0).2 ?_, ?_, ?_⟩
  · refine .outer hinner rfl (fun id d hd htable => ?_) (.here hx rfl ⟨rfl, rfl⟩)
    exact absurd htable (table_ne_of_decl?_classXF hd)
  · refine .outer hinner rfl (fun id d hd htable => ?_) (.here hf rfl ⟨rfl, rfl, rfl⟩)
    exact absurd htable (table_ne_of_decl?_classXF hd)
  · rintro outer - id d hd - ⟨hkind, -, harity⟩
    rcases eq_of_decl?_classXF hd with rfl | rfl
    · exact absurd hkind (by decide)
    · exact absurd harity (by decide)
  · refine ((hdeclares classTable hclass { variableX with kind := .constant }).1 _).2
      ⟨0, variableX, hx, rfl, ?_, rfl⟩
    exact ⟨rfl, rfl, fun hproc => absurd hproc (by decide)⟩
  · obtain ⟨hrefused, -, hadds⟩ := hdeclares classTable hclass { procedureF with params := [] }
    cases hdeclare : classXF.declare classTable { procedureF with params := [] } with
    | error err =>
      -- The variable is no procedure, and the procedure has one parameter.
      obtain ⟨id, earlier, hearlier, -, ⟨-, hkind, harity⟩, -⟩ := (hrefused err).1 hdeclare
      rcases eq_of_decl?_classXF hearlier with rfl | rfl
      · exact absurd hkind (by decide)
      · exact absurd (harity rfl) (by decide)
    | ok result =>
      obtain ⟨-, hadded⟩ := hadds result.1 result.2 hdeclare
      have hid : result.2 = 2 := hadded.id_eq
      have hmembers : classXF.membersOf classTable = [0, 1] := rfl
      refine ⟨result.1, by rw [← hid], ?_⟩
      rw [hadded.membersOf_eq, if_pos rfl, hmembers, hid]
      rfl

end Program

end Classwright
