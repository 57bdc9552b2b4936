import Classwright.Proofs.Program.Tables

/-!
# Programs from their declarations

A program is the list of its declarations, each with the table it was made in
(`Program.ofDeclarations`): every table holds those that were made in it, in order.  Declaring adds
one at the end, and is refused if one of the table has the same entry already, which is the name of
a value, and the name of a procedure with the number of its parameters
(`Program.declare_ofDeclarations`).
-/

namespace Classwright

/-- The entry of a table that a declaration takes: the table, the name, and for a procedure the
number of its parameters. -/
def Declaration.entry (d : Declaration) : TableId × Text × Option Nat :=
  (d.table, d.name, if d.isValue then none else some d.arity)

namespace Program

/-! ### Keys -/

/-- A declaration is in conflict with those of its table that have the same entry. -/
theorem Tidy.conflict?_eq_none_iff {p : Program} (hp : p.Tidy) {t : TableId}
    (ht : t < p.tables.size) (d : Declaration) :
    p.conflict? t d = none ↔
      ∀ id e, p.decl? id = some e → e.entry ≠ Declaration.entry { d with table := t } := by
  obtain ⟨tab, htab⟩ := exists_table? ht
  have hkind : Declaration.isValue { d with table := t } = d.isValue := rfl
  have harity : Declaration.arity { d with table := t } = d.arity := rfl
  simp only [Declaration.entry, hkind, harity]
  constructor
  · intro h id e he hentry
    obtain ⟨htable, hname, hsort⟩ : e.table = t ∧ e.name = d.name ∧
        (if e.isValue then none else some e.arity) =
          (if d.isValue then none else some d.arity) := by
      simpa using hentry
    cases hv : d.isValue <;> cases hev : e.isValue <;> simp [hv, hev] at hsort
    · exact hp.arity_ne_of_conflict?_eq_none htab h hv he htable hev hname hsort
    · have hfound := (hp.values_iff t tab htab d.name id).2 ⟨e, he, htable, hev, hname⟩
      simp [(hp.index_of_conflict?_eq_none htab h).1 hv] at hfound
  · intro h
    rw [Option.eq_none_iff_forall_not_mem]
    intro e he
    cases hv : d.isValue with
    | false =>
      obtain ⟨id, hid, -⟩ : ∃ id, p.procedureIn? tab d.name d.arity = some id ∧
          p.decl? id = some e := by
        simpa [conflict?, htab, hv, Option.bind_eq_some_iff] using he
      obtain ⟨e', he', htable, hev, hname, harity⟩ := hp.procedureIn?_eq_some htab hid
      exact h id e' he' (by simp [htable, hname, harity, hev, hv])
    | true =>
      obtain ⟨id, hid, -⟩ : ∃ id, valueIn? tab d.name = some id ∧ p.decl? id = some e := by
        simpa [conflict?, htab, hv, Option.bind_eq_some_iff] using he
      obtain ⟨e', he', htable, hev, hname⟩ := (hp.values_iff t tab htab d.name id).1 hid
      exact h id e' he' (by simp [htable, hname, hev, hv])

/-! ### Tables from declarations -/

/-- A table with the declarations made in it, of which the first has the number `id`. -/
def fill (t : TableId) : DeclId → List Declaration → SymbolTable → SymbolTable
  | _, [], tab => tab
  | id, d :: rest, tab => fill t (id + 1) rest (if d.table = t then tab.insert id d else tab)

/-- The program with given declarations and given tables, which are still empty. -/
def ofDeclarations (name : Text) (position : Position) (tables : List SymbolTable)
    (ds : List Declaration) : Program :=
  { name
    position
    decls := ds.toArray
    tables := (tables.mapIdx fun t tab => fill t 0 ds tab).toArray }

theorem fill_append (t : TableId) (id : DeclId) (ds others : List Declaration)
    (tab : SymbolTable) :
    fill t id (ds ++ others) tab = fill t (id + ds.length) others (fill t id ds tab) := by
  induction ds generalizing id tab with
  | nil => rfl
  | cons d ds ih =>
    rw [List.cons_append, fill, ih, fill, List.length_cons, Nat.add_assoc, Nat.add_comm 1]

theorem fill_of_ne {t : TableId} {ds : List Declaration} (h : ∀ d ∈ ds, d.table ≠ t) (id : DeclId)
    (tab : SymbolTable) : fill t id ds tab = tab := by
  induction ds generalizing id with
  | nil => rfl
  | cons d ds ih =>
    rw [List.forall_mem_cons] at h
    rw [fill, if_neg h.1, ih h.2]

/-- A declaration is listed by its kind and its name. -/
theorem insert_congr {d e : Declaration} (hkind : e.kind = d.kind) (hname : e.name = d.name)
    (tab : SymbolTable) (id : DeclId) : tab.insert id e = tab.insert id d := by
  rw [SymbolTable.insert, SymbolTable.insert, hkind, hname]

/-- Changing what a table does not list changes no table. -/
theorem fill_modify {f : Declaration → Declaration}
    (hf : ∀ d, (f d).kind = d.kind ∧ (f d).name = d.name ∧ (f d).table = d.table) (t : TableId)
    (id n : Nat) (ds : List Declaration) (tab : SymbolTable) :
    fill t id (ds.modify n f) tab = fill t id ds tab := by
  induction ds generalizing id n tab with
  | nil => simp
  | cons d ds ih =>
    cases n with
    | zero =>
      obtain ⟨hkind, hname, htable⟩ := hf d
      rw [List.modify_zero_cons, fill, fill, htable, insert_congr hkind hname]
    | succ n => rw [List.modify_succ_cons, fill, ih, fill]

section

variable {name : Text} {position : Position} {tables : List SymbolTable} {ds : List Declaration}

theorem decl?_ofDeclarations (id : DeclId) :
    (ofDeclarations name position tables ds).decl? id = ds[id]? := by
  simp [decl?, ofDeclarations]

theorem tables_size_ofDeclarations :
    (ofDeclarations name position tables ds).tables.size = tables.length := by
  simp [ofDeclarations]

/-- Declaring adds a declaration at the end, unless its entry is taken. -/
theorem declare_ofDeclarations (hp : (ofDeclarations name position tables ds).Tidy) {t : TableId}
    (ht : t < tables.length) {d : Declaration} {q : Program} {id : DeclId} :
    (ofDeclarations name position tables ds).declare t d = .ok (q, id) ↔
      Declaration.entry { d with table := t } ∉ ds.map Declaration.entry ∧
        q = ofDeclarations name position tables (ds ++ [{ d with table := t }]) ∧
          id = ds.length := by
  have hnew : ({ ofDeclarations name position tables ds with
      decls := (ofDeclarations name position tables ds).decls.push { d with table := t }
      tables := (ofDeclarations name position tables ds).tables.modify t
        (·.insert (ofDeclarations name position tables ds).decls.size d) } : Program) =
      ofDeclarations name position tables (ds ++ [{ d with table := t }]) := by
    -- the table of the declaration is filled with one more, the others as before
    have hfill (s : TableId) (tab : SymbolTable) :
        fill s 0 (ds ++ [{ d with table := t }]) tab =
          if t = s then (fill s 0 ds tab).insert ds.length d else fill s 0 ds tab := by
      rw [fill_append, Nat.zero_add, fill, fill]
      rfl
    have htables : (tables.mapIdx fun s tab => fill s 0 ds tab).toArray.modify t
        (·.insert ds.length d) =
        (tables.mapIdx fun s tab => fill s 0 (ds ++ [{ d with table := t }]) tab).toArray := by
      apply Array.ext_getElem?
      intro s
      rw [Array.getElem?_modify]
      simp only [List.getElem?_toArray, List.getElem?_mapIdx, hfill]
      split
      · rw [Option.map_map]
        rfl
      · rfl
    simp only [ofDeclarations, List.size_toArray, List.push_toArray, htables]
  -- no conflict is a free entry
  have hentry : (ofDeclarations name position tables ds).conflict? t d = none ↔
      Declaration.entry { d with table := t } ∉ ds.map Declaration.entry := by
    rw [hp.conflict?_eq_none_iff (by rwa [tables_size_ofDeclarations])]
    simp only [decl?_ofDeclarations, List.mem_map, not_exists, not_and]
    constructor
    · intro h e he
      obtain ⟨j, hj⟩ := List.getElem?_of_mem he
      exact h j e hj
    · intro h j e hj
      exact h e (List.mem_of_getElem? hj)
  constructor
  · intro h
    obtain ⟨hconflict, rfl, rfl⟩ := declare_eq_ok h
    exact ⟨hentry.1 hconflict, hnew, by simp [ofDeclarations]⟩
  · rintro ⟨hfree, rfl, rfl⟩
    rw [declare, hentry.2 hfree, ← hnew]
    simp [ofDeclarations]

/-- A new table is empty. -/
theorem addTable_ofDeclarations (h : ∀ d ∈ ds, d.table < tables.length) (parent : Option TableId)
    (owner : Option DeclId) :
    (ofDeclarations name position tables ds).addTable parent owner =
      (ofDeclarations name position (tables ++ [{ parent := parent, owner := owner }]) ds,
        tables.length) := by
  have hempty := fill_of_ne (fun d hd => Nat.ne_of_lt (h d hd)) 0 { parent, owner }
  simp [addTable, ofDeclarations, List.mapIdx_append, hempty]

theorem update_ofDeclarations {f : Declaration → Declaration}
    (hf : ∀ d, (f d).kind = d.kind ∧ (f d).name = d.name ∧ (f d).table = d.table) (id : DeclId) :
    (ofDeclarations name position tables ds).update id f =
      ofDeclarations name position tables (ds.modify id f) := by
  simp [update, ofDeclarations, fill_modify hf]

end

end Program

end Classwright
