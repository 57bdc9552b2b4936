import Classwright.Proofs.Check.Links
import Classwright.Proofs.Relabelling.Emission
import Mathlib

/-!
# Renaming local variables

A parameter or local variable of a procedure may be given another name, with all names in the body
of the procedure that read like it (`Program.renameLocal`), as long as the new name is not taken by
another one and is not used in the body: the class passes the same stages of a compilation and its
class file stays the same (`Program.unaffected_by_renaming`).

Resolution makes the same links before and after (`Program.RenamesTo.resolveProcedures`), since in
every body each name, as it is renamed, stands for the same declaration: the table of the procedure
holds the new name where it held the old one, the table of the class and those of other procedures
are not touched.  What is linked then differs in labels only.
-/

namespace Classwright

/-- The table with another name for one of its values. -/
def SymbolTable.renameValue (t : SymbolTable) (id : DeclId) (old new : Text) : SymbolTable :=
  { t with values := (t.values.erase old).insert new id }

/-- Names stand for the same behind a change of bodies. -/
theorem Node.LinksAlike.sameHeads {ρ : Relabelling} {p q p' q' : Program}
    {table : Option TableId} {node : Node} (h : node.LinksAlike ρ q p table) (hp : p.SameHeads p')
    (hq : q.SameHeads q') : node.LinksAlike ρ q' p' table where
  value x link place hx := by
    rw [hq.lookupValue, hp.lookupValue]
    exact h.value x link place hx
  procedure callee arity := by
    rw [hq.lookupProcedure, hp.lookupProcedure]
    exact h.procedure callee arity

/-- The name that a node reads or writes. -/
def Node.name? : Node → Option Text
  | .name x _ _ => some x
  | _ => none

namespace Program

/-- The program with another name for a parameter or local variable of a procedure, in its
declaration and in the body of the procedure. -/
def renameLocal (p : Program) (procedure target : DeclId) (new : Text) : Program :=
  match p.decl? target with
  | none => p
  | some v =>
    { p with
      decls := (p.decls.modify target fun v => { v with name := new }).modify procedure fun d =>
        { d with body := d.body.relabel (.rename v.name new) }
      tables := p.tables.modify v.table fun t => t.renameValue target v.name new }

/-- Two classes pass the same stages of a compilation, and have the same class file. -/
structure CompilesLike (q p : Program) : Prop where
  /-- They pass the reachability check alike. -/
  checkReachability : q.checkReachability = .ok () ↔ p.checkReachability = .ok ()
  /-- Their names are resolved alike. -/
  resolve : q.resolve.2 = none ↔ p.resolve.2 = none
  /-- They pass the analysis alike. -/
  analyze : q.resolve.1.analyze = .ok () ↔ p.resolve.1.analyze = .ok ()
  /-- The same class file is emitted for them. -/
  classFile : ∀ f, q.resolve.1.classFile = .ok f ↔ p.resolve.1.classFile = .ok f

variable {p q : Program}

/-! ### Programs with other names -/

/-- `q` is `p` with other names of declarations, put by `names`, and bodies relabelled by `σ`. -/
structure RenamesTo (names : DeclId → Text → Text) (σ : DeclId → Relabelling) (p q : Program) :
    Prop where
  /-- The class keeps its name. -/
  name : q.name = p.name
  /-- It stays where it is. -/
  place : q.position = p.position
  /-- Declarations change in their names and bodies. -/
  decl : ∀ id, q.decl? id = (p.decl? id).map fun d =>
    { d with name := names id d.name, body := d.body.relabel (σ id) }
  /-- The tables list the same. -/
  listed : ∀ t, q.membersOf t = p.membersOf t

namespace RenamesTo

variable {names : DeclId → Text → Text} {σ : DeclId → Relabelling}

/-- Programs with other names are the same when names are forgotten. -/
theorem identifies (h : RenamesTo names σ p q) (hplace : ∀ id place, (σ id).place place = place)
    (hmember : ∀ id ∈ p.members, ∀ x, names id x = x) : Relabelling.unnamed.Identifies q p where
  name := h.name
  place := h.place
  decl id := by
    rw [h.decl, Option.map_map]
    refine Option.map_congr fun d _ => ?_
    have hbody : (d.body.relabel (σ id)).relabel .unnamed = d.body.relabel .unnamed :=
      Node.relabel_relabel (fun _ => rfl) (hplace id) d.body
    simp only [Function.comp_apply, Declaration.relabel, hbody]
    rfl
  listed := h.listed
  member id hid := by
    rw [nameOf, nameOf, h.decl]
    cases p.decl? id with
    | none => rfl
    | some d => exact hmember id hid d.name

theorem procedures (h : RenamesTo names σ p q) : q.procedures = p.procedures := by
  rw [Program.procedures, Program.procedures, members, members, h.listed]
  refine List.filter_congr fun id _ => ?_
  rw [hasKind, hasKind, h.decl]
  cases p.decl? id <;> rfl

variable {id : DeclId}

/-- The bodies of a procedure are changed together. -/
theorem update_body (h : RenamesTo names σ p q) (body : Node) :
    RenamesTo names σ (p.update id fun d => { d with body })
      (q.update id fun d => { d with body := body.relabel (σ id) }) where
  name := h.name
  place := h.place
  decl j := by
    rw [decl?_update, decl?_update, h.decl]
    split
    · rename_i hj
      subst hj
      rw [Option.map_map, Option.map_map]
      rfl
    · rfl
  listed := h.listed

end RenamesTo

/-- **The same links**: procedures whose names, as they are renamed, stand for the same declarations
are linked alike, up to the first name that stands for nothing. -/
theorem RenamesTo.resolveProcedures {names : DeclId → Text → Text} {σ : DeclId → Relabelling}
    {ids : List DeclId} (h : RenamesTo names σ p q) (hids : ids.Nodup)
    (hlinks : ∀ id ∈ ids, ∃ d, p.decl? id = some d ∧
      d.body.LinksAlike (σ id) q p d.locals) :
    RenamesTo names σ (p.resolveProcedures ids).1 (q.resolveProcedures ids).1 ∧
      ((q.resolveProcedures ids).2 = none ↔ (p.resolveProcedures ids).2 = none) := by
  -- behind the procedures that are linked the bodies of the others are still those of `p` and `q`,
  -- and lookups, which do not look at bodies, are what they were
  induction ids generalizing p q with
  | nil => exact ⟨h, Iff.rfl⟩
  | cons id rest ih =>
    rw [List.nodup_cons] at hids
    rw [List.forall_mem_cons] at hlinks
    obtain ⟨⟨d, hd, hbody⟩, hrest⟩ := hlinks
    have hq := h.decl id
    rw [hd, Option.map_some] at hq
    rw [Program.resolveProcedures, Program.resolveProcedures, resolveProcedure, resolveProcedure,
      hq, hd]
    simp only [Node.resolve_relabel d.body hbody]
    rcases d.body.resolve p d.locals with ⟨body, _ | e⟩
    · refine ih (h.update_body body) hids.2 fun j hj => ?_
      obtain ⟨c, hc, hlinks⟩ := hrest j hj
      have hne : id ≠ j := fun heq => hids.1 (heq ▸ hj)
      refine ⟨c, by rw [decl?_update, if_neg hne, hc], ?_⟩
      exact hlinks.sameHeads (.update_body p id fun _ => body)
        (.update_body q id fun _ => body.relabel (σ id))
    · exact ⟨h.update_body body, by simp⟩

/-! ### Renaming -/

section

variable {procedure target : DeclId} {v : Declaration}

/-- What renaming makes of the declaration with the number `id`. -/
def renamedDecl (procedure target : DeclId) (old new : Text) (id : DeclId) (d : Declaration) :
    Declaration :=
  { d with
    name := if id = target then new else d.name
    body := d.body.relabel (if id = procedure then .rename old new else .same) }

theorem decl?_renameLocal (hv : p.decl? target = some v) (new : Text) (id : DeclId) :
    (p.renameLocal procedure target new).decl? id =
      (p.decl? id).map (renamedDecl procedure target v.name new id) := by
  have hdecls : (p.renameLocal procedure target new).decls =
      (p.decls.modify target fun v => { v with name := new }).modify procedure fun d =>
        { d with body := d.body.relabel (.rename v.name new) } := by
    rw [renameLocal, hv]
  simp only [decl?, hdecls, Array.getElem?_modify]
  by_cases htarget : target = id <;> by_cases hprocedure : procedure = id <;>
    cases p.decls[id]? <;>
    simp [renamedDecl, htarget, hprocedure, Ne.symm]

/-- The declarations of the renamed class are those of the class, renamed. -/
theorem exists_decl?_renameLocal (hv : p.decl? target = some v) (new : Text) (id : DeclId)
    (P : Declaration → Prop) :
    (∃ e', (p.renameLocal procedure target new).decl? id = some e' ∧ P e') ↔
      ∃ e, p.decl? id = some e ∧ P (renamedDecl procedure target v.name new id e) := by
  rw [decl?_renameLocal hv]
  simp only [Option.map_eq_some_iff]
  constructor
  · rintro ⟨_, ⟨e, he, rfl⟩, h⟩
    exact ⟨e, he, h⟩
  · rintro ⟨e, he, h⟩
    exact ⟨_, ⟨e, he, rfl⟩, h⟩

theorem decl?_of_renameLocal (hv : p.decl? target = some v) {new : Text} {id : DeclId}
    {e' : Declaration} (he' : (p.renameLocal procedure target new).decl? id = some e') :
    ∃ e, p.decl? id = some e ∧ e' = renamedDecl procedure target v.name new id e := by
  rw [decl?_renameLocal hv] at he'
  obtain ⟨e, he, rfl⟩ := Option.map_eq_some_iff.1 he'
  exact ⟨e, he, rfl⟩

theorem table?_renameLocal (hv : p.decl? target = some v) (new : Text) (s : TableId) :
    (p.renameLocal procedure target new).table? s =
      if v.table = s then (p.table? s).map (·.renameValue target v.name new) else p.table? s := by
  have htables : (p.renameLocal procedure target new).tables =
      p.tables.modify v.table fun t => t.renameValue target v.name new := by
    rw [renameLocal, hv]
  simp only [table?, htables, Array.getElem?_modify]

theorem membersOf_renameLocal (hv : p.decl? target = some v) (new : Text) (s : TableId) :
    (p.renameLocal procedure target new).membersOf s = p.membersOf s := by
  unfold membersOf
  rw [table?_renameLocal hv]
  by_cases hs : v.table = s
  · rw [if_pos hs]
    cases p.table? s <;> rfl
  · rw [if_neg hs]

/-- What renaming does to the declarations. -/
theorem renamesTo_renameLocal (hv : p.decl? target = some v) (new : Text) :
    RenamesTo (fun id x => if id = target then new else x)
      (fun id => if id = procedure then .rename v.name new else .same) p
      (p.renameLocal procedure target new) where
  name := by rw [renameLocal, hv]
  place := by rw [renameLocal, hv]
  decl := decl?_renameLocal hv new
  listed := membersOf_renameLocal hv new

/-- Renaming concerns no call. -/
theorem lookupProcedure_renameLocal (hv : p.decl? target = some v) (new : Text)
    (table : Option TableId) (callee : Text) (arity : Nat) :
    (p.renameLocal procedure target new).lookupProcedure table callee arity =
      p.lookupProcedure table callee arity := by
  have harity (j : DeclId) :
      ((p.renameLocal procedure target new).decl? j).map Declaration.arity =
        (p.decl? j).map Declaration.arity := by
    rw [decl?_renameLocal hv, Option.map_map]
    rfl
  cases table with
  | none => rfl
  | some t =>
    refine searchFrom_congr (fun s => ?_) t
    rw [table?_renameLocal hv]
    simp only [procedureIn?_congr harity]
    split
    · rw [Option.map_map]
      rfl
    · rfl

variable {d : Declaration} {t : TableId} {params vars : List DeclId} {new : Text}

/-- In the procedure the new name stands for what the old one stands for, and all names but these
two stand for what they stood for. -/
theorem WellFormed.linksAlike_self (hp : p.WellFormed) (hv : p.decl? target = some v)
    (hvalue : v.isValue = true) (ht : p.ProcedureTable d v.table params vars)
    (hfresh : ∀ link place, .name new link place ∉ d.body.nodes) :
    d.body.LinksAlike (.rename v.name new) (p.renameLocal procedure target new) p d.locals where
  procedure := lookupProcedure_renameLocal hv new d.locals
  value x link place hx := by
    obtain ⟨tab, htab, hparent⟩ := ht.parent
    obtain ⟨outer, houter, hroot⟩ := hp.exists_classTable
    have htab' : (p.renameLocal procedure target new).table? v.table =
        some (tab.renameValue target v.name new) := by
      rw [table?_renameLocal hv, if_pos rfl, htab, Option.map_some]
    have houter' : (p.renameLocal procedure target new).table? classTable = some outer := by
      rw [table?_renameLocal hv, if_neg (Nat.ne_of_gt ht.pos), houter]
    have hnew : x ≠ new := fun heq => hfresh link place (heq ▸ hx)
    rw [ht.locals_eq, lookupValue, lookupValue, Option.bind_some, Option.bind_some,
      searchFrom_inner _ htab' hparent ht.pos houter' hroot,
      searchFrom_inner _ htab hparent ht.pos houter hroot]
    -- the old name finds the local variable under the new one, all other names are stored as before
    by_cases hold : x = v.name
    · have hfound : tab.values[x]? = some target :=
        (hp.tidy.values_iff v.table tab htab x target).2 ⟨v, hv, rfl, hvalue, hold.symm⟩
      simp [valueIn?, SymbolTable.renameValue, Relabelling.rename, hold ▸ hfound, hold]
    · simp [valueIn?, SymbolTable.renameValue, Relabelling.rename, hold, Ne.symm hold, Ne.symm hnew,
        Std.HashMap.getElem?_insert, Std.HashMap.getElem?_erase]

/-- In every other procedure all names stand for what they stood for. -/
theorem WellFormed.linksAlike_other (hp : p.WellFormed) (hv : p.decl? target = some v)
    (ht : p.ProcedureTable d t params vars) (hclass : v.table ≠ classTable) (hne : v.table ≠ t) :
    d.body.LinksAlike .same (p.renameLocal procedure target new) p d.locals where
  procedure := lookupProcedure_renameLocal hv new d.locals
  value x link place hx := by
    obtain ⟨tab, htab, hparent⟩ := ht.parent
    obtain ⟨outer, houter, hroot⟩ := hp.exists_classTable
    have htab' : (p.renameLocal procedure target new).table? t = some tab := by
      rw [table?_renameLocal hv, if_neg hne, htab]
    have houter' : (p.renameLocal procedure target new).table? classTable = some outer := by
      rw [table?_renameLocal hv, if_neg hclass, houter]
    rw [ht.locals_eq, lookupValue, lookupValue, Option.bind_some, Option.bind_some,
      searchFrom_inner _ htab' hparent ht.pos houter' hroot,
      searchFrom_inner _ htab hparent ht.pos houter hroot]
    rfl

/-- The table of the procedure holds the new name where it held the old one. -/
theorem Tidy.getElem?_renameValue (hp : p.Tidy) (hv : p.decl? target = some v)
    (hvalue : v.isValue = true)
    (hlocal : ∀ id e, p.decl? id = some e → e.table = v.table → e.name ≠ new) {tab : SymbolTable}
    (htab : p.table? v.table = some tab) (x : Text) (id : DeclId) :
    (tab.renameValue target v.name new).values[x]? = some id ↔
      ∃ e, p.decl? id = some e ∧ e.table = v.table ∧ e.isValue = true ∧
        (if id = target then new else e.name) = x := by
  have hvalues := hp.values_iff v.table tab htab x id
  simp only [SymbolTable.renameValue, Std.HashMap.getElem?_insert, Std.HashMap.getElem?_erase,
    beq_iff_eq]
  by_cases hid : id = target
  · -- the renamed value has the new name, and only that
    subst hid
    by_cases hx : new = x
    · simpa [hx] using ⟨v, hv, rfl, hvalue⟩
    · rw [if_neg hx]
      simp only [if_true, hx, and_false, exists_false, iff_false]
      by_cases hold : v.name = x
      · simp [hold]
      · rw [if_neg hold, hvalues]
        rintro ⟨e, he, -, -, hname⟩
        obtain rfl := Option.some.inj (hv.symm.trans he)
        exact hold hname
  · -- the others have their names, none of which is the new one
    simp only [if_neg hid]
    rw [← hvalues]
    by_cases hx : new = x
    · rw [if_pos hx, hvalues]
      simp only [Option.some.injEq, Ne.symm hid, false_iff]
      rintro ⟨e, he, htable, -, hname⟩
      exact hlocal id e he htable (hname.trans hx.symm)
    · rw [if_neg hx]
      by_cases hold : v.name = x
      · rw [if_pos hold, hvalues]
        simp only [reduceCtorEq, false_iff]
        rintro ⟨e, he, htable, hev, hname⟩
        exact hid (hp.value_unique he hv htable hev hvalue (hname.trans hold.symm))
      · rw [if_neg hold]

/-- Tables stay where they are and list the same procedures. -/
theorem table?_of_renameLocal (hv : p.decl? target = some v) {s : TableId} {tab' : SymbolTable}
    (htab' : (p.renameLocal procedure target new).table? s = some tab') :
    ∃ tab, p.table? s = some tab ∧ tab'.procedures = tab.procedures ∧
      tab'.parent = tab.parent := by
  rw [table?_renameLocal hv] at htab'
  split at htab'
  · obtain ⟨tab, htab, rfl⟩ := Option.map_eq_some_iff.1 htab'
    exact ⟨tab, htab, rfl, rfl⟩
  · exact ⟨tab', htab', rfl, rfl⟩

/-- Procedures keep their names, and so do all declarations of other tables. -/
theorem name_renamedDecl (hv : p.decl? target = some v) (hvalue : v.isValue = true) {id : DeclId}
    {e : Declaration} (he : p.decl? id = some e)
    (hother : e.isValue = false ∨ e.table ≠ v.table) :
    (renamedDecl procedure target v.name new id e).name = e.name := by
  refine if_neg fun hid => ?_
  obtain rfl := Option.some.inj (hv.symm.trans (hid ▸ he))
  simp [hvalue] at hother

/-- Renaming keeps the tables tidy if the new name is not taken. -/
theorem Tidy.renameLocal (hp : p.Tidy) (hv : p.decl? target = some v) (hvalue : v.isValue = true)
    (hlocal : ∀ id e, p.decl? id = some e → e.table = v.table → e.name ≠ new) :
    (p.renameLocal procedure target new).Tidy := by
  refine
    { tables_pos := ?_
      mem_membersOf := fun s id => ?_
      sorted := fun s => ?_
      values_iff := fun s tab' htab' x id => ?_
      procedures_iff := fun s tab' htab' x id => ?_
      procedure_unique := fun i j d' e' hi hj htable hd he hname harity => ?_
      parent_lt := fun s tab' outer htab' hparent => ?_ }
  · rw [Program.renameLocal, hv]
    simpa using hp.tables_pos
  · rw [membersOf_renameLocal hv, hp.mem_membersOf, exists_decl?_renameLocal hv]
    rfl
  · rw [membersOf_renameLocal hv]
    exact hp.sorted s
  · rw [exists_decl?_renameLocal hv]
    rw [table?_renameLocal hv] at htab'
    -- in the table of the renamed value one key of the index changes
    by_cases hs : v.table = s
    · subst hs
      rw [if_pos rfl] at htab'
      obtain ⟨tab, htab, rfl⟩ := Option.map_eq_some_iff.1 htab'
      exact hp.getElem?_renameValue hv hvalue hlocal htab x id
    · rw [if_neg hs] at htab'
      rw [hp.values_iff s tab' htab']
      refine exists_congr fun e => and_congr_right fun he => and_congr_right fun ht => ?_
      rw [name_renamedDecl hv hvalue he (Or.inr (ht ▸ Ne.symm hs))]
      rfl
  · obtain ⟨tab, htab, hprocedures, -⟩ := table?_of_renameLocal hv htab'
    rw [exists_decl?_renameLocal hv, hprocedures, hp.procedures_iff s tab htab]
    refine exists_congr fun e => and_congr_right fun he => and_congr_right fun _ =>
      and_congr_right fun hprocedure => ?_
    rw [name_renamedDecl hv hvalue he (Or.inl hprocedure)]
  · -- only values are renamed, so procedures are as unique as before
    obtain ⟨d, hold, rfl⟩ := decl?_of_renameLocal hv hi
    obtain ⟨e, hold', rfl⟩ := decl?_of_renameLocal hv hj
    rw [name_renamedDecl hv hvalue hold (Or.inl hd), name_renamedDecl hv hvalue hold' (Or.inl he)]
      at hname
    exact hp.procedure_unique i j d e hold hold' htable hd he hname harity
  · obtain ⟨tab, htab, -, hsame⟩ := table?_of_renameLocal hv htab'
    exact hp.parent_lt s tab outer htab (hsame ▸ hparent)

theorem hasKind_renameLocal (hv : p.decl? target = some v) (kind : DeclKind) (id : DeclId) :
    (p.renameLocal procedure target new).hasKind kind id = p.hasKind kind id := by
  unfold hasKind
  rw [decl?_renameLocal hv]
  cases p.decl? id <;> rfl

/-- **The renamed class is a class.** -/
theorem WellFormed.renameLocal (hp : p.WellFormed) (hv : p.decl? target = some v)
    (hvalue : v.isValue = true) (hclass : v.table ≠ classTable) (hnew : new.IsIdentifier)
    (hlocal : ∀ id e, p.decl? id = some e → e.table = v.table → e.name ≠ new) :
    (p.renameLocal procedure target new).WellFormed := by
  refine
    { tidy := hp.tidy.renameLocal hv hvalue hlocal
      name := ?_
      decl_name := fun id e' he' => ?_
      root := fun tab htab => ?_
      member_kind := fun id e' he' htable => ?_
      local_kind := fun id e' he' htable => ?_
      procedure := fun id e' he' hk => ?_ }
  · rw [(renamesTo_renameLocal hv new).name]
    exact hp.name
  · obtain ⟨e, he, rfl⟩ := decl?_of_renameLocal hv he'
    dsimp only [renamedDecl]
    split
    · exact hnew
    · exact hp.decl_name id e he
  · rw [table?_renameLocal hv, if_neg hclass] at htab
    exact hp.root tab htab
  · obtain ⟨e, he, rfl⟩ := decl?_of_renameLocal hv he'
    exact hp.member_kind id e he htable
  · obtain ⟨e, he, rfl⟩ := decl?_of_renameLocal hv he'
    exact hp.local_kind id e he htable
  · obtain ⟨e, he, rfl⟩ := decl?_of_renameLocal hv he'
    obtain ⟨t, params, vars, ht⟩ := hp.procedure id e he hk
    obtain ⟨tab, htab, hparent⟩ := ht.parent
    have htab' : ∃ tab, (p.renameLocal procedure target new).table? t = some tab ∧
        tab.parent = some classTable := by
      rw [table?_renameLocal hv, htab]
      split
      · exact ⟨_, rfl, hparent⟩
      · exact ⟨_, rfl, hparent⟩
    exact ⟨t, params, vars, ht.locals_eq, ht.pos, htab',
      (membersOf_renameLocal hv new t).trans ht.members_eq, ht.params_eq,
      fun j hj => (hasKind_renameLocal hv _ j).trans (ht.params_kind j hj),
      fun j hj => (hasKind_renameLocal hv _ j).trans (ht.vars_kind j hj)⟩

/-- Programs with other names are compiled alike if their names are linked alike. -/
theorem RenamesTo.compilesLike {names : DeclId → Text → Text} {σ : DeclId → Relabelling}
    (h : RenamesTo names σ p q) (hplace : ∀ id place, (σ id).place place = place)
    (hmember : ∀ id ∈ p.members, ∀ x, names id x = x) (hids : p.procedures.Nodup)
    (hlinks : ∀ id ∈ p.procedures, ∃ d, p.decl? id = some d ∧
      d.body.LinksAlike (σ id) q p d.locals) : q.CompilesLike p := by
  obtain ⟨hresolved, herror⟩ := h.resolveProcedures hids hlinks
  have hunlinked := h.identifies hplace hmember
  have hlinked : Relabelling.unnamed.Identifies q.resolve.1 p.resolve.1 := by
    rw [resolve, resolve, h.procedures]
    refine hresolved.identifies hplace fun id hid => hmember id ?_
    rwa [members, (SameHeads.resolveProcedures p p.procedures).membersOf] at hid
  exact
    { checkReachability := by
        rw [← mapError_eq_ok Relabelling.unnamed.error, hunlinked.checkReachability, mapError_eq_ok]
      resolve := by
        rw [resolve, resolve, h.procedures]
        exact herror
      analyze := by
        rw [← mapError_eq_ok Relabelling.unnamed.error, hlinked.analyze, mapError_eq_ok]
      classFile := fun f => hlinked.classFile_eq_ok }

end

/-- **Names of local variables do not matter**: in a parsed class, let a parameter or local variable
of a procedure be renamed, with all names in the body of the procedure that read like it, to an
identifier that is no parameter or local variable of the procedure and is not used in its body.
Whatever constants, variables and procedures of the class have that name, the renamed class is a
class that passes the same stages of a compilation, and its class file is the same. -/
theorem unaffected_by_renaming {text : Text} (hparse : ofText text = .ok p)
    {procedure target : DeclId} {d : Declaration} (hd : p.decl? procedure = some d)
    (hk : d.kind = .procedure) (htarget : target ∈ p.localsOf d) {new : Text}
    (hnew : new.IsIdentifier) (hlocal : ∀ id ∈ p.localsOf d, p.nameOf id ≠ new)
    (hbody : ∀ link place, .name new link place ∉ d.body.nodes) :
    (p.renameLocal procedure target new).WellFormed ∧
      (p.renameLocal procedure target new).CompilesLike p := by
  obtain ⟨group, hbuilt⟩ := built_of_ofText hparse
  have hp := hbuilt.wellFormed.1
  obtain ⟨t, params, vars, ht⟩ := hp.procedure procedure d hd hk
  have hmember (id : DeclId) : id ∈ p.localsOf d ↔ ∃ e, p.decl? id = some e ∧ e.table = t := by
    rw [localsOf, ht.locals_eq]
    exact hp.tidy.mem_membersOf t id
  obtain ⟨v, hv, rfl⟩ := (hmember target).1 htarget
  have hclass : v.table ≠ classTable := Nat.ne_of_gt ht.pos
  have hvalue : v.isValue = true := by
    rcases hp.local_kind target v hv hclass with h | h <;> simp [Declaration.isValue, h]
  constructor
  · -- the new name is free in the table of the procedure
    refine hp.renameLocal hv hvalue hclass hnew fun id e he htable => ?_
    have hname := hlocal id ((hmember id).2 ⟨e, he, htable⟩)
    rwa [nameOf, he] at hname
  · refine (renamesTo_renameLocal hv new).compilesLike (fun id place => ?_) (fun id hid x => ?_)
      ((hp.tidy.nodup_membersOf classTable).filter _) fun id hid => ?_
    · split <;> rfl
    · -- a member of the class is no local variable
      obtain ⟨e, he, htable⟩ := hp.mem_members.1 hid
      refine if_neg fun heq => hclass ?_
      obtain rfl := Option.some.inj (hv.symm.trans (heq ▸ he))
      exact htable
    · -- names are linked alike in the body of the procedure and in those of all others
      obtain ⟨e, he, hek⟩ := hp.mem_procedures.1 hid
      refine ⟨e, he, ?_⟩
      by_cases heq : id = procedure
      · subst heq
        obtain rfl := Option.some.inj (hd.symm.trans he)
        rw [if_pos rfl]
        exact hp.linksAlike_self hv hvalue ht hbody
      · rw [if_neg heq]
        obtain ⟨s, params', vars', hs⟩ := hp.procedure id e he hek
        refine hp.linksAlike_other hv hs hclass fun htable => heq ?_
        exact hbuilt.locals_inj he hd hek hk (by rw [hs.locals_eq, ht.locals_eq, htable])

/-- A program with a constant and a procedure of one name, and a procedure that calls the one and
does not use the other. -/
def coveredSource : Text :=
  Text.ofString ("class K \x7b final int y = 3; int x; public int y(int n) \x7b return n + y; " ++
    "\x7d public int f(int x) \x7b int k; k = x; return y(k) - x; \x7d \x7d")

set_option maxRecDepth 20000 in
theorem coveredSource_parses : ∃ p d f, ofText coveredSource = .ok p ∧ p.decl? 4 = some d ∧
    d.kind = .procedure ∧ 5 ∈ p.localsOf d ∧
    (∀ id ∈ p.localsOf d, p.nameOf id ≠ Text.ofString "y") ∧
    (∀ link place, .name (Text.ofString "y") link place ∉ d.body.nodes) ∧
    p.resolve.1.classFile = .ok f := by
  have hcheck : ((ofText coveredSource).toOption.any fun p =>
      ((p.decl? 4).any fun d => d.kind == .procedure && (p.localsOf d).contains 5 &&
        ((p.localsOf d).all fun id => p.nameOf id != Text.ofString "y") &&
        d.body.nodes.all fun n => n.name? != some (Text.ofString "y")) &&
      p.resolve.1.classFile.isOk) = true := by
    rw [coveredSource, Text.ofString_append, Text.ofString_ofList, Text.ofString_ofList]
    cbv
  obtain ⟨p, hp, hcheck⟩ := exists_of_any hcheck
  simp only [Bool.and_eq_true, List.all_eq_true, Option.any_eq_true, List.contains_iff_mem,
    beq_iff_eq, bne_iff_ne] at hcheck
  obtain ⟨⟨d, hd, ⟨⟨hk, htarget⟩, hlocal⟩, hbody⟩, hfile⟩ := hcheck
  obtain ⟨f, hf⟩ := exists_of_isOk hfile
  exact ⟨p, d, f, hp, hd, hk, htarget, hlocal, fun _ _ hmem => hbody _ hmem rfl, hf⟩

/-- The parameter of the procedure takes the name of the constant and of the other procedure. -/
theorem unaffected_by_renaming_covered : ∃ p d f, ofText coveredSource = .ok p ∧
    p.decl? 4 = some d ∧ d.kind = .procedure ∧ 5 ∈ p.localsOf d ∧
    (p.renameLocal 4 5 (Text.ofString "y")).WellFormed ∧
    (p.renameLocal 4 5 (Text.ofString "y")).CompilesLike p ∧
    p.resolve.1.classFile = .ok f ∧
    (p.renameLocal 4 5 (Text.ofString "y")).resolve.1.classFile = .ok f := by
  obtain ⟨p, d, f, hp, hd, hk, htarget, hlocal, hbody, hf⟩ := coveredSource_parses
  have hnew : (Text.ofString "y").IsIdentifier :=
    ⟨⟨0x79, [], rfl, rfl, by simp⟩, by decide⟩
  obtain ⟨hwellFormed, hlike⟩ := unaffected_by_renaming hp hd hk htarget hnew hlocal hbody
  exact ⟨p, d, f, hp, hd, hk, htarget, hwellFormed, hlike, hf, (hlike.classFile f).2 hf⟩

end Program

end Classwright
