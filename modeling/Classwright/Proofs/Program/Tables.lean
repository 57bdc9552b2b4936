import Classwright.Program.Basic

/-!
# Symbol tables

What declaring, adding a table and changing a declaration do to a program, and the invariant
`Program.Tidy` that all three keep: a table lists exactly the declarations made in it, in rising
order, and its two indexes find the values by name and the procedures by name.  Values of one table
differ in their names, procedures of one table in name or number of parameters.
-/

namespace Classwright

namespace Program

variable {p q : Program} {t : TableId} {tab : SymbolTable} {d : Declaration} {id : DeclId}

/-! ### What the operations change -/

theorem declare_eq_ok (h : p.declare t d = .ok (q, id)) :
    p.conflict? t d = none ∧ id = p.decls.size ∧
      q = { p with
        decls := p.decls.push { d with table := t }
        tables := p.tables.modify t (·.insert p.decls.size d) } := by
  unfold declare at h
  split at h
  · exact absurd h (by simp)
  · rename_i hc
    simp only [Except.ok.injEq, Prod.mk.injEq] at h
    exact ⟨hc, h.2.symm, h.1.symm⟩

theorem decl?_declare (h : p.declare t d = .ok (q, id)) (j : DeclId) :
    q.decl? j = if j = id then some { d with table := t } else p.decl? j := by
  obtain ⟨-, rfl, rfl⟩ := declare_eq_ok h
  simp only [decl?, Array.getElem?_push]

theorem name_declare (h : p.declare t d = .ok (q, id)) : q.name = p.name := by
  obtain ⟨-, -, rfl⟩ := declare_eq_ok h
  rfl

theorem tables_size_declare (h : p.declare t d = .ok (q, id)) :
    q.tables.size = p.tables.size := by
  obtain ⟨-, -, rfl⟩ := declare_eq_ok h
  simp

theorem decl?_declare_new (h : p.declare t d = .ok (q, id)) : p.decl? id = none := by
  obtain ⟨-, rfl, -⟩ := declare_eq_ok h
  simp [decl?]

theorem table?_declare (h : p.declare t d = .ok (q, id)) (s : TableId) :
    q.table? s = if t = s then (p.table? s).map (·.insert id d) else p.table? s := by
  obtain ⟨-, rfl, rfl⟩ := declare_eq_ok h
  simp only [table?, Array.getElem?_modify]

theorem members_insert (tab : SymbolTable) (id : DeclId) (d : Declaration) :
    (tab.insert id d).members = tab.members.push id := by
  unfold SymbolTable.insert
  split <;> rfl

theorem parent_insert (tab : SymbolTable) (id : DeclId) (d : Declaration) :
    (tab.insert id d).parent = tab.parent := by
  unfold SymbolTable.insert
  split <;> rfl

theorem values_insert (tab : SymbolTable) (id : DeclId) (d : Declaration) :
    (tab.insert id d).values =
      if d.isValue && !tab.values.contains d.name then tab.values.insert d.name id
      else tab.values := by
  unfold SymbolTable.insert Declaration.isValue
  cases d.kind <;> cases tab.values.contains d.name <;> rfl

theorem procedures_insert (tab : SymbolTable) (id : DeclId) (d : Declaration) :
    (tab.insert id d).procedures =
      if d.isValue then tab.procedures
      else tab.procedures.insert d.name (tab.procedures.getD d.name [] ++ [id]) := by
  unfold SymbolTable.insert Declaration.isValue
  cases d.kind <;> rfl

theorem membersOf_eq (h : p.table? t = some tab) : p.membersOf t = tab.members.toList := by
  simp [membersOf, h]

theorem exists_table? (h : t < p.tables.size) : ∃ tab, p.table? t = some tab :=
  ⟨_, Array.getElem?_eq_getElem h⟩

theorem membersOf_declare (h : p.declare t d = .ok (q, id)) (ht : t < p.tables.size)
    (s : TableId) :
    q.membersOf s = if t = s then p.membersOf s ++ [id] else p.membersOf s := by
  by_cases hs : t = s
  · subst hs
    obtain ⟨tab, htab⟩ := exists_table? ht
    have hq : q.table? t = some (tab.insert id d) := by simp [table?_declare h, htab]
    simp [membersOf_eq htab, membersOf_eq hq, members_insert]
  · simp [membersOf, table?_declare h, hs]

/-- Behind a declaration there are the old ones and the new one. -/
theorem exists_decl?_declare (h : p.declare t d = .ok (q, id)) (s : TableId) (j : DeclId)
    (P : Declaration → Prop) :
    (∃ e, q.decl? j = some e ∧ e.table = s ∧ P e) ↔
      (∃ e, p.decl? j = some e ∧ e.table = s ∧ P e) ∨
        (j = id ∧ t = s ∧ P { d with table := t }) := by
  rw [decl?_declare h]
  by_cases hj : j = id
  · subst hj
    simp [decl?_declare_new h]
  · simp [hj]

@[simp] theorem decl?_update (p : Program) (id j : DeclId) (f : Declaration → Declaration) :
    (p.update id f).decl? j = if id = j then (p.decl? j).map f else p.decl? j := by
  simp only [update, decl?, Array.getElem?_modify]

@[simp] theorem table?_update (p : Program) (id : DeclId) (f : Declaration → Declaration)
    (s : TableId) : (p.update id f).table? s = p.table? s := rfl

@[simp] theorem membersOf_update (p : Program) (id : DeclId) (f : Declaration → Declaration)
    (s : TableId) : (p.update id f).membersOf s = p.membersOf s := rfl

@[simp] theorem tables_update (p : Program) (id : DeclId) (f : Declaration → Declaration) :
    (p.update id f).tables = p.tables := rfl

@[simp] theorem name_update (p : Program) (id : DeclId) (f : Declaration → Declaration) :
    (p.update id f).name = p.name := rfl

@[simp] theorem decl?_addTable (p : Program) (parent : Option TableId) (owner : Option DeclId)
    (j : DeclId) : (p.addTable parent owner).1.decl? j = p.decl? j := rfl

@[simp] theorem name_addTable (p : Program) (parent : Option TableId) (owner : Option DeclId) :
    (p.addTable parent owner).1.name = p.name := rfl

@[simp] theorem tables_size_addTable (p : Program) (parent : Option TableId)
    (owner : Option DeclId) : (p.addTable parent owner).1.tables.size = p.tables.size + 1 := by
  simp [addTable]

theorem table?_addTable (p : Program) (parent : Option TableId) (owner : Option DeclId)
    (s : TableId) :
    (p.addTable parent owner).1.table? s =
      if s = p.tables.size then some { parent, owner } else p.table? s := by
  simp only [addTable, table?, Array.getElem?_push]

theorem membersOf_eq_nil (h : p.tables.size ≤ t) : p.membersOf t = [] := by
  simp [membersOf, table?, h]

theorem membersOf_addTable (p : Program) (parent : Option TableId) (owner : Option DeclId)
    (s : TableId) : (p.addTable parent owner).1.membersOf s = p.membersOf s := by
  by_cases hs : s = p.tables.size
  · subst hs
    have hnew : (p.addTable parent owner).1.table? p.tables.size = some { parent, owner } := by
      simp [table?_addTable]
    rw [membersOf_eq hnew, membersOf_eq_nil (Nat.le_refl _)]
  · simp [membersOf, table?_addTable, hs]

/-! ### The invariant -/

/-- The tables of a program agree with its declarations. -/
structure Tidy (p : Program) : Prop where
  /-- There is a table of the class. -/
  tables_pos : 0 < p.tables.size
  /-- A table lists the declarations made in it. -/
  mem_membersOf : ∀ t id, id ∈ p.membersOf t ↔ ∃ d, p.decl? id = some d ∧ d.table = t
  /-- A table lists them in the order they were made in. -/
  sorted : ∀ t, (p.membersOf t).Pairwise (· < ·)
  /-- The index of values finds the values of the table, of which there is one for each name. -/
  values_iff : ∀ t tab, p.table? t = some tab → ∀ name id, tab.values[name]? = some id ↔
    ∃ d, p.decl? id = some d ∧ d.table = t ∧ d.isValue = true ∧ d.name = name
  /-- The index of procedures finds the procedures of the table. -/
  procedures_iff : ∀ t tab, p.table? t = some tab → ∀ name id,
    id ∈ tab.procedures.getD name [] ↔
      ∃ d, p.decl? id = some d ∧ d.table = t ∧ d.isValue = false ∧ d.name = name
  /-- Procedures of one table differ in name or number of parameters. -/
  procedure_unique : ∀ i j d e, p.decl? i = some d → p.decl? j = some e → d.table = e.table →
    d.isValue = false → e.isValue = false → d.name = e.name → d.arity = e.arity → i = j
  /-- The table around a table is older. -/
  parent_lt : ∀ t tab outer, p.table? t = some tab → tab.parent = some outer → outer < t

theorem table?_empty {name : Text} {place : Position}
    (h : (Program.empty name place).table? t = some tab) : tab = {} := by
  rcases Nat.eq_zero_or_pos t with rfl | ht
  · simpa [Program.empty, table?] using h.symm
  · have hsize : (Program.empty name place).tables.size ≤ t := ht
    rw [table?, Array.getElem?_eq_none hsize] at h
    exact absurd h (by simp)

theorem membersOf_empty (name : Text) (place : Position) (t : TableId) :
    (Program.empty name place).membersOf t = [] := by
  unfold membersOf
  split
  · rename_i tab htab
    simp [table?_empty htab]
  · rfl

namespace Tidy

theorem empty (name : Text) (place : Position) : (Program.empty name place).Tidy where
  tables_pos := by simp [Program.empty]
  mem_membersOf t id := by
    rw [membersOf_empty]
    simp [Program.empty, decl?]
  sorted t := by
    rw [membersOf_empty]
    exact List.Pairwise.nil
  values_iff t tab h name id := by
    rw [table?_empty h]
    simp [Program.empty, decl?]
  procedures_iff t tab h name id := by
    rw [table?_empty h]
    simp [Program.empty, decl?]
  procedure_unique i j d e hi := by simp [Program.empty, decl?] at hi
  parent_lt t tab outer h hp := by
    rw [table?_empty h] at hp
    exact absurd hp (by simp)

/-- No declaration of a table has what a new one without conflict is found by. -/
theorem index_of_conflict?_eq_none (hp : p.Tidy) (ht : p.table? t = some tab)
    (h : p.conflict? t d = none) :
    (d.isValue = true → tab.values[d.name]? = none) ∧
      (d.isValue = false → p.procedureIn? tab d.name d.arity = none) := by
  unfold conflict? at h
  rw [ht] at h
  constructor
  · intro hv
    rw [Option.eq_none_iff_forall_not_mem]
    intro id hid
    obtain ⟨e, he, -⟩ := (hp.values_iff t tab ht _ _).1 hid
    simp [hv, valueIn?, Option.mem_def.1 hid, he] at h
  · intro hv
    rw [Option.eq_none_iff_forall_not_mem]
    intro id hid
    have hmem := List.mem_of_find?_eq_some (Option.mem_def.1 hid)
    obtain ⟨e, he, -⟩ := (hp.procedures_iff t tab ht _ _).1 hmem
    simp [hv, Option.mem_def.1 hid, he] at h

/-- A declaration with the name and the number of parameters of a procedure of its table is in
conflict with it. -/
theorem arity_ne_of_conflict?_eq_none (hp : p.Tidy) (ht : p.table? t = some tab)
    (h : p.conflict? t d = none) (hd : d.isValue = false) {j : DeclId} {e : Declaration}
    (he : p.decl? j = some e) (het : e.table = t) (hev : e.isValue = false)
    (hname : e.name = d.name) : e.arity ≠ d.arity := by
  intro harity
  have hmem := (hp.procedures_iff t tab ht d.name j).2 ⟨e, he, het, hev, hname⟩
  have hnone := (hp.index_of_conflict?_eq_none ht h).2 hd
  have := List.find?_eq_none.1 hnone j hmem
  simp [he, harity] at this

theorem declare_values_iff (hp : p.Tidy) (h : p.declare t d = .ok (q, id)) (s : TableId)
    (tab : SymbolTable) (hs : q.table? s = some tab) (name : Text) (j : DeclId) :
    tab.values[name]? = some j ↔
      ∃ e, q.decl? j = some e ∧ e.table = s ∧ e.isValue = true ∧ e.name = name := by
  rw [exists_decl?_declare h s j fun e => e.isValue = true ∧ e.name = name]
  rw [table?_declare h] at hs
  split at hs
  · rename_i hts
    subst hts
    obtain ⟨old, hold, rfl⟩ := Option.map_eq_some_iff.1 hs
    rw [← hp.values_iff t old hold name j, values_insert]
    have hfree := (hp.index_of_conflict?_eq_none hold (declare_eq_ok h).1).1
    have hkind : ({ d with table := t } : Declaration).isValue = d.isValue := rfl
    cases hv : d.isValue with
    | false => simp [hkind, hv]
    | true =>
      have hnew : old.values.contains d.name = false := by simpa using hfree hv
      simp only [hnew, Bool.not_false, Bool.and_self, if_true, Std.HashMap.getElem?_insert]
      by_cases hn : d.name = name
      · subst hn
        simp [hfree hv, hkind, hv, eq_comm]
      · simp [hn]
  · rename_i hts
    rw [← hp.values_iff s tab hs name j]
    simp [hts]

theorem declare_procedures_iff (hp : p.Tidy) (h : p.declare t d = .ok (q, id)) (s : TableId)
    (tab : SymbolTable) (hs : q.table? s = some tab) (name : Text) (j : DeclId) :
    j ∈ tab.procedures.getD name [] ↔
      ∃ e, q.decl? j = some e ∧ e.table = s ∧ e.isValue = false ∧ e.name = name := by
  rw [exists_decl?_declare h s j fun e => e.isValue = false ∧ e.name = name]
  rw [table?_declare h] at hs
  split at hs
  · rename_i hts
    subst hts
    obtain ⟨old, hold, rfl⟩ := Option.map_eq_some_iff.1 hs
    rw [← hp.procedures_iff t old hold name j, procedures_insert]
    have hkind : ({ d with table := t } : Declaration).isValue = d.isValue := rfl
    cases hv : d.isValue with
    | true => simp [hkind, hv]
    | false =>
      simp only [Bool.false_eq_true, if_false, Std.HashMap.getD_insert]
      by_cases hn : d.name = name
      · subst hn
        simp [hkind, hv]
      · simp [hn]
  · rename_i hts
    rw [← hp.procedures_iff s tab hs name j]
    simp [hts]

/-- Declaring keeps the tables tidy. -/
theorem declare (hp : p.Tidy) (ht : t < p.tables.size) (h : p.declare t d = .ok (q, id)) :
    q.Tidy where
  tables_pos := by
    rw [tables_size_declare h]
    exact hp.tables_pos
  mem_membersOf s j := by
    have hiff := exists_decl?_declare h s j fun _ => True
    simp only [and_true] at hiff
    rw [membersOf_declare h ht, hiff, ← hp.mem_membersOf s j]
    split
    · rename_i hts
      simp [hts]
    · rename_i hts
      simp [hts]
  sorted s := by
    rw [membersOf_declare h ht]
    split
    · rw [List.pairwise_append]
      refine ⟨hp.sorted s, List.pairwise_singleton _ _, ?_⟩
      intro j hj k hk
      -- the new number is above all others
      obtain ⟨e, he, -⟩ := (hp.mem_membersOf s j).1 hj
      rw [List.mem_singleton.1 hk, (declare_eq_ok h).2.1]
      exact (Array.getElem?_eq_some_iff.1 he).1
    · exact hp.sorted s
  values_iff := hp.declare_values_iff h
  procedures_iff := hp.declare_procedures_iff h
  procedure_unique i j e f hi hj htable hev hfv hname harity := by
    obtain ⟨tab, htab⟩ := exists_table? ht
    have hfresh := @arity_ne_of_conflict?_eq_none _ _ _ _ hp htab (declare_eq_ok h).1
    -- two old procedures differ, and an old one differs from the new one
    rw [decl?_declare h] at hi hj
    split at hi <;> split at hj
    · simp_all
    · simp only [Option.some.injEq] at hi
      subst hi
      exact absurd harity.symm (hfresh hev hj htable.symm hfv hname.symm)
    · simp only [Option.some.injEq] at hj
      subst hj
      exact absurd harity (hfresh hfv hi htable hev hname)
    · exact hp.procedure_unique i j e f hi hj htable hev hfv hname harity
  parent_lt s tab outer hs hpar := by
    rw [table?_declare h] at hs
    split at hs
    · obtain ⟨old, hold, rfl⟩ := Option.map_eq_some_iff.1 hs
      exact hp.parent_lt s old outer hold (by rw [← hpar, parent_insert])
    · exact hp.parent_lt s tab outer hs hpar

/-- Adding a table, inside an older one or in none, keeps the tables tidy. -/
theorem addTable (hp : p.Tidy) {parent : Option TableId}
    (h : ∀ outer ∈ parent, outer < p.tables.size) (owner : Option DeclId) :
    (p.addTable parent owner).1.Tidy where
  tables_pos := by simp
  mem_membersOf s j := by
    rw [membersOf_addTable]
    exact hp.mem_membersOf s j
  sorted s := by
    rw [membersOf_addTable]
    exact hp.sorted s
  values_iff s tab hs name j := by
    rw [table?_addTable] at hs
    split at hs
    · rename_i hsize
      obtain rfl := Option.some.inj hs
      -- the new table is empty, and no declaration names it
      have hnone : ¬ j ∈ p.membersOf s := by
        rw [membersOf_eq_nil (Nat.le_of_eq hsize.symm)]
        simp
      rw [hp.mem_membersOf] at hnone
      simp only [Std.HashMap.getElem?_empty, decl?_addTable]
      simp only [not_exists, not_and] at hnone
      simp only [reduceCtorEq, false_iff, not_exists, not_and]
      intro e he het
      exact absurd het (hnone e he)
    · exact hp.values_iff s tab hs name j
  procedures_iff s tab hs name j := by
    rw [table?_addTable] at hs
    split at hs
    · rename_i hsize
      obtain rfl := Option.some.inj hs
      have hnone : ¬ j ∈ p.membersOf s := by
        rw [membersOf_eq_nil (Nat.le_of_eq hsize.symm)]
        simp
      rw [hp.mem_membersOf] at hnone
      simp only [not_exists, not_and] at hnone
      simp only [Std.HashMap.getD_empty, List.not_mem_nil, decl?_addTable, false_iff, not_exists,
        not_and]
      intro e he het
      exact absurd het (hnone e he)
    · exact hp.procedures_iff s tab hs name j
  procedure_unique := hp.procedure_unique
  parent_lt s tab outer hs hpar := by
    rw [table?_addTable] at hs
    split at hs
    · rename_i hsize
      obtain rfl := Option.some.inj hs
      rw [hsize]
      exact h outer hpar
    · exact hp.parent_lt s tab outer hs hpar

/-- So does adding a table inside that of the class. -/
theorem addTable_inClass (hp : p.Tidy) (owner : Option DeclId) :
    (p.addTable (some classTable) owner).1.Tidy :=
  hp.addTable (fun _ houter => Option.some.inj houter ▸ hp.tables_pos) owner

end Tidy

/-- The declaration `e` is found by the same things as `d`. -/
structure SameKey (e d : Declaration) : Prop where
  /-- They are of one kind. -/
  kind : e.kind = d.kind
  /-- They have one name. -/
  name : e.name = d.name
  /-- They have as many parameters. -/
  arity : e.arity = d.arity
  /-- They are in one table. -/
  table : e.table = d.table

theorem SameKey.isValue {e : Declaration} (h : SameKey e d) : e.isValue = d.isValue := by
  simp [Declaration.isValue, h.kind]

/-- Behind a change that keeps the key of a declaration there are declarations with the old
keys. -/
theorem decl?_of_update {f : Declaration → Declaration}
    (hf : ∀ d, p.decl? id = some d → SameKey (f d) d) {j : DeclId} {e : Declaration}
    (h : (p.update id f).decl? j = some e) : ∃ e', p.decl? j = some e' ∧ SameKey e e' := by
  rw [decl?_update] at h
  split at h
  · rename_i hj
    subst hj
    obtain ⟨e', he', rfl⟩ := Option.map_eq_some_iff.1 h
    exact ⟨e', he', hf e' he'⟩
  · exact ⟨e, h, ⟨rfl, rfl, rfl, rfl⟩⟩

theorem update_of_decl? {f : Declaration → Declaration}
    (hf : ∀ d, p.decl? id = some d → SameKey (f d) d) {j : DeclId} {e : Declaration}
    (h : p.decl? j = some e) : ∃ e', (p.update id f).decl? j = some e' ∧ SameKey e' e := by
  rw [decl?_update]
  split
  · rename_i hj
    subst hj
    exact ⟨f e, by rw [h, Option.map_some], hf e h⟩
  · exact ⟨e, h, ⟨rfl, rfl, rfl, rfl⟩⟩

/-- A property of keys holds of a declaration before such a change if it does behind it. -/
theorem exists_decl?_update {f : Declaration → Declaration}
    (hf : ∀ d, p.decl? id = some d → SameKey (f d) d) (j : DeclId) {P : Declaration → Prop}
    (hP : ∀ d e, SameKey e d → (P e ↔ P d)) :
    (∃ e, (p.update id f).decl? j = some e ∧ P e) ↔ ∃ e, p.decl? j = some e ∧ P e := by
  constructor
  · rintro ⟨e, he, h⟩
    obtain ⟨e', he', hkey⟩ := decl?_of_update hf he
    exact ⟨e', he', (hP _ _ hkey).1 h⟩
  · rintro ⟨e, he, h⟩
    obtain ⟨e', he', hkey⟩ := update_of_decl? hf he
    exact ⟨e', he', (hP _ _ hkey).2 h⟩

namespace Tidy

/-- A change that keeps the key of a declaration keeps the tables tidy. -/
theorem update (hp : p.Tidy) {f : Declaration → Declaration}
    (hf : ∀ d, p.decl? id = some d → SameKey (f d) d) : (p.update id f).Tidy where
  tables_pos := hp.tables_pos
  mem_membersOf s j := by
    rw [membersOf_update, hp.mem_membersOf]
    exact (exists_decl?_update hf j fun d e h => by rw [h.table]).symm
  sorted := hp.sorted
  values_iff s tab hs name j := by
    rw [hp.values_iff s tab hs]
    exact (exists_decl?_update hf j fun d e h => by rw [h.table, h.isValue, h.name]).symm
  procedures_iff s tab hs name j := by
    rw [hp.procedures_iff s tab hs]
    exact (exists_decl?_update hf j fun d e h => by rw [h.table, h.isValue, h.name]).symm
  procedure_unique i j d e hi hj htable hd he hname harity := by
    obtain ⟨d', hi', hkey⟩ := decl?_of_update hf hi
    obtain ⟨e', hj', hkey'⟩ := decl?_of_update hf hj
    exact hp.procedure_unique i j d' e' hi' hj' (by rw [← hkey.table, htable, hkey'.table])
      (hkey.isValue ▸ hd) (hkey'.isValue ▸ he) (by rw [← hkey.name, hname, hkey'.name])
      (by rw [← hkey.arity, harity, hkey'.arity])
  parent_lt := hp.parent_lt

theorem nodup_membersOf (hp : p.Tidy) (t : TableId) : (p.membersOf t).Nodup :=
  (hp.sorted t).imp fun h => Nat.ne_of_lt h

theorem table_lt (hp : p.Tidy) (h : p.decl? id = some d) : d.table < p.tables.size := by
  have hmem := (hp.mem_membersOf d.table id).2 ⟨d, h, rfl⟩
  rcases Nat.lt_or_ge d.table p.tables.size with hlt | hge
  · exact hlt
  · rw [membersOf_eq_nil hge] at hmem
    exact absurd hmem (by simp)

/-- Values of one table have different names. -/
theorem value_unique (hp : p.Tidy) {i j : DeclId} {d e : Declaration} (hi : p.decl? i = some d)
    (hj : p.decl? j = some e) (htable : d.table = e.table) (hd : d.isValue = true)
    (he : e.isValue = true) (hname : d.name = e.name) : i = j := by
  obtain ⟨tab, htab⟩ := exists_table? (hp.table_lt hi)
  have h1 := (hp.values_iff _ tab htab d.name i).2 ⟨d, hi, rfl, hd, rfl⟩
  have h2 := (hp.values_iff _ tab htab d.name j).2 ⟨e, hj, htable.symm, he, hname.symm⟩
  exact Option.some.inj (h1.symm.trans h2)

end Tidy

/-! ### Looking up names -/

/-- A search finds the same if each table has the same answer and stands in the same table. -/
theorem searchFrom_congr {find find' : SymbolTable → Option DeclId}
    (h : ∀ s, (q.table? s).map (fun tab => (tab.parent, find' tab)) =
      (p.table? s).map fun tab => (tab.parent, find tab)) (t : TableId) :
    q.searchFrom find' t = p.searchFrom find t := by
  induction t using Nat.strongRecOn with
  | ind t ih =>
    have ht := h t
    rw [searchFrom, searchFrom]
    cases hp : p.table? t with
    | none =>
      rw [hp, Option.map_none, Option.map_eq_none_iff] at ht
      rw [ht]
    | some tab =>
      rw [hp, Option.map_some, Option.map_eq_some_iff] at ht
      obtain ⟨tab', hq, heq⟩ := ht
      simp only [Prod.mk.injEq] at heq
      simp only [hq, heq.1, heq.2]
      cases find tab with
      | some id => rfl
      | none =>
        cases tab.parent with
        | none => rfl
        | some outer =>
          by_cases hlt : outer < t
          · simp only [if_pos hlt, ih outer hlt]
          · simp only [if_neg hlt]

/-- Procedures are found by their names and by how many parameters they have. -/
theorem procedureIn?_congr
    (h : ∀ j, (q.decl? j).map Declaration.arity = (p.decl? j).map Declaration.arity)
    (tab : SymbolTable) (callee : Text) (arity : Nat) :
    q.procedureIn? tab callee arity = p.procedureIn? tab callee arity := by
  unfold procedureIn?
  congr 1
  funext j
  have hj := h j
  cases hp : p.decl? j with
  | none =>
    rw [hp, Option.map_none, Option.map_eq_none_iff] at hj
    rw [hj]
  | some d =>
    rw [hp, Option.map_some, Option.map_eq_some_iff] at hj
    obtain ⟨d', hq, harity⟩ := hj
    simp only [hq, harity]

/-- A search from a table inside the table of the class asks the one and then the other. -/
theorem searchFrom_inner (find : SymbolTable → Option DeclId) (ht : p.table? t = some tab)
    (hpar : tab.parent = some classTable) (hpos : classTable < t) {outer : SymbolTable}
    (hout : p.table? classTable = some outer) (hroot : outer.parent = none) :
    p.searchFrom find t = (find tab).or (find outer) := by
  have hclass : p.searchFrom find classTable = find outer := by
    rw [searchFrom, hout]
    cases h : find outer <;> simp [h, hroot]
  rw [searchFrom, ht]
  cases h : find tab with
  | some id => simp [h]
  | none => simp [h, hpar, hpos, hclass]

theorem Tidy.procedureIn?_eq_some (hp : p.Tidy) (ht : p.table? t = some tab) {name : Text}
    {arity : Nat} (h : p.procedureIn? tab name arity = some id) :
    ∃ d, p.decl? id = some d ∧ d.table = t ∧ d.isValue = false ∧ d.name = name ∧
      d.arity = arity := by
  obtain ⟨d, hd, htable, hval, hname⟩ :=
    (hp.procedures_iff t tab ht name id).1 (List.mem_of_find?_eq_some h)
  have harity := List.find?_some h
  simp only [hd, beq_iff_eq] at harity
  exact ⟨d, hd, htable, hval, hname, harity⟩

end Program

end Classwright
