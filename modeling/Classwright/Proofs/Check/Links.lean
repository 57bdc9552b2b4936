import Classwright.Check.Resolution
import Classwright.Proofs.Program.WellFormed

/-!
# What resolution links

Once names are resolved, every name of a procedure stands for a parameter or variable of that
procedure or for a constant or variable of the class, and every call stands for a procedure of the
class that takes as many arguments (`Node.LinkedExpression`, `Node.LinkedStatement`).  Nothing but
the bodies of procedures changes (`Program.SameHeads`).
-/

namespace Classwright

namespace Node

/-- The trees of expressions in a procedure with the table `t` whose names are linked. -/
inductive LinkedExpression (p : Program) (t : TableId) : Node → Prop
  | literal {v : Int32} {place : Position} : LinkedExpression p t (.literal v place)
  | name {x : Text} {id : DeclId} {d : Declaration} {place : Position} (hd : p.decl? id = some d)
      (hv : d.isValue = true) (ht : d.table = t ∨ d.table = Program.classTable) :
      LinkedExpression p t (.name x (some id) place)
  | call {callee : Text} {arguments : List Node} {id : DeclId} {d : Declaration}
      {place : Position} (hd : p.decl? id = some d) (hk : d.kind = .procedure)
      (hn : d.arity = arguments.length) (ha : ∀ a ∈ arguments, LinkedExpression p t a) :
      LinkedExpression p t (.call callee arguments (some id) place)
  | binary {op : Operator} {left right : Node} {place : Position} (h : op ≠ .assign)
      (hl : LinkedExpression p t left) (hr : LinkedExpression p t right) :
      LinkedExpression p t (.binary op left right place)

/-- The trees of statements in such a procedure. -/
inductive LinkedStatement (p : Program) (t : TableId) : Node → Prop
  | assign {x : Text} {id : DeclId} {d : Declaration} {value : Node} {spot place : Position}
      (hd : p.decl? id = some d) (hv : d.isValue = true)
      (ht : d.table = t ∨ d.table = Program.classTable) (h : LinkedExpression p t value) :
      LinkedStatement p t (.binary .assign (.name x (some id) spot) value place)
  | call {callee : Text} {arguments : List Node} {link : Option DeclId} {place : Position}
      (h : LinkedExpression p t (.call callee arguments link place)) :
      LinkedStatement p t (.call callee arguments link place)
  | leave {place : Position} : LinkedStatement p t (.exit .absent place)
  | answer {value : Node} {place : Position} (h : LinkedExpression p t value) :
      LinkedStatement p t (.exit value place)
  | branch {condition : Node} {thens elses : List Node} {thenPlace elsePlace place : Position}
      (h : LinkedExpression p t condition) (ht : ∀ s ∈ thens, LinkedStatement p t s)
      (he : ∀ s ∈ elses, LinkedStatement p t s) :
      LinkedStatement p t (.branch condition (.block thens thenPlace) (.block elses elsePlace) place)
  | loop {condition : Node} {body : List Node} {bodyPlace place : Position}
      (h : LinkedExpression p t condition) (hb : ∀ s ∈ body, LinkedStatement p t s) :
      LinkedStatement p t (.loop condition (.block body bodyPlace) place)

/-- The trees of blocks in such a procedure. -/
inductive LinkedBlock (p : Program) (t : TableId) : Node → Prop
  | intro {statements : List Node} {place : Position}
      (h : ∀ s ∈ statements, LinkedStatement p t s) : LinkedBlock p t (.block statements place)

theorem LinkedBlock.eq_block {p : Program} {t : TableId} {b : Node} (h : b.LinkedBlock p t) :
    ∃ statements place, b = .block statements place ∧
      ∀ s ∈ statements, s.LinkedStatement p t := by
  cases h with
  | intro hs => exact ⟨_, _, rfl, hs⟩

end Node

namespace Program

variable {p q : Program}

/-! ### Looking up names in a procedure -/

theorem WellFormed.exists_classTable (hp : p.WellFormed) :
    ∃ tab, p.table? classTable = some tab ∧ tab.parent = none := by
  obtain ⟨tab, htab⟩ := exists_table? (p := p) (t := classTable) hp.tidy.tables_pos
  exact ⟨tab, htab, hp.root tab htab⟩

/-- A name stands for a value of the procedure or of the class. -/
theorem WellFormed.lookupValue_eq_some (hp : p.WellFormed) {d : Declaration} {t : TableId}
    {params vars : List DeclId} (ht : p.ProcedureTable d t params vars) {name : Text} {id : DeclId}
    (h : p.lookupValue (some t) name = some id) :
    ∃ e, p.decl? id = some e ∧ e.isValue = true ∧ (e.table = t ∨ e.table = classTable) ∧
      e.name = name := by
  obtain ⟨tab, htab, hpar⟩ := ht.parent
  obtain ⟨outer, hout, hroot⟩ := hp.exists_classTable
  rw [lookupValue, Option.bind_some, searchFrom_inner _ htab hpar ht.pos hout hroot,
    Option.or_eq_some_iff] at h
  rcases h with h | ⟨-, h⟩
  · obtain ⟨e, he, htable, hv, hname⟩ := (hp.tidy.values_iff t tab htab name id).1 h
    exact ⟨e, he, hv, Or.inl htable, hname⟩
  · obtain ⟨e, he, htable, hv, hname⟩ := (hp.tidy.values_iff classTable outer hout name id).1 h
    exact ⟨e, he, hv, Or.inr htable, hname⟩

/-- A call stands for a procedure with as many parameters. -/
theorem WellFormed.lookupProcedure_eq_some (hp : p.WellFormed) {d : Declaration} {t : TableId}
    {params vars : List DeclId} (ht : p.ProcedureTable d t params vars) {name : Text} {arity : Nat}
    {id : DeclId} (h : p.lookupProcedure (some t) name arity = some id) :
    ∃ e, p.decl? id = some e ∧ e.kind = .procedure ∧ e.arity = arity ∧ e.name = name := by
  obtain ⟨tab, htab, hpar⟩ := ht.parent
  obtain ⟨outer, hout, hroot⟩ := hp.exists_classTable
  have hkind {e : Declaration} (hv : e.isValue = false) : e.kind = .procedure := by
    simpa [Declaration.isValue] using hv
  rw [lookupProcedure, Option.bind_some, searchFrom_inner _ htab hpar ht.pos hout hroot,
    Option.or_eq_some_iff] at h
  rcases h with h | ⟨-, h⟩
  · obtain ⟨e, he, -, hv, hname, harity⟩ := hp.tidy.procedureIn?_eq_some htab h
    exact ⟨e, he, hkind hv, harity, hname⟩
  · obtain ⟨e, he, -, hv, hname, harity⟩ := hp.tidy.procedureIn?_eq_some hout h
    exact ⟨e, he, hkind hv, harity, hname⟩

/-! ### Programs that differ in bodies only -/

/-- `q` is `p` with other bodies. -/
structure SameHeads (p q : Program) : Prop where
  /-- The class keeps its name. -/
  name_eq : q.name = p.name
  /-- The tables stay. -/
  tables_eq : q.tables = p.tables
  /-- Declarations change in their bodies only. -/
  decl?_eq : ∀ j, (q.decl? j).map (fun d => { d with body := .absent }) =
    (p.decl? j).map fun d => { d with body := .absent }

namespace SameHeads

theorem refl (p : Program) : p.SameHeads p := ⟨rfl, rfl, fun _ => rfl⟩

theorem trans {r : Program} (h : p.SameHeads q) (h' : q.SameHeads r) : p.SameHeads r :=
  ⟨h'.name_eq.trans h.name_eq, h'.tables_eq.trans h.tables_eq,
    fun j => (h'.decl?_eq j).trans (h.decl?_eq j)⟩

theorem update_body (p : Program) (id : DeclId) (g : Declaration → Node) :
    p.SameHeads (p.update id fun d => { d with body := g d }) := by
  refine ⟨rfl, rfl, fun j => ?_⟩
  rw [decl?_update]
  split
  · rw [Option.map_map]
    rfl
  · rfl

theorem decl? (h : p.SameHeads q) {j : DeclId} {d : Declaration} (hd : p.decl? j = some d) :
    ∃ body, q.decl? j = some { d with body } := by
  have heq := h.decl?_eq j
  rw [hd, Option.map_some, Option.map_eq_some_iff] at heq
  obtain ⟨e, he, heq⟩ := heq
  refine ⟨e.body, ?_⟩
  rw [he]
  cases e
  cases d
  simpa using heq

theorem membersOf (h : p.SameHeads q) (t : TableId) : q.membersOf t = p.membersOf t := by
  rw [Program.membersOf, Program.membersOf, table?, h.tables_eq, ← table?]

/-- Linking changes nothing but bodies, whether or not all names are found. -/
theorem resolveProcedures (p : Program) (ids : List DeclId) :
    p.SameHeads (p.resolveProcedures ids).1 := by
  induction ids generalizing p with
  | nil => exact refl p
  | cons id rest ih =>
    have hstep : p.SameHeads (p.resolveProcedure id).1 := by
      unfold Program.resolveProcedure
      cases p.decl? id with
      | none => exact refl p
      | some d => exact update_body p id fun _ => (d.body.resolve p d.locals).1
    rw [Program.resolveProcedures]
    generalize p.resolveProcedure id = step at hstep ⊢
    obtain ⟨p₁, _ | e⟩ := step
    · exact hstep.trans (ih p₁)
    · exact hstep

theorem lookupValue (h : p.SameHeads q) (table : Option TableId) (x : Text) :
    q.lookupValue table x = p.lookupValue table x := by
  cases table with
  | none => rfl
  | some t => exact searchFrom_congr (fun s => by rw [table?, h.tables_eq, ← table?]) t

theorem lookupProcedure (h : p.SameHeads q) (table : Option TableId) (callee : Text)
    (arity : Nat) : q.lookupProcedure table callee arity = p.lookupProcedure table callee arity := by
  have harity (j : DeclId) :
      (q.decl? j).map Declaration.arity = (p.decl? j).map Declaration.arity := by
    have hdecl := congrArg (Option.map Declaration.arity) (h.decl?_eq j)
    rwa [Option.map_map, Option.map_map] at hdecl
  cases table with
  | none => rfl
  | some t =>
    refine searchFrom_congr (fun s => ?_) t
    rw [table?, h.tables_eq, ← table?]
    simp only [procedureIn?_congr harity]

theorem linkedExpression (h : p.SameHeads q) {t : TableId} {e : Node}
    (he : e.LinkedExpression p t) : e.LinkedExpression q t := by
  induction he with
  | literal => exact .literal
  | name hd hv ht =>
    obtain ⟨body, hq⟩ := h.decl? hd
    exact .name hq hv ht
  | call hd hk hn _ ih =>
    obtain ⟨body, hq⟩ := h.decl? hd
    exact .call hq hk hn ih
  | binary hop _ _ ihl ihr => exact .binary hop ihl ihr

theorem linkedStatement (h : p.SameHeads q) {t : TableId} {s : Node}
    (hs : s.LinkedStatement p t) : s.LinkedStatement q t := by
  induction hs with
  | assign hd hv ht hvalue =>
    obtain ⟨body, hq⟩ := h.decl? hd
    exact .assign hq hv ht (h.linkedExpression hvalue)
  | call hc => exact .call (h.linkedExpression hc)
  | leave => exact .leave
  | answer hv => exact .answer (h.linkedExpression hv)
  | branch hc _ _ iht ihe => exact .branch (h.linkedExpression hc) iht ihe
  | loop hc _ ihb => exact .loop (h.linkedExpression hc) ihb

theorem linkedBlock (h : p.SameHeads q) {t : TableId} {b : Node} (hb : b.LinkedBlock p t) :
    b.LinkedBlock q t := by
  cases hb with
  | intro hs => exact .intro fun s hmem => h.linkedStatement (hs s hmem)

end SameHeads

end Program

/-! ### Resolution -/

namespace Node

variable {p : Program} {t : TableId}

theorem forall₂_resolveAll {table : Option TableId} {xs : List Node}
    (h : (resolveAll p table xs).2 = none) :
    List.Forall₂ (fun x y => x.resolve p table = (y, none)) xs (resolveAll p table xs).1 := by
  induction xs with
  | nil => exact .nil
  | cons x xs ih =>
    rw [resolveAll] at h ⊢
    split at h
    · simp at h
    · rename_i y hy
      exact .cons hy (ih h)

theorem forall_linked {Q : Node → Prop} {table : Option TableId} {xs ys : List Node}
    (h : List.Forall₂ (fun x y => x.resolve p table = (y, none)) xs ys)
    (hx : ∀ x ∈ xs, ∀ y, x.resolve p table = (y, none) → Q y) : ∀ y ∈ ys, Q y := by
  induction h with
  | nil => simp
  | cons hxy _ ih =>
    rw [List.forall_mem_cons] at hx
    exact List.forall_mem_cons.2 ⟨hx.1 _ hxy, ih hx.2⟩

variable {d : Declaration} {params vars : List DeclId}

/-- Resolving an expression without an error links it. -/
theorem IsExpression.resolve (hp : p.WellFormed) (ht : p.ProcedureTable d t params vars) {e : Node}
    (he : e.IsExpression) {e' : Node} (h : e.resolve p (some t) = (e', none)) :
    e'.LinkedExpression p t := by
  induction he generalizing e' with
  | literal _ =>
    simp only [Node.resolve, Prod.mk.injEq, and_true] at h
    exact h ▸ .literal
  | name _ =>
    rw [Node.resolve] at h
    split at h
    · rename_i id hid
      simp only [Prod.mk.injEq, and_true] at h
      obtain ⟨e, he, hv, htable, -⟩ := hp.lookupValue_eq_some ht hid
      exact h ▸ .name he hv htable
    · simp at h
  | call _ _ ih =>
    rw [Node.resolve] at h
    split at h
    · simp at h
    · rename_i arguments' hargs
      have hall := forall₂_resolveAll (p := p) (by rw [hargs])
      rw [hargs] at hall
      split at h
      · rename_i id hid
        simp only [Prod.mk.injEq, and_true] at h
        obtain ⟨e, he, hk, harity, -⟩ := hp.lookupProcedure_eq_some ht hid
        exact h ▸ .call he hk harity (forall_linked hall fun x hx y hy => ih x hx hy)
      · simp at h
  | binary hop _ _ ihl ihr =>
    rw [Node.resolve] at h
    split at h
    · simp at h
    · rename_i left' hleft
      simp only [Prod.mk.injEq] at h
      obtain ⟨rfl, h⟩ := h
      exact .binary hop (ihl hleft) (ihr (by rw [← h]))

/-- Resolving a statement without an error links it. -/
theorem IsStatement.resolve (hp : p.WellFormed) (ht : p.ProcedureTable d t params vars) {s : Node}
    (hs : s.IsStatement) {s' : Node} (h : s.resolve p (some t) = (s', none)) :
    s'.LinkedStatement p t := by
  induction hs generalizing s' with
  | assign _ hv =>
    rw [Node.resolve, Node.resolve] at h
    split at h
    · simp at h
    -- the name on the left is that of a value in reach
    · rename_i left' hleft
      split at hleft
      · rename_i id hid
        simp only [Prod.mk.injEq, and_true] at h hleft
        obtain ⟨rfl, h⟩ := h
        obtain ⟨e, he, hval, htable, -⟩ := hp.lookupValue_eq_some ht hid
        exact hleft ▸ .assign he hval htable (hv.resolve hp ht (by rw [← h]))
      · simp at hleft
  | call hc ha =>
    -- a call is resolved as an expression
    have hlinked := (IsExpression.call hc ha).resolve hp ht h
    rw [Node.resolve] at h
    split at h
    · simp at h
    · split at h
      · simp only [Prod.mk.injEq, and_true] at h
        subst h
        exact .call hlinked
      · simp at h
  | leave =>
    simp only [Node.resolve, Prod.mk.injEq, and_true] at h
    exact h ▸ .leave
  | answer hv =>
    rw [Node.resolve] at h
    simp only [Prod.mk.injEq] at h
    obtain ⟨rfl, h⟩ := h
    exact .answer (hv.resolve hp ht (by rw [← h]))
  | branch hc _ _ iht ihe =>
    rw [Node.resolve] at h
    split at h
    · simp at h
    · rename_i condition' hcond
      split at h
      · simp at h
      · rename_i then' hthen
        rw [Node.resolve] at hthen h
        simp only [Prod.mk.injEq] at h hthen
        obtain ⟨rfl, hthen⟩ := hthen
        obtain ⟨rfl, h⟩ := h
        -- both blocks are resolved statement by statement
        have hthens := forall₂_resolveAll hthen
        have helses := forall₂_resolveAll h
        exact .branch (hc.resolve hp ht hcond)
          (forall_linked hthens fun x hx y hy => iht x hx hy)
          (forall_linked helses fun x hx y hy => ihe x hx hy)
  | loop hc _ ihb =>
    rw [Node.resolve] at h
    split at h
    · simp at h
    · rename_i condition' hcond
      rw [Node.resolve] at h
      simp only [Prod.mk.injEq] at h
      obtain ⟨rfl, h⟩ := h
      have hbody := forall₂_resolveAll h
      exact .loop (hc.resolve hp ht hcond) (forall_linked hbody fun x hx y hy => ihb x hx hy)

/-- Resolving a block without an error links it. -/
theorem IsBlock.resolve (hp : p.WellFormed) (ht : p.ProcedureTable d t params vars) {b : Node}
    (hb : b.IsBlock) {b' : Node} (h : b.resolve p (some t) = (b', none)) : b'.LinkedBlock p t := by
  cases hb with
  | intro hs =>
    rw [Node.resolve] at h
    simp only [Prod.mk.injEq] at h
    obtain ⟨rfl, h⟩ := h
    have hall := forall₂_resolveAll h
    exact .intro (forall_linked hall fun x hx y hy => (hs x hx).resolve hp ht hy)

end Node

namespace Program

variable {p q : Program}

/-- Resolving the bodies of procedures that are not linked yet links them. -/
theorem linked_resolveProcedures {ids : List DeclId} (hp : p.WellFormed) (hids : ids.Nodup)
    (hblock : ∀ id ∈ ids, ∀ d, p.decl? id = some d → d.kind = .procedure ∧ d.body.IsBlock)
    (h : p.resolveProcedures ids = (q, none)) :
    q.WellFormed ∧ p.SameHeads q ∧ (∀ id, id ∉ ids → q.decl? id = p.decl? id) ∧
      ∀ id ∈ ids, ∀ d, q.decl? id = some d → ∃ t, d.locals = some t ∧ d.body.LinkedBlock q t := by
  induction ids generalizing p with
  | nil =>
    simp only [resolveProcedures, Prod.mk.injEq, and_true] at h
    subst h
    exact ⟨hp, .refl p, fun _ _ => rfl, by simp⟩
  | cons id rest ih =>
    rw [List.nodup_cons] at hids
    rw [List.forall_mem_cons] at hblock
    rw [resolveProcedures] at h
    split at h
    · simp at h
    · rename_i p₁ hp₁
      unfold resolveProcedure at hp₁
      cases hd : p.decl? id with
      -- there is no such declaration, and nothing changes
      | none =>
        simp only [hd, Prod.mk.injEq, and_true] at hp₁
        subst hp₁
        obtain ⟨hwf, hsame, hother, hlinked⟩ := ih hp hids.2 hblock.2 h
        refine ⟨hwf, hsame, fun j hj => hother j (fun hmem => hj (List.mem_cons_of_mem _ hmem)), ?_⟩
        rw [List.forall_mem_cons]
        refine ⟨fun d hd' => ?_, hlinked⟩
        rw [hother id hids.1, hd] at hd'
        exact absurd hd' (by simp)
      | some d =>
        simp only [hd, Prod.mk.injEq] at hp₁
        obtain ⟨hupd, herr⟩ := hp₁
        obtain ⟨hk, hbody⟩ := hblock.1 d hd
        obtain ⟨t, params, vars, ht⟩ := hp.procedure id d hd hk
        set body := (d.body.resolve p d.locals).1 with hbodyDef
        have hlink : body.LinkedBlock p t := by
          refine hbody.resolve hp ht ?_
          rw [← ht.locals_eq, ← herr]
        -- only a body changes, so later bodies are resolved as before
        have hsame₁ : p.SameHeads p₁ := hupd ▸ .update_body p id fun _ => body
        have hwf₁ : p₁.WellFormed := hupd ▸ hp.update_body id fun _ => body
        have hother₁ (j : DeclId) (hj : j ≠ id) : p₁.decl? j = p.decl? j := by
          rw [← hupd, decl?_update, if_neg (Ne.symm hj)]
        obtain ⟨hwf, hsame, hother, hlinked⟩ := ih hwf₁ hids.2 (fun j hj e he => by
          have hne : j ≠ id := fun heq => hids.1 (heq ▸ hj)
          exact hblock.2 j hj e (by rw [← hother₁ j hne]; exact he)) h
        refine ⟨hwf, hsame₁.trans hsame, ?_, ?_⟩
        · intro j hj
          rw [List.mem_cons, not_or] at hj
          rw [hother j hj.2, hother₁ j hj.1]
        · rw [List.forall_mem_cons]
          refine ⟨fun e he => ?_, hlinked⟩
          rw [hother id hids.1, ← hupd, decl?_update, if_pos rfl, hd, Option.map_some,
            Option.some.injEq] at he
          subst he
          exact ⟨t, ht.locals_eq, (hsame₁.trans hsame).linkedBlock hlink⟩

/-- Resolution without an error links the bodies of all procedures. -/
theorem linked_resolve (hp : p.WellFormed)
    (hblock : ∀ id d, p.decl? id = some d → d.kind = .procedure → d.body.IsBlock)
    (h : p.resolve = (q, none)) :
    q.WellFormed ∧ p.SameHeads q ∧ ∀ id d, q.decl? id = some d → d.kind = .procedure →
      ∃ t, d.locals = some t ∧ d.body.LinkedBlock q t := by
  have hnodup : p.procedures.Nodup := (hp.tidy.nodup_membersOf classTable).filter _
  obtain ⟨hwf, hsame, -, hlinked⟩ := linked_resolveProcedures hp hnodup (fun id hid d hd => by
    obtain ⟨e, he, hk⟩ := hp.mem_procedures.1 hid
    obtain rfl := Option.some.inj (he.symm.trans hd)
    exact ⟨hk, hblock id e he hk⟩) h
  refine ⟨hwf, hsame, fun id d hd hk => hlinked id ?_ d hd⟩
  obtain ⟨body, hd'⟩ := SameHeads.decl? ⟨hsame.name_eq.symm, hsame.tables_eq.symm,
    fun j => (hsame.decl?_eq j).symm⟩ hd
  exact hp.mem_procedures.2 ⟨_, hd', hk⟩

end Program

end Classwright
