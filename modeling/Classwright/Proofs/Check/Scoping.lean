import Classwright.Proofs.Check.Links
import Classwright.Proofs.Program.Scopes
import Classwright.Proofs.Relabelling.Checks
import Mathlib

/-!
# Lexical scoping

The trees of a procedure use names and calls in a fixed order (`Node.uses`).  Resolution looks at
the uses one after the other: it fails with the first that stands for nothing
(`Node.resolve_snd_eq`), changes links only (`Node.unlinked_resolve`), and has linked every use to
what it stands for when it succeeds (`Node.link_eq_of_resolve`).  A tree that was resolved, up to an
error or to its end, is resolved to itself (`Node.resolve_resolve`).

What a use stands for is said by lists of declarations alone (`Use.StandsFor`): a name by the
parameters and variables of its procedure and, if none of them has it, by the constants and
variables of the class; a call by the procedures of the class.  The main result is
`Program.resolve_scopes`.
-/

namespace Classwright

/-! ### Uses -/

/-- A place of a tree that uses a declaration, with the link it has there. -/
inductive Use where
  /-- A name in an expression, or one that is assigned to. -/
  | name (x : Text) (link : Option DeclId) (place : Position)
  /-- A call with a number of arguments. -/
  | call (callee : Text) (arity : Nat) (link : Option DeclId) (place : Position)

namespace Use

/-- The declaration a use is linked to. -/
def link : Use → Option DeclId
  | name _ link _ | call _ _ link _ => link

/-- The error for a use that stands for nothing. -/
def error : Use → CompileError
  | name x _ place => ⟨.undefinedName x, place⟩
  | call callee arity _ place => ⟨.noMatchingProcedure callee arity, place⟩

/-- What is found for a use from a table. -/
def target (p : Program) (table : Option TableId) : Use → Option DeclId
  | name x _ _ => p.lookupValue table x
  | call callee arity _ _ => p.lookupProcedure table callee arity

/-- The error of a use for which nothing is found. -/
def fault (p : Program) (table : Option TableId) (u : Use) : Option CompileError :=
  (u.target p table).elim (some u.error) fun _ => none

end Use

namespace Node

mutual

/-- The uses of a tree: the left side of an operation or assignment in front of the right one,
arguments in front of their call, a condition in front of what depends on it. -/
def uses : Node → List Use
  | absent | literal _ _ => []
  | name x link place => [.name x link place]
  | binary _ left right _ => uses left ++ uses right
  | exit value _ => uses value
  | call callee arguments link place =>
    usesAll arguments ++ [.call callee arguments.length link place]
  | branch condition thenBlock elseBlock _ => uses condition ++ (uses thenBlock ++ uses elseBlock)
  | loop condition body _ => uses condition ++ uses body
  | block statements _ => usesAll statements

/-- The uses of several trees, one tree after the other. -/
def usesAll : List Node → List Use
  | [] => []
  | node :: rest => uses node ++ usesAll rest

end

mutual

/-- A tree without its links. -/
def unlinked : Node → Node
  | absent => absent
  | literal v place => literal v place
  | name x _ place => name x none place
  | binary op left right place => binary op (unlinked left) (unlinked right) place
  | exit value place => exit (unlinked value) place
  | call callee arguments _ place => call callee (unlinkedAll arguments) none place
  | branch condition thenBlock elseBlock place =>
    branch (unlinked condition) (unlinked thenBlock) (unlinked elseBlock) place
  | loop condition body place => loop (unlinked condition) (unlinked body) place
  | block statements place => block (unlinkedAll statements) place

/-- Several trees without their links. -/
def unlinkedAll : List Node → List Node
  | [] => []
  | node :: rest => unlinked node :: unlinkedAll rest

end

/-! ### Resolution of trees

What comes behind an error stays as it is, so each part of a tree is the resolved one unless a part
in front of it has failed. -/

section Trees

variable {p q : Program} {table : Option TableId}

theorem resolve_binary (op : Operator) (left right : Node) (place : Position) :
    (binary op left right place).resolve p table =
      (binary op (left.resolve p table).1
        ((left.resolve p table).2.elim (right.resolve p table).1 fun _ => right) place,
      (left.resolve p table).2.or (right.resolve p table).2) := by
  rw [resolve]
  obtain ⟨left', _ | e⟩ := left.resolve p table <;> rfl

theorem resolve_branch (condition thenBlock elseBlock : Node) (place : Position) :
    (branch condition thenBlock elseBlock place).resolve p table =
      (branch (condition.resolve p table).1
        ((condition.resolve p table).2.elim (thenBlock.resolve p table).1 fun _ => thenBlock)
        (((condition.resolve p table).2.or (thenBlock.resolve p table).2).elim
          (elseBlock.resolve p table).1 fun _ => elseBlock) place,
      (condition.resolve p table).2.or
        ((thenBlock.resolve p table).2.or (elseBlock.resolve p table).2)) := by
  rw [resolve]
  obtain ⟨condition', _ | e⟩ := condition.resolve p table
  · obtain ⟨thenBlock', _ | e⟩ := thenBlock.resolve p table <;> rfl
  · rfl

theorem resolve_loop (condition body : Node) (place : Position) :
    (loop condition body place).resolve p table =
      (loop (condition.resolve p table).1
        ((condition.resolve p table).2.elim (body.resolve p table).1 fun _ => body) place,
      (condition.resolve p table).2.or (body.resolve p table).2) := by
  rw [resolve]
  obtain ⟨condition', _ | e⟩ := condition.resolve p table <;> rfl

theorem resolveAll_cons (node : Node) (rest : List Node) :
    resolveAll p table (node :: rest) =
      ((node.resolve p table).1 ::
        (node.resolve p table).2.elim (resolveAll p table rest).1 (fun _ => rest),
      (node.resolve p table).2.or (resolveAll p table rest).2) := by
  rw [resolveAll]
  obtain ⟨node', _ | e⟩ := node.resolve p table <;> rfl

@[simp] theorem length_resolveAll (nodes : List Node) :
    (resolveAll p table nodes).1.length = nodes.length := by
  induction nodes with
  | nil => rfl
  | cons node rest ih =>
    rw [resolveAll_cons]
    cases (node.resolve p table).2 with
    | none => rw [Option.elim_none, List.length_cons, List.length_cons, ih]
    | some e => rfl

theorem resolve_call (callee : Text) (arguments : List Node) (link : Option DeclId)
    (place : Position) :
    (call callee arguments link place).resolve p table =
      (call callee (resolveAll p table arguments).1
        ((resolveAll p table arguments).2.elim
          (p.lookupProcedure table callee arguments.length) fun _ => link) place,
      (resolveAll p table arguments).2.or
        (Use.fault p table (.call callee arguments.length link place))) := by
  have hlength : (resolveAll p table arguments).1.length = arguments.length :=
    length_resolveAll arguments
  rw [resolve]
  generalize resolveAll p table arguments = result at hlength
  obtain ⟨arguments', _ | e⟩ := result
  · dsimp only at hlength ⊢
    rw [hlength, Use.fault, Use.target]
    cases p.lookupProcedure table callee arguments.length <;> rfl
  · rfl

theorem resolve_name (x : Text) (link : Option DeclId) (place : Position) :
    (name x link place).resolve p table =
      (name x (p.lookupValue table x) place, Use.fault p table (.name x link place)) := by
  rw [resolve, Use.fault, Use.target]
  cases p.lookupValue table x <;> rfl

mutual

/-- **Resolution fails with the first use that stands for nothing.** -/
theorem resolve_snd_eq : ∀ node : Node,
    (node.resolve p table).2 = node.uses.findSome? (Use.fault p table)
  | absent | literal _ _ => rfl
  | name x link place => by rw [resolve_name, uses, List.findSome?_singleton]
  | binary op left right place => by
    rw [resolve_binary, uses, List.findSome?_append, ← resolve_snd_eq left, ← resolve_snd_eq right]
  | exit value place => by
    rw [resolve, uses, ← resolve_snd_eq value]
  | call callee arguments link place => by
    rw [resolve_call, uses, List.findSome?_append, List.findSome?_singleton,
      ← resolveAll_snd_eq arguments]
  | branch condition thenBlock elseBlock place => by
    rw [resolve_branch, uses, List.findSome?_append, List.findSome?_append,
      ← resolve_snd_eq condition, ← resolve_snd_eq thenBlock, ← resolve_snd_eq elseBlock]
  | loop condition body place => by
    rw [resolve_loop, uses, List.findSome?_append, ← resolve_snd_eq condition,
      ← resolve_snd_eq body]
  | block statements place => by rw [resolve, uses, ← resolveAll_snd_eq statements]

theorem resolveAll_snd_eq : ∀ nodes : List Node,
    (resolveAll p table nodes).2 = (usesAll nodes).findSome? (Use.fault p table)
  | [] => rfl
  | node :: rest => by
    rw [resolveAll_cons, usesAll, List.findSome?_append, ← resolve_snd_eq node,
      ← resolveAll_snd_eq rest]

end

mutual

/-- Resolution changes nothing but links. -/
theorem unlinked_resolve : ∀ node : Node, (node.resolve p table).1.unlinked = node.unlinked
  | absent | literal _ _ => rfl
  | name x link place => by rw [resolve_name, unlinked, unlinked]
  | binary op left right place => by
    rw [resolve_binary, unlinked, unlinked, unlinked_resolve left]
    cases (left.resolve p table).2 with
    | none => rw [Option.elim_none, unlinked_resolve right]
    | some e => rfl
  | exit value place => by rw [resolve, unlinked, unlinked, unlinked_resolve value]
  | call callee arguments link place => by
    rw [resolve_call, unlinked, unlinked, unlinkedAll_resolveAll arguments]
  | branch condition thenBlock elseBlock place => by
    rw [resolve_branch, unlinked, unlinked, unlinked_resolve condition]
    cases (condition.resolve p table).2 with
    | some e => rfl
    | none =>
      rw [Option.elim_none, Option.none_or, unlinked_resolve thenBlock]
      cases (thenBlock.resolve p table).2 with
      | some e => rfl
      | none => rw [Option.elim_none, unlinked_resolve elseBlock]
  | loop condition body place => by
    rw [resolve_loop, unlinked, unlinked, unlinked_resolve condition]
    cases (condition.resolve p table).2 with
    | none => rw [Option.elim_none, unlinked_resolve body]
    | some e => rfl
  | block statements place => by
    rw [resolve, unlinked, unlinked, unlinkedAll_resolveAll statements]

theorem unlinkedAll_resolveAll : ∀ nodes : List Node,
    unlinkedAll (resolveAll p table nodes).1 = unlinkedAll nodes
  | [] => rfl
  | node :: rest => by
    rw [resolveAll_cons, unlinkedAll, unlinkedAll, unlinked_resolve node]
    cases (node.resolve p table).2 with
    | none => rw [Option.elim_none, unlinkedAll_resolveAll rest]
    | some e => rfl

end

mutual

/-- Once resolution has succeeded, every use is linked to what is found for it. -/
theorem link_eq_of_resolve : ∀ node : Node, (node.resolve p table).2 = none →
    ∀ u ∈ (node.resolve p table).1.uses, u.link = u.target p table
  | absent, _, u, hu | literal _ _, _, u, hu => by
    rw [resolve, uses] at hu
    · exact absurd hu (List.not_mem_nil)
    all_goals simp
  | name x link place, _, u, hu => by
    rw [resolve_name, uses, List.mem_singleton] at hu
    rw [hu]
    rfl
  | binary op left right place, h, u, hu => by
    rw [resolve_binary] at h hu
    obtain ⟨hleft, hright⟩ := Option.or_eq_none_iff.1 h
    rw [hleft, Option.elim_none, uses, List.mem_append] at hu
    rcases hu with hu | hu
    · exact link_eq_of_resolve left hleft u hu
    · exact link_eq_of_resolve right hright u hu
  | exit value place, h, u, hu => by
    rw [resolve] at h hu
    rw [uses] at hu
    exact link_eq_of_resolve value h u hu
  -- a call is linked behind its arguments
  | call callee arguments link place, h, u, hu => by
    rw [resolve_call] at h hu
    obtain ⟨harguments, -⟩ := Option.or_eq_none_iff.1 h
    rw [harguments, Option.elim_none, uses, List.mem_append, List.mem_singleton,
      length_resolveAll] at hu
    rcases hu with hu | rfl
    · exact link_eq_of_resolveAll arguments harguments u hu
    · rfl
  | branch condition thenBlock elseBlock place, h, u, hu => by
    rw [resolve_branch] at h hu
    obtain ⟨hcondition, hrest⟩ := Option.or_eq_none_iff.1 h
    obtain ⟨hthen, helse⟩ := Option.or_eq_none_iff.1 hrest
    rw [hcondition, Option.elim_none, Option.none_or, hthen, Option.elim_none, uses,
      List.mem_append, List.mem_append] at hu
    rcases hu with hu | hu | hu
    · exact link_eq_of_resolve condition hcondition u hu
    · exact link_eq_of_resolve thenBlock hthen u hu
    · exact link_eq_of_resolve elseBlock helse u hu
  | loop condition body place, h, u, hu => by
    rw [resolve_loop] at h hu
    obtain ⟨hcondition, hbody⟩ := Option.or_eq_none_iff.1 h
    rw [hcondition, Option.elim_none, uses, List.mem_append] at hu
    rcases hu with hu | hu
    · exact link_eq_of_resolve condition hcondition u hu
    · exact link_eq_of_resolve body hbody u hu
  | block statements place, h, u, hu => by
    rw [resolve] at h hu
    rw [uses] at hu
    exact link_eq_of_resolveAll statements h u hu

theorem link_eq_of_resolveAll : ∀ nodes : List Node, (resolveAll p table nodes).2 = none →
    ∀ u ∈ usesAll (resolveAll p table nodes).1, u.link = u.target p table
  | [], _, u, hu => absurd hu List.not_mem_nil
  | node :: rest, h, u, hu => by
    rw [resolveAll_cons] at h hu
    obtain ⟨hnode, hrest⟩ := Option.or_eq_none_iff.1 h
    rw [hnode, Option.elim_none, usesAll, List.mem_append] at hu
    rcases hu with hu | hu
    · exact link_eq_of_resolve node hnode u hu
    · exact link_eq_of_resolveAll rest hrest u hu

end

mutual

/-- **Resolving again** makes the same links and fails with the same error. -/
theorem resolve_resolve : ∀ node : Node,
    (node.resolve p table).1.resolve p table = node.resolve p table
  | absent | literal _ _ => rfl
  | name x link place => by
    rw [resolve_name, resolve_name]
    rfl
  -- the right side is resolved only if the left has passed, which is so again
  | binary op left right place => by
    rw [resolve_binary, resolve_binary, resolve_resolve left]
    cases (left.resolve p table).2 with
    | none => simp only [Option.elim_none, resolve_resolve right]
    | some e => rfl
  | exit value place => by
    rw [resolve, resolve, resolve_resolve value]
  | call callee arguments link place => by
    rw [resolve_call, resolve_call, resolveAll_resolveAll arguments, length_resolveAll]
    cases (resolveAll p table arguments).2 with
    | none => rfl
    | some e => rfl
  | branch condition thenBlock elseBlock place => by
    rw [resolve_branch, resolve_branch, resolve_resolve condition]
    cases (condition.resolve p table).2 with
    | some e => rfl
    | none =>
      simp only [Option.elim_none, Option.none_or, resolve_resolve thenBlock]
      cases (thenBlock.resolve p table).2 with
      | some e => rfl
      | none => simp only [Option.elim_none, resolve_resolve elseBlock]
  | loop condition body place => by
    rw [resolve_loop, resolve_loop, resolve_resolve condition]
    cases (condition.resolve p table).2 with
    | none => simp only [Option.elim_none, resolve_resolve body]
    | some e => rfl
  | block statements place => by
    rw [resolve, resolve, resolveAll_resolveAll statements]

theorem resolveAll_resolveAll : ∀ nodes : List Node,
    resolveAll p table (resolveAll p table nodes).1 = resolveAll p table nodes
  | [] => rfl
  | node :: rest => by
    rw [resolveAll_cons, resolveAll_cons, resolve_resolve node]
    cases (node.resolve p table).2 with
    | none => simp only [Option.elim_none, resolveAll_resolveAll rest]
    | some e => rfl

end

end Trees

end Node

/-! ### What a use stands for -/

/-- In a procedure, a use stands for a declaration of the program. -/
inductive Use.StandsFor (p : Program) (d : Declaration) : Use → DeclId → Prop
  | ofLocal {x : Text} {link : Option DeclId} {place : Position} {id : DeclId} {e : Declaration}
      (hmem : id ∈ p.localsOf d) (he : p.decl? id = some e)
      (hk : e.kind = .parameter ∨ e.kind = .var) (hname : e.name = x) :
      StandsFor p d (.name x link place) id
  | ofClass {x : Text} {link : Option DeclId} {place : Position} {id : DeclId} {e : Declaration}
      (hnone : ∀ j ∈ p.localsOf d, ∀ e, p.decl? j = some e → e.name ≠ x) (hmem : id ∈ p.members)
      (he : p.decl? id = some e) (hk : e.kind = .constant ∨ e.kind = .var) (hname : e.name = x) :
      StandsFor p d (.name x link place) id
  | ofCall {callee : Text} {arity : Nat} {link : Option DeclId} {place : Position} {id : DeclId}
      {e : Declaration} (hmem : id ∈ p.procedures) (he : p.decl? id = some e)
      (hname : e.name = callee) (harity : e.arity = arity) :
      StandsFor p d (.call callee arity link place) id

namespace Program

variable {p q : Program}

theorem ProcedureTable.mem_localsOf {d : Declaration} {t : TableId} {params vars : List DeclId}
    (ht : p.ProcedureTable d t params vars) (hp : p.WellFormed) {id : DeclId} :
    id ∈ p.localsOf d ↔ ∃ e, p.decl? id = some e ∧ e.table = t := by
  rw [localsOf, ht.locals_eq]
  exact hp.tidy.mem_membersOf t id

/-- In the table of a procedure there are only values. -/
theorem ProcedureTable.isValue {d : Declaration} {t : TableId} {params vars : List DeclId}
    (ht : p.ProcedureTable d t params vars) (hp : p.WellFormed) {id : DeclId} {e : Declaration}
    (he : p.decl? id = some e) (htable : e.table = t) :
    e.isValue = true ∧ (e.kind = .parameter ∨ e.kind = .var) := by
  have hkind := hp.local_kind id e he (htable ▸ Nat.ne_of_gt ht.pos)
  refine ⟨?_, hkind⟩
  rcases hkind with hk | hk <;> simp [Declaration.isValue, hk]

section

variable {d : Declaration} {t : TableId} {params vars : List DeclId} {id : DeclId}

/-- A name is looked up in the procedure and then in the class. -/
theorem WellFormed.target_name_eq_some_iff (hp : p.WellFormed)
    (ht : p.ProcedureTable d t params vars) {x : Text} {link : Option DeclId} {place : Position} :
    (Use.name x link place).target p d.locals = some id ↔
      (Use.name x link place).StandsFor p d id := by
  obtain ⟨tab, htab, hparent⟩ := ht.parent
  obtain ⟨outer, hout, hroot⟩ := hp.exists_classTable
  have hvalues := hp.tidy.finds_values x
  rw [Use.target, ht.locals_eq, lookupValue, Option.bind_some,
    searchFrom_inner _ htab hparent ht.pos hout hroot, Option.or_eq_some_iff,
    hvalues t tab htab, hvalues classTable outer hout, hvalues.eq_none_iff htab]
  constructor
  · rintro (⟨e, he, htable, -, hname⟩ | ⟨hnone, e, he, htable, hvalue, hname⟩)
    · exact .ofLocal ((ht.mem_localsOf hp).2 ⟨e, he, htable⟩) he
        (ht.isValue hp he htable).2 hname
    · refine .ofClass ?_ (hp.mem_members.2 ⟨e, he, htable⟩) he ?_ hname
      · intro j hj e' he' hname'
        obtain ⟨e'', he'', htable'⟩ := (ht.mem_localsOf hp).1 hj
        obtain rfl := Option.some.inj (he'.symm.trans he'')
        exact hnone j e' he' htable' ⟨(ht.isValue hp he' htable').1, hname'⟩
      · -- A member of the class is no parameter, and a value is no procedure.
        have hparameter := hp.member_kind id e he htable
        cases hk : e.kind <;> simp_all [Declaration.isValue]
  · intro h
    cases h with
    | @ofLocal _ _ _ _ e hmem he hk hname =>
      obtain ⟨e', he', htable⟩ := (ht.mem_localsOf hp).1 hmem
      obtain rfl := Option.some.inj (he.symm.trans he')
      exact Or.inl ⟨e, he, htable, (ht.isValue hp he htable).1, hname⟩
    | @ofClass _ _ _ _ e hnone hmem he hk hname =>
      obtain ⟨e', he', htable⟩ := hp.mem_members.1 hmem
      obtain rfl := Option.some.inj (he.symm.trans he')
      refine Or.inr ⟨?_, e, he, htable, ?_, hname⟩
      · intro j e' he' htable' hvalue
        exact hnone j ((ht.mem_localsOf hp).2 ⟨e', he', htable'⟩) e' he' hvalue.2
      · rcases hk with hk | hk <;> simp [Declaration.isValue, hk]

/-- A call is looked up in the class, since a procedure has no procedures. -/
theorem WellFormed.target_call_eq_some_iff (hp : p.WellFormed)
    (ht : p.ProcedureTable d t params vars) {callee : Text} {arity : Nat} {link : Option DeclId}
    {place : Position} :
    (Use.call callee arity link place).target p d.locals = some id ↔
      (Use.call callee arity link place).StandsFor p d id := by
  obtain ⟨tab, htab, hparent⟩ := ht.parent
  obtain ⟨outer, hout, hroot⟩ := hp.exists_classTable
  have hprocedures := hp.tidy.finds_procedures callee arity
  rw [Use.target, ht.locals_eq, lookupProcedure, Option.bind_some,
    searchFrom_inner _ htab hparent ht.pos hout hroot, Option.or_eq_some_iff,
    hprocedures t tab htab, hprocedures classTable outer hout, hprocedures.eq_none_iff htab]
  constructor
  · rintro (⟨e, he, htable, hproc, -⟩ | ⟨-, e, he, htable, hproc, hname, harity⟩)
    · rw [(ht.isValue hp he htable).1] at hproc
      exact absurd hproc (by simp)
    · have hk : e.kind = .procedure := by simpa [Declaration.isValue] using hproc
      exact .ofCall (hp.mem_procedures.2 ⟨e, he, hk⟩) he hname harity
  · intro h
    cases h with
    | @ofCall _ _ _ _ _ e hmem he hname harity =>
      obtain ⟨e', he', hk⟩ := hp.mem_procedures.1 hmem
      obtain rfl := Option.some.inj (he.symm.trans he')
      obtain ⟨e'', he'', htable⟩ := hp.mem_members.1 (List.mem_filter.1 hmem).1
      obtain rfl := Option.some.inj (he.symm.trans he'')
      refine Or.inr ⟨?_, e, he, htable, by simp [Declaration.isValue, hk], hname, harity⟩
      intro j e' he' htable' hproc
      have hvalue := (ht.isValue hp he' htable').1
      rw [hproc.1] at hvalue
      exact absurd hvalue (by simp)

/-- **Lexical scoping**: what is found for a use is what it stands for. -/
theorem WellFormed.target_eq_some_iff (hp : p.WellFormed)
    (ht : p.ProcedureTable d t params vars) {u : Use} :
    u.target p d.locals = some id ↔ u.StandsFor p d id := by
  cases u with
  | name => exact hp.target_name_eq_some_iff ht
  | call => exact hp.target_call_eq_some_iff ht

/-- A use that stands for nothing is at fault. -/
theorem WellFormed.fault_eq_none_iff (hp : p.WellFormed)
    (ht : p.ProcedureTable d t params vars) {u : Use} :
    u.fault p d.locals = none ↔ ∃ id, u.StandsFor p d id := by
  simp only [← hp.target_eq_some_iff ht, Use.fault]
  cases u.target p d.locals <;> simp

theorem WellFormed.fault_eq_some_iff (hp : p.WellFormed)
    (ht : p.ProcedureTable d t params vars) {u : Use} {err : CompileError} :
    u.fault p d.locals = some err ↔ (¬ ∃ id, u.StandsFor p d id) ∧ err = u.error := by
  simp only [← hp.target_eq_some_iff ht, Use.fault]
  cases u.target p d.locals <;> simp [eq_comm]

/-- What a use stands for is in no table of another procedure. -/
theorem WellFormed.not_mem_localsOf (hp : p.WellFormed) (ht : p.ProcedureTable d t params vars)
    {u : Use} (h : u.StandsFor p d id) {e : Declaration} {s : TableId}
    {params' vars' : List DeclId} (hs : p.ProcedureTable e s params' vars') (hne : s ≠ t) :
    id ∉ p.localsOf e := by
  intro hmem
  obtain ⟨c, hc, htable⟩ := (hs.mem_localsOf hp).1 hmem
  have hown : c.table = t ∨ c.table = classTable := by
    cases h with
    | ofLocal hlocal =>
      obtain ⟨c', hc', htable'⟩ := (ht.mem_localsOf hp).1 hlocal
      obtain rfl := Option.some.inj (hc.symm.trans hc')
      exact Or.inl htable'
    | ofClass _ hmember =>
      obtain ⟨c', hc', htable'⟩ := hp.mem_members.1 hmember
      obtain rfl := Option.some.inj (hc.symm.trans hc')
      exact Or.inr htable'
    | ofCall hprocedure =>
      obtain ⟨c', hc', htable'⟩ := hp.mem_members.1 (List.mem_filter.1 hprocedure).1
      obtain rfl := Option.some.inj (hc.symm.trans hc')
      exact Or.inr htable'
  rcases hown with hown | hown
  · exact hne (htable.symm.trans hown)
  · exact Nat.ne_of_gt hs.pos (htable.symm.trans hown)

end

/-! ### Resolution of programs -/

theorem SameHeads.resolve_eq (h : p.SameHeads q) (table : Option TableId) (node : Node) :
    node.resolve q table = node.resolve p table := by
  have halike : node.LinksAlike .same q p table :=
    ⟨fun x _ _ _ => h.lookupValue table x, fun callee arity => h.lookupProcedure table callee arity⟩
  have heq := Node.resolve_relabel node halike
  rw [Node.relabel_same] at heq
  rw [heq]
  obtain ⟨node', e⟩ := node.resolve p table
  cases e <;> simp

theorem SameHeads.fault_eq (h : p.SameHeads q) (table : Option TableId) :
    Use.fault q table = Use.fault p table := by
  funext u
  cases u with
  | name x => rw [Use.fault, Use.fault, Use.target, Use.target, h.lookupValue table x]
  | call callee arity =>
    rw [Use.fault, Use.fault, Use.target, Use.target, h.lookupProcedure table callee arity]

/-- Changing nothing changes no program. -/
theorem update_eq_self {id : DeclId} {f : Declaration → Declaration}
    (h : ∀ d, p.decl? id = some d → f d = d) : p.update id f = p := by
  have hdecls : p.decls.modify id f = p.decls := by
    refine Array.ext_getElem? fun j => ?_
    rw [Array.getElem?_modify]
    split
    · rename_i hj
      cases hd : p.decls[j]? with
      | none => rfl
      | some d => rw [Option.map_some, h d (by rw [decl?, hj, hd])]
    · rfl
  rw [update, hdecls]

/-- Resolving a procedure and then others. -/
theorem resolveProcedures_cons {id : DeclId} {d : Declaration} (hd : p.decl? id = some d)
    (rest : List DeclId) :
    p.resolveProcedures (id :: rest) =
      (d.body.resolve p d.locals).2.elim
        ((p.update id fun d' => { d' with body := (d.body.resolve p d.locals).1 }).resolveProcedures
          rest)
        fun e =>
          (p.update id fun d' => { d' with body := (d.body.resolve p d.locals).1 }, some e) := by
  rw [resolveProcedures, resolveProcedure, hd]
  dsimp only
  obtain ⟨body, _ | e⟩ := d.body.resolve p d.locals <;> rfl

theorem resolveProcedures_cons_of_none {id : DeclId} (hd : p.decl? id = none)
    (rest : List DeclId) : p.resolveProcedures (id :: rest) = p.resolveProcedures rest := by
  rw [resolveProcedures, resolveProcedure, hd]

/-- Other declarations stay as they are, also behind an error. -/
theorem decl?_resolveProcedures_of_not_mem {ids : List DeclId} {j : DeclId} (hj : j ∉ ids) :
    (p.resolveProcedures ids).1.decl? j = p.decl? j := by
  induction ids generalizing p with
  | nil => rfl
  | cons id rest ih =>
    rw [List.mem_cons, not_or] at hj
    cases hd : p.decl? id with
    | none => rw [resolveProcedures_cons_of_none hd, ih hj.2]
    | some d =>
      rw [resolveProcedures_cons hd]
      cases (d.body.resolve p d.locals).2 with
      | none => rw [Option.elim_none, ih hj.2, decl?_update, if_neg (Ne.symm hj.1)]
      | some e => rw [Option.elim_some, decl?_update, if_neg (Ne.symm hj.1)]

/-- Behind a procedure, the others are still there as they were. -/
theorem filterMap_decl?_update {id : DeclId} {f : Declaration → Declaration} {ids : List DeclId}
    (hid : id ∉ ids) : ids.filterMap (p.update id f).decl? = ids.filterMap p.decl? := by
  refine List.filterMap_congr fun j hj => ?_
  have hne : id ≠ j := fun heq => hid (heq ▸ hj)
  rw [decl?_update, if_neg hne]

theorem resolveProcedures_snd_eq {ids : List DeclId} (hids : ids.Nodup) :
    (p.resolveProcedures ids).2 = (ids.filterMap p.decl?).findSome? fun d =>
      d.body.uses.findSome? (Use.fault p d.locals) := by
  induction ids generalizing p with
  | nil => rfl
  | cons id rest ih =>
    obtain ⟨hid, hrest⟩ := List.nodup_cons.1 hids
    cases hd : p.decl? id with
    | none => rw [resolveProcedures_cons_of_none hd, List.filterMap_cons_none hd, ih hrest]
    | some d =>
      rw [resolveProcedures_cons hd, List.filterMap_cons_some hd, List.findSome?_cons,
        ← Node.resolve_snd_eq]
      cases (d.body.resolve p d.locals).2 with
      | some e => rfl
      | none =>
        -- The resolved body is seen by no lookup, so the other procedures find what they did.
        have hsame := SameHeads.update_body p id fun _ => (d.body.resolve p d.locals).1
        rw [Option.elim_none, ih hrest, filterMap_decl?_update hid]
        simp only [hsame.fault_eq]

/-- Once resolution has succeeded, the bodies are the resolved ones. -/
theorem decl?_resolveProcedures {ids : List DeclId} (hids : ids.Nodup)
    (h : (p.resolveProcedures ids).2 = none) {id : DeclId} (hid : id ∈ ids) {d : Declaration}
    (hd : p.decl? id = some d) : (d.body.resolve p d.locals).2 = none ∧
      (p.resolveProcedures ids).1.decl? id =
        some { d with body := (d.body.resolve p d.locals).1 } := by
  induction ids generalizing p with
  | nil => exact absurd hid List.not_mem_nil
  | cons j rest ih =>
    obtain ⟨hj, hrest⟩ := List.nodup_cons.1 hids
    cases hc : p.decl? j with
    | none =>
      rw [resolveProcedures_cons_of_none hc] at h ⊢
      refine ih hrest h ((List.mem_cons.1 hid).resolve_left ?_) hd
      rintro rfl
      rw [hc] at hd
      exact absurd hd (by simp)
    | some c =>
      rw [resolveProcedures_cons hc] at h ⊢
      cases herr : (c.body.resolve p c.locals).2 with
      | some e => simp [herr] at h
      | none =>
        rw [herr, Option.elim_none] at h
        rw [Option.elim_none]
        rcases List.mem_cons.1 hid with rfl | hmem
        · obtain rfl := Option.some.inj (hc.symm.trans hd)
          refine ⟨herr, ?_⟩
          rw [decl?_resolveProcedures_of_not_mem hj, decl?_update, if_pos rfl, hd, Option.map_some]
        · have hne : j ≠ id := fun heq => hj (heq ▸ hmem)
          have hsame := SameHeads.update_body p j fun _ => (c.body.resolve p c.locals).1
          have hlater := ih hrest h hmem (by rw [decl?_update, if_neg hne, hd])
          rwa [hsame.resolve_eq] at hlater

/-- Resolving procedures again changes nothing and has the same outcome. -/
theorem resolveProcedures_again {ids : List DeclId} (hids : ids.Nodup) :
    (p.resolveProcedures ids).1.resolveProcedures ids = p.resolveProcedures ids := by
  induction ids generalizing p with
  | nil => rfl
  | cons id rest ih =>
    obtain ⟨hid, hrest⟩ := List.nodup_cons.1 hids
    cases hd : p.decl? id with
    | none =>
      rw [resolveProcedures_cons_of_none hd]
      have hq : (p.resolveProcedures rest).1.decl? id = none := by
        rw [decl?_resolveProcedures_of_not_mem hid, hd]
      rw [resolveProcedures_cons_of_none hq, ih hrest]
    | some d =>
      rw [resolveProcedures_cons hd]
      set p₁ := p.update id fun d' => { d' with body := (d.body.resolve p d.locals).1 } with hp₁
      have hsame₁ : p.SameHeads p₁ := .update_body p id fun _ => (d.body.resolve p d.locals).1
      have hd₁ : p₁.decl? id = some { d with body := (d.body.resolve p d.locals).1 } := by
        rw [hp₁, decl?_update, if_pos rfl, hd, Option.map_some]
      -- The procedure has its resolved body from here on, so resolving it again changes nothing.
      have hagain : ∀ q, p.SameHeads q →
          q.decl? id = some { d with body := (d.body.resolve p d.locals).1 } →
          q.resolveProcedures (id :: rest) =
            (d.body.resolve p d.locals).2.elim (q.resolveProcedures rest) fun e => (q, some e) := by
        intro q hsame hq
        rw [resolveProcedures_cons hq, hsame.resolve_eq, Node.resolve_resolve]
        rw [update_eq_self fun c hc => ?_]
        obtain rfl := Option.some.inj (hq.symm.trans hc)
        rfl
      cases herr : (d.body.resolve p d.locals).2 with
      | some e =>
        rw [Option.elim_some, hagain p₁ hsame₁ hd₁, herr, Option.elim_some]
      | none =>
        have hlater : (p₁.resolveProcedures rest).1.decl? id =
            some { d with body := (d.body.resolve p d.locals).1 } := by
          rw [decl?_resolveProcedures_of_not_mem hid, hd₁]
        have hsame := hsame₁.trans (SameHeads.resolveProcedures p₁ rest)
        rw [Option.elim_none, hagain _ hsame hlater, herr, Option.elim_none, ih hrest]

/-- The uses of a program, each with its procedure, in the order of the procedures. -/
def uses (p : Program) : List (Declaration × Use) :=
  (p.procedures.filterMap p.decl?).flatMap fun d => d.body.uses.map (d, ·)

theorem findSome?_uses (f : Declaration → Use → Option CompileError) (p : Program) :
    ((p.procedures.filterMap p.decl?).findSome? fun d => d.body.uses.findSome? (f d)) =
      p.uses.findSome? fun x => f x.1 x.2 := by
  unfold uses
  induction p.procedures.filterMap p.decl? with
  | nil => rfl
  | cons d rest ih =>
    rw [List.findSome?_cons, List.flatMap_cons, List.findSome?_append, List.findSome?_map, ih]
    have hhead : d.body.uses.findSome? ((fun x => f x.1 x.2) ∘ (d, ·)) =
        d.body.uses.findSome? (f d) := rfl
    rw [hhead]
    cases d.body.uses.findSome? (f d) <;> rfl

theorem WellFormed.nodup_procedures (hp : p.WellFormed) : p.procedures.Nodup :=
  (hp.tidy.nodup_membersOf classTable).filter _

/-- The uses of a program are in procedures with tables. -/
theorem WellFormed.exists_procedureTable (hp : p.WellFormed) {x : Declaration × Use}
    (hx : x ∈ p.uses) : ∃ t params vars, p.ProcedureTable x.1 t params vars := by
  obtain ⟨d, hd, hx⟩ := List.mem_flatMap.1 hx
  obtain ⟨u, -, rfl⟩ := List.mem_map.1 hx
  obtain ⟨id, hid, hd⟩ := List.mem_filterMap.1 hd
  obtain ⟨d', hd', hk⟩ := hp.mem_procedures.1 hid
  obtain rfl := Option.some.inj (hd.symm.trans hd')
  exact hp.procedure id d hd hk

/-- Resolution fails with the first use of the program that stands for nothing. -/
theorem WellFormed.resolve_snd_eq_some_iff (hp : p.WellFormed) {err : CompileError} :
    p.resolve.2 = some err ↔ ∃ before d u after, p.uses = before ++ (d, u) :: after ∧
      (∀ x ∈ before, ∃ j, x.2.StandsFor p x.1 j) ∧ (¬ ∃ j, u.StandsFor p d j) ∧
      err = u.error := by
  rw [resolve, resolveProcedures_snd_eq hp.nodup_procedures,
    findSome?_uses fun d => Use.fault p d.locals, List.findSome?_eq_some_iff]
  constructor
  · rintro ⟨before, ⟨d, u⟩, after, huses, hfault, hbefore⟩
    obtain ⟨t, params, vars, ht⟩ := hp.exists_procedureTable (x := (d, u)) (by simp [huses])
    obtain ⟨hnone, herr⟩ := (hp.fault_eq_some_iff ht).1 hfault
    refine ⟨before, d, u, after, huses, fun x hx => ?_, hnone, herr⟩
    obtain ⟨t', params', vars', ht'⟩ := hp.exists_procedureTable (x := x) (by simp [huses, hx])
    exact (hp.fault_eq_none_iff ht').1 (hbefore x hx)
  · rintro ⟨before, d, u, after, huses, hbefore, hnone, herr⟩
    obtain ⟨t, params, vars, ht⟩ := hp.exists_procedureTable (x := (d, u)) (by simp [huses])
    refine ⟨before, (d, u), after, huses, (hp.fault_eq_some_iff ht).2 ⟨hnone, herr⟩, ?_⟩
    intro x hx
    obtain ⟨t', params', vars', ht'⟩ := hp.exists_procedureTable (x := x) (by simp [huses, hx])
    exact (hp.fault_eq_none_iff ht').2 (hbefore x hx)

theorem WellFormed.resolve_snd_eq_none_iff (hp : p.WellFormed) :
    p.resolve.2 = none ↔ ∀ x ∈ p.uses, ∃ j, x.2.StandsFor p x.1 j := by
  rw [resolve, resolveProcedures_snd_eq hp.nodup_procedures,
    findSome?_uses fun d => Use.fault p d.locals, List.findSome?_eq_none_iff]
  refine forall₂_congr fun x hx => ?_
  obtain ⟨t, params, vars, ht⟩ := hp.exists_procedureTable hx
  exact hp.fault_eq_none_iff ht

theorem mem_uses {d : Declaration} {u : Use} :
    (d, u) ∈ p.uses ↔ ∃ id ∈ p.procedures, p.decl? id = some d ∧ u ∈ d.body.uses := by
  simp only [uses, List.mem_flatMap, List.mem_filterMap, List.mem_map, Prod.mk.injEq]
  constructor
  · rintro ⟨d', ⟨id, hid, hd⟩, u', hu, rfl, rfl⟩
    exact ⟨id, hid, hd, hu⟩
  · rintro ⟨id, hid, hd, hu⟩
    exact ⟨d, ⟨id, hid, hd⟩, u, hu, rfl, rfl⟩

/-- Once resolution has succeeded, every use of a procedure is linked to what it stands for. -/
theorem WellFormed.exists_link (hp : p.WellFormed) {d : Declaration} {t : TableId}
    {params vars : List DeclId} (ht : p.ProcedureTable d t params vars)
    (h : (d.body.resolve p d.locals).2 = none) {u : Use}
    (hu : u ∈ (d.body.resolve p d.locals).1.uses) : ∃ j, u.link = some j ∧ u.StandsFor p d j := by
  have hlink := Node.link_eq_of_resolve d.body h u hu
  -- Resolving the new body once more finds no fault, so its uses stand for something.
  have hagain : ((d.body.resolve p d.locals).1.resolve p d.locals).2 = none := by
    rw [Node.resolve_resolve, h]
  rw [Node.resolve_snd_eq, List.findSome?_eq_none_iff] at hagain
  obtain ⟨j, hj⟩ := (hp.fault_eq_none_iff ht).1 (hagain u hu)
  exact ⟨j, hlink.trans ((hp.target_eq_some_iff ht).2 hj), hj⟩

theorem SameHeads.procedures_eq (h : p.SameHeads q) : q.procedures = p.procedures := by
  have hkind : ∀ id, q.hasKind .procedure id = p.hasKind .procedure id := by
    intro id
    have hdecl := congrArg (Option.map Declaration.kind) (h.decl?_eq id)
    rw [Option.map_map, Option.map_map] at hdecl
    unfold hasKind
    cases hp : p.decl? id with
    | none =>
      rw [hp, Option.map_none, Option.map_eq_none_iff] at hdecl
      rw [hdecl]
    | some d =>
      obtain ⟨body, hq⟩ := h.decl? hp
      rw [hq]
  rw [procedures, procedures, members, members, h.membersOf]
  exact List.filter_congr fun id _ => hkind id

/-- Resolving a program again has the same outcome and makes the same links. -/
theorem WellFormed.resolve_again (hp : p.WellFormed) : p.resolve.1.resolve = p.resolve := by
  have hsame : p.SameHeads p.resolve.1 := .resolveProcedures p p.procedures
  rw [resolve, hsame.procedures_eq]
  exact resolveProcedures_again hp.nodup_procedures

/-- **Resolution implements lexical scoping.**  For every class the parser accepts, it succeeds
exactly if each use of each procedure stands for something.  It then has changed links only, and
each use is linked to the one thing it stands for, which is in no table of another procedure.  Else
the error is that of the first use that stands for nothing.  Resolving again changes nothing and has
the same outcome. -/
theorem resolve_scopes {text : Text} (h : Program.ofText text = .ok p) :
    (p.resolve.2 = none ↔ ∀ id ∈ p.procedures, ∀ d, p.decl? id = some d →
      ∀ u ∈ d.body.uses, ∃ j, u.StandsFor p d j) ∧
    (p.resolve.2 = none → ∀ id ∈ p.procedures, ∀ d, p.decl? id = some d →
      ∃ body, p.resolve.1.decl? id = some { d with body } ∧ body.unlinked = d.body.unlinked ∧
        ∀ u ∈ body.uses, ∃ j, u.link = some j ∧ u.StandsFor p d j ∧
          (∀ k, u.StandsFor p d k → k = j) ∧
          ∀ other ∈ p.procedures, other ≠ id → ∀ e, p.decl? other = some e →
            j ∉ p.localsOf e) ∧
    (∀ err, p.resolve.2 = some err ↔ ∃ before d u after, p.uses = before ++ (d, u) :: after ∧
      (∀ x ∈ before, ∃ j, x.2.StandsFor p x.1 j) ∧ (¬ ∃ j, u.StandsFor p d j) ∧
      err = u.error) ∧
    p.resolve.1.resolve = p.resolve := by
  obtain ⟨group, hbuilt⟩ := Program.built_of_ofText h
  have hp := hbuilt.wellFormed.1
  refine ⟨?_, ?_, fun err => hp.resolve_snd_eq_some_iff, hp.resolve_again⟩
  · rw [hp.resolve_snd_eq_none_iff]
    constructor
    · intro hall id hid d hd u hu
      exact hall (d, u) (mem_uses.2 ⟨id, hid, hd, hu⟩)
    · rintro hall ⟨d, u⟩ hx
      obtain ⟨id, hid, hd, hu⟩ := mem_uses.1 hx
      exact hall id hid d hd u hu
  · intro hnone id hid d hd
    obtain ⟨herr, hbody⟩ := decl?_resolveProcedures hp.nodup_procedures hnone hid hd
    obtain ⟨d', hd', hk⟩ := hp.mem_procedures.1 hid
    obtain rfl := Option.some.inj (hd.symm.trans hd')
    obtain ⟨t, params, vars, ht⟩ := hp.procedure id d hd hk
    refine ⟨_, hbody, Node.unlinked_resolve d.body, fun u hu => ?_⟩
    obtain ⟨j, hlink, hstands⟩ := hp.exists_link ht herr hu
    refine ⟨j, hlink, hstands, fun k hk => ?_, fun other hother hne e he => ?_⟩
    -- what a use stands for is what the lookup finds, so there is only one
    · have htarget := (hp.target_eq_some_iff ht).2 hk
      exact Option.some.inj (htarget.symm.trans ((hp.target_eq_some_iff ht).2 hstands))
    · obtain ⟨e', he', hk'⟩ := hp.mem_procedures.1 hother
      obtain rfl := Option.some.inj (he.symm.trans he')
      obtain ⟨s, params', vars', hs⟩ := hp.procedure other e he hk'
      -- two procedures have no table of locals in common
      refine hp.not_mem_localsOf ht hstands hs ?_
      rintro rfl
      exact hne (hbuilt.locals_inj he hd hk' hk (hs.locals_eq.trans ht.locals_eq.symm))

/-- A class with a variable x, a procedure that has a parameter x and calls one that comes later,
and that one, which reads the variable. -/
def scopedSource : Text :=
  Text.ofString ("class S \x7b int x; public int f(int x) \x7b return g(x); \x7d " ++
    "public int g(int a) \x7b return a + x; \x7d \x7d")

set_option maxRecDepth 20000 in
theorem scopedSource_resolves : ∃ p, Program.ofText scopedSource = .ok p ∧ p.resolve.2 = none ∧
    p.uses.length = 4 := by
  have hcheck : ((Program.ofText scopedSource).toOption.any fun p =>
      p.resolve.2.isNone && p.uses.length == 4) = true := by
    rw [scopedSource, Text.ofString_append, Text.ofString_ofList, Text.ofString_ofList]
    cbv
  obtain ⟨p, h, hcheck⟩ := exists_of_any hcheck
  simp only [Bool.and_eq_true, Option.isNone_iff_eq_none, beq_iff_eq] at hcheck
  exact ⟨p, h, hcheck⟩

theorem resolve_scopes_shadowed : ∃ p, Program.ofText scopedSource = .ok p ∧
    p.uses.length = 4 ∧ (∀ x ∈ p.uses, ∃ j, x.2.StandsFor p x.1 j) ∧
      p.resolve.1.resolve = p.resolve := by
  obtain ⟨p, h, hresolve, huses⟩ := scopedSource_resolves
  obtain ⟨hsuccess, -, -, hagain⟩ := resolve_scopes h
  refine ⟨p, h, huses, ?_, hagain⟩
  rintro ⟨d, u⟩ hx
  obtain ⟨id, hid, hd, hu⟩ := mem_uses.1 hx
  exact hsuccess.1 hresolve id hid d hd u hu

end Program

end Classwright
