import Classwright.Program.Printer
import Classwright.Proofs.Except
import Classwright.Proofs.Program.Tables

/-!
# Programs without positions

`Program.erase` drops the positions of a program and of everything in it, so two programs are equal
up to positions when they are equal without them.  Lookups, declarations and the printer do not
depend on positions.
-/

namespace Classwright

/-! ### Trees -/

namespace Node

mutual

/-- A tree without its positions. -/
def erase : Node → Node
  | absent => absent
  | literal v _ => literal v .unknown
  | name id link _ => name id link .unknown
  | binary op left right _ => binary op left.erase right.erase .unknown
  | exit value _ => exit value.erase .unknown
  | call callee arguments link _ => call callee (eraseAll arguments) link .unknown
  | branch condition thenBlock elseBlock _ =>
    branch condition.erase thenBlock.erase elseBlock.erase .unknown
  | loop condition body _ => loop condition.erase body.erase .unknown
  | block statements _ => block (eraseAll statements) .unknown

/-- Several trees without their positions. -/
def eraseAll : List Node → List Node
  | [] => []
  | node :: rest => node.erase :: eraseAll rest

end

theorem eraseAll_eq_map (nodes : List Node) : eraseAll nodes = nodes.map erase := by
  induction nodes with
  | nil => rfl
  | cons node rest ih => rw [eraseAll, ih, List.map_cons]

mutual

@[simp] theorem position_erase (node : Node) : node.erase.position = .unknown := by
  cases node with
  | block statements place => exact firstPosition_eraseAll statements
  | _ => rfl

theorem firstPosition_eraseAll (nodes : List Node) :
    firstPosition .unknown (eraseAll nodes) = .unknown := by
  cases nodes with
  | nil => rfl
  | cons node rest => exact position_erase node

end

mutual

@[simp] theorem erase_erase (node : Node) : node.erase.erase = node.erase := by
  cases node with
  | binary op left right place => rw [erase, erase, erase_erase left, erase_erase right]
  | exit value place => rw [erase, erase, erase_erase value]
  | call callee arguments link place => rw [erase, erase, eraseAll_eraseAll arguments]
  | branch condition thenBlock elseBlock place =>
    rw [erase, erase, erase_erase condition, erase_erase thenBlock, erase_erase elseBlock]
  | loop condition body place => rw [erase, erase, erase_erase condition, erase_erase body]
  | block statements place => rw [erase, erase, eraseAll_eraseAll statements]
  | absent | literal | name => rfl

@[simp] theorem eraseAll_eraseAll (nodes : List Node) :
    eraseAll (eraseAll nodes) = eraseAll nodes := by
  cases nodes with
  | nil => rfl
  | cons node rest => rw [eraseAll, eraseAll, erase_erase node, eraseAll_eraseAll rest]

end

/-! ### Printing trees -/

mutual

theorem exprOnto_erase (nested : Bool) (node : Node) (rest : Text) :
    exprOnto nested node.erase rest = exprOnto nested node rest := by
  cases node with
  | binary op left right place =>
    cases nested <;>
    · rw [erase, exprOnto, exprOnto]
      simp only [exprOnto_erase true left, exprOnto_erase true right]
  | call callee arguments link place =>
    rw [erase, exprOnto, exprOnto, argumentsOnto_eraseAll arguments]
  | absent | literal | name | exit | branch | loop | block => cases nested <;> rfl

theorem argumentsOnto_eraseAll (nodes : List Node) (rest : Text) :
    argumentsOnto (eraseAll nodes) rest = argumentsOnto nodes rest := by
  match nodes with
  | [] => rfl
  | [e] =>
    simp only [eraseAll, argumentsOnto]
    exact exprOnto_erase false e rest
  | e :: e' :: others =>
    have hrest := argumentsOnto_eraseAll (e' :: others) rest
    simp only [eraseAll, argumentsOnto] at hrest ⊢
    rw [hrest, exprOnto_erase false e]

end

mutual

theorem statementOnto_erase (depth : Nat) (node : Node) (rest : Text) :
    statementOnto depth node.erase rest = statementOnto depth node rest := by
  cases node with
  | binary op left right place =>
    simp only [erase, statementOnto, exprOnto_erase]
  | call callee arguments link place =>
    have hcall := exprOnto_erase false (.call callee arguments link place)
    rw [erase] at hcall
    rw [erase, statementOnto, statementOnto, hcall]
  | exit value place =>
    cases value with
    | absent => rfl
    | _ =>
      rw [erase, statementOnto.eq_4 _ _ _ _ (by simp [erase]), statementOnto.eq_4 _ _ _ _ (by simp),
        exprOnto_erase]
  | branch condition thenBlock elseBlock place =>
    simp only [erase, statementOnto, exprOnto_erase, blockOnto_erase (depth + 1) thenBlock,
      blockOnto_erase (depth + 1) elseBlock]
  | loop condition body place =>
    simp only [erase, statementOnto, exprOnto_erase, blockOnto_erase (depth + 1) body]
  | block statements place =>
    rw [erase, statementOnto, statementOnto, statementsOnto_eraseAll depth statements]
  | absent | literal | name => rfl

theorem blockOnto_erase (depth : Nat) (node : Node) (rest : Text) :
    blockOnto depth node.erase rest = blockOnto depth node rest := by
  cases node with
  | block statements place =>
    rw [erase, blockOnto, blockOnto, statementsOnto_eraseAll depth statements]
  | _ => rfl

theorem statementsOnto_eraseAll (depth : Nat) (nodes : List Node) (rest : Text) :
    statementsOnto depth (eraseAll nodes) rest = statementsOnto depth nodes rest := by
  cases nodes with
  | nil => rfl
  | cons s others =>
    rw [eraseAll, statementsOnto, statementsOnto, statementOnto_erase depth s,
      statementsOnto_eraseAll depth others]

end

end Node

/-! ### Errors -/

/-- A cause without the place it names. -/
def Cause.erase : Cause → Cause
  | valueRedefined earlier name _ => valueRedefined earlier name .unknown
  | procedureRedefined name arity _ => procedureRedefined name arity .unknown
  | cause => cause

@[simp] theorem Cause.kind_erase (c : Cause) : c.erase.kind = c.kind := by
  cases c <;> rfl

@[simp] theorem Cause.name_erase (c : Cause) : c.erase.name = c.name := by
  cases c <;> rfl

namespace CompileError

/-- An error without its position and the place its cause names. -/
def unplaced (e : CompileError) : CompileError :=
  ⟨e.cause.erase, .unknown⟩

theorem kind_of_unplaced {e e' : CompileError} (h : e'.unplaced = e.unplaced) :
    e'.kind = e.kind := by
  rw [kind, kind, ← Cause.kind_erase, ← e.cause.kind_erase]
  exact congrArg (fun e : CompileError => e.cause.kind) h

theorem name_of_unplaced {e e' : CompileError} (h : e'.unplaced = e.unplaced) :
    e'.cause.name = e.cause.name := by
  rw [← Cause.name_erase, ← e.cause.name_erase]
  exact congrArg (fun e : CompileError => e.cause.name) h

end CompileError

/-- A result without positions, `erase` taking them from what there is if nothing is wrong. -/
def CompileError.outline {α : Type} (erase : α → α) (x : Except CompileError α) :
    Except CompileError α :=
  (x.map erase).mapError unplaced

namespace CompileError

variable {α β : Type} {f : α → α} {g : β → β}

theorem outline_bind {x : Except CompileError α} {next next' : α → Except CompileError β}
    (h : ∀ a, next' (f a) = outline g (next a)) :
    outline f x >>= next' = outline g (x >>= next) := by
  cases x with
  | error e => rfl
  | ok a => exact h a

theorem outline_bind_congr {x x' : Except CompileError α} {next next' : α → Except CompileError β}
    (hx : outline f x' = outline f x)
    (h : ∀ a a', f a' = f a → outline g (next' a') = outline g (next a)) :
    outline g (x' >>= next') = outline g (x >>= next) := by
  cases x with
  | error e =>
    cases x' with
    | error e' => exact congrArg Except.error (Except.error.inj hx)
    | ok a' => cases hx
  | ok a =>
    cases x' with
    | error e' => cases hx
    | ok a' => exact h a a' (Except.ok.inj hx)

/-- What comes of a program comes of every program that is equal up to positions. -/
theorem exists_of_outline {x x' : Except CompileError α} {a : α} (h : outline f x' = outline f x)
    (ha : x = .ok a) : ∃ a', x' = .ok a' ∧ f a' = f a := by
  subst ha
  cases x' with
  | error e => cases h
  | ok a' => exact ⟨a', rfl, Except.ok.inj h⟩

theorem exists_of_outline_error {x' : Except CompileError α} {e : CompileError}
    (h : outline f x' = outline f (.error e)) :
    ∃ e', x' = .error e' ∧ e'.unplaced = e.unplaced := by
  cases x' with
  | error e' => exact ⟨e', rfl, Except.error.inj h⟩
  | ok a' => cases h

theorem unplaced_unplaced (e : CompileError) : e.unplaced.unplaced = e.unplaced := by
  obtain ⟨cause, place⟩ := e
  cases cause <;> rfl

theorem outline_outline (h : ∀ a, f (f a) = f a) (x : Except CompileError α) :
    outline f (outline f x) = outline f x := by
  cases x with
  | error e => exact congrArg Except.error e.unplaced_unplaced
  | ok a => exact congrArg Except.ok (h a)

end CompileError

/-! ### Declarations and programs -/

/-- A declaration without its positions. -/
def Declaration.erase (d : Declaration) : Declaration :=
  { d with body := d.body.erase, position := .unknown }

@[simp] theorem Declaration.erase_erase (d : Declaration) : d.erase.erase = d.erase := by
  simp [erase]

namespace Program

/-- A program without its positions. -/
def erase (p : Program) : Program :=
  { p with position := .unknown, decls := p.decls.map Declaration.erase }

variable {p q : Program}

@[simp] theorem erase_erase (p : Program) : p.erase.erase = p.erase := by
  simp [erase, Function.comp_def]

@[simp] theorem decl?_erase (p : Program) (id : DeclId) :
    p.erase.decl? id = (p.decl? id).map Declaration.erase := by
  simp [decl?, erase]

@[simp] theorem table?_erase (p : Program) (t : TableId) : p.erase.table? t = p.table? t := rfl

@[simp] theorem membersOf_erase (p : Program) (t : TableId) :
    p.erase.membersOf t = p.membersOf t := rfl

@[simp] theorem members_erase (p : Program) : p.erase.members = p.members := rfl

@[simp] theorem hasKind_erase (p : Program) (kind : DeclKind) (id : DeclId) :
    p.erase.hasKind kind id = p.hasKind kind id := by
  unfold hasKind
  rw [decl?_erase]
  cases p.decl? id <;> rfl

@[simp] theorem nameOf_erase (p : Program) (id : DeclId) : p.erase.nameOf id = p.nameOf id := by
  unfold nameOf
  rw [decl?_erase]
  cases p.decl? id <;> rfl

@[simp] theorem procedures_erase (p : Program) : p.erase.procedures = p.procedures := by
  rw [procedures, procedures, members_erase]
  exact List.filter_congr fun id _ => hasKind_erase p _ id

@[simp] theorem constants_erase (p : Program) : p.erase.constants = p.constants := by
  rw [constants, constants, members_erase]
  exact List.filter_congr fun id _ => hasKind_erase p _ id

@[simp] theorem localsOf_erase (p : Program) (d : Declaration) :
    p.erase.localsOf d.erase = p.localsOf d := rfl

@[simp] theorem localVariables_erase (p : Program) (d : Declaration) :
    p.erase.localVariables d.erase = p.localVariables d := by
  rw [localVariables, localVariables, localsOf_erase]
  exact List.filter_congr fun id _ => hasKind_erase p _ id

theorem filterMap_decl?_erase (p : Program) (ids : List DeclId) :
    ids.filterMap p.erase.decl? = (ids.filterMap p.decl?).map Declaration.erase := by
  rw [List.map_filterMap, show p.erase.decl? = fun id => (p.decl? id).map Declaration.erase from
    funext (decl?_erase p)]

/-! ### Lookups -/

@[simp] theorem procedureIn?_erase (p : Program) (t : SymbolTable) (name : Text) (arity : Nat) :
    p.erase.procedureIn? t name arity = p.procedureIn? t name arity := by
  refine procedureIn?_congr (fun id => ?_) t name arity
  rw [decl?_erase, Option.map_map]
  rfl

theorem searchFrom_erase (p : Program) (find : SymbolTable → Option DeclId) (table : TableId) :
    p.erase.searchFrom find table = p.searchFrom find table := by
  refine searchFrom_congr (fun s => ?_) table
  rw [table?_erase]

@[simp] theorem lookupValue_erase (p : Program) (table : Option TableId) (name : Text) :
    p.erase.lookupValue table name = p.lookupValue table name := by
  unfold lookupValue
  congr 1
  funext t
  exact searchFrom_erase p _ t

@[simp] theorem lookupProcedure_erase (p : Program) (table : Option TableId) (name : Text)
    (arity : Nat) :
    p.erase.lookupProcedure table name arity = p.lookupProcedure table name arity := by
  simp only [lookupProcedure, procedureIn?_erase]
  congr 1
  funext t
  exact searchFrom_erase p _ t

/-! ### Changes -/

theorem conflict?_erase (p : Program) (t : TableId) (d : Declaration) :
    p.erase.conflict? t d.erase = (p.conflict? t d).map Declaration.erase := by
  unfold conflict?
  rw [table?_erase]
  cases p.table? t with
  | none => rfl
  | some tab =>
    have hdecl (found : Option DeclId) :
        found.bind p.erase.decl? = (found.bind p.decl?).map Declaration.erase := by
      cases found with
      | none => rfl
      | some id => exact decl?_erase p id
    simp only [Option.bind_eq_bind, Option.bind_some, procedureIn?_erase]
    change (if d.isValue = true then (valueIn? tab d.name).bind p.erase.decl?
      else (p.procedureIn? tab d.name d.arity).bind p.erase.decl?) = _
    split
    · exact hdecl _
    · exact hdecl _

/-- A declaration is made without positions as it is made with them, and a redefinition is refused
with the same words. -/
theorem declare_erase (p : Program) (t : TableId) (d : Declaration) :
    p.erase.declare t d.erase = CompileError.outline (Prod.map erase id) (p.declare t d) := by
  rw [declare, declare, conflict?_erase]
  cases p.conflict? t d with
  | none =>
    simp [CompileError.outline, Except.map, erase, Declaration.erase,
      SymbolTable.insert]
  | some earlier =>
    have hvalue : d.erase.isValue = d.isValue := rfl
    simp only [Option.map_some, redefinition, hvalue]
    split <;> rfl

/-- The same declaration can be added to programs that are equal up to positions. -/
theorem exists_declare {p' : Program} (hp : p'.erase = p.erase) {d d' : Declaration}
    (hd : d'.erase = d.erase) {t : TableId} {n : DeclId} (h : p.declare t d = .ok (q, n)) :
    ∃ q', p'.declare t d' = .ok (q', n) ∧ q'.erase = q.erase := by
  have houtline : CompileError.outline (Prod.map erase id) (p'.declare t d') =
      CompileError.outline (Prod.map erase id) (p.declare t d) := by
    rw [← declare_erase, ← declare_erase, hp, hd]
  obtain ⟨⟨q', n'⟩, hq', heq⟩ := CompileError.exists_of_outline houtline h
  simp only [Prod.map_apply, Prod.mk.injEq, id] at heq
  obtain ⟨herase, rfl⟩ := heq
  exact ⟨q', hq', herase⟩

/-- A change that does not look at positions. -/
theorem erase_update (p : Program) (id : DeclId) {f g : Declaration → Declaration}
    (h : ∀ d, (f d).erase = g d.erase) : (p.update id f).erase = p.erase.update id g := by
  have hdecls : (p.decls.modify id f).map Declaration.erase =
      (p.decls.map Declaration.erase).modify id g := by
    apply Array.ext_getElem?
    intro j
    simp only [Array.getElem?_map, Array.getElem?_modify]
    split
    · rw [Option.map_map, Option.map_map]
      congr 1
      funext d
      exact h d
    · rfl
  simp only [erase, update, hdecls]

/-! ### Printing programs -/

theorem procedureText_erase (p : Program) (d : Declaration) :
    p.erase.procedureText d.erase = p.procedureText d := by
  have hname : p.erase.nameOf = p.nameOf := funext (nameOf_erase p)
  simp only [procedureText, hname, localVariables_erase]
  rw [show d.erase.body = d.body.erase from rfl, Node.blockOnto_erase]
  rfl

/-- The text of a program does not depend on positions. -/
theorem print_erase (p : Program) : p.erase.print = p.print := by
  have hprocedure : p.erase.procedureText ∘ Declaration.erase = p.procedureText :=
    funext (procedureText_erase p)
  have hfield : fieldText ∘ Declaration.erase = fieldText := rfl
  simp only [print, members_erase, procedures_erase, filterMap_decl?_erase, List.flatMap_map]
  rw [show (fun d => fieldText (Declaration.erase d)) = fieldText from hfield,
    show (fun d => p.erase.procedureText (Declaration.erase d)) = p.procedureText from hprocedure]
  rfl

end Program

end Classwright
