import Classwright.Emit.Error
import Classwright.Program.Basic
import Mathlib.Data.List.Forall2

/-!
# Relabelled programs

What the names in trees say and where the tokens stand are labels of a program: once names are
linked, the checks and the emission follow the links.  A `Relabelling` puts other names and places
for them, and one that puts the same for all forgets them.  Two programs are the same under a
relabelling (`Relabelling.Identifies`) if they differ in labels only, and in no name of a member of
the class, since these are written to the class file.

Calls keep what they are to: the procedures of a class are members of it.
-/

namespace Classwright

/-- Other names and other places.  Relabelling once more changes nothing. -/
structure Relabelling where
  /-- The name to put for a name. -/
  name : Text → Text
  /-- The place to put for a place. -/
  place : Position → Position
  /-- Names that are put stay. -/
  name_name : ∀ t, name (name t) = name t
  /-- Places that are put stay. -/
  place_place : ∀ p, place (place p) = place p

namespace Relabelling

attribute [simp] name_name place_place

/-- Forgets all places. -/
def unplaced : Relabelling where
  name := id
  place _ := .unknown
  name_name _ := rfl
  place_place _ := rfl

/-- Forgets all names. -/
def unnamed : Relabelling where
  name _ := []
  place := id
  name_name _ := rfl
  place_place _ := rfl

/-- Puts one name for another one. -/
def rename (old new : Text) : Relabelling where
  name t := if t = old then new else t
  place := id
  name_name t := by split <;> simp_all
  place_place _ := rfl

/-- Changes nothing. -/
def same : Relabelling where
  name := id
  place := id
  name_name _ := rfl
  place_place _ := rfl

end Relabelling

/-! ### Trees -/

namespace Node

mutual

/-- A tree with other labels. -/
def relabel (ρ : Relabelling) : Node → Node
  | absent => absent
  | literal v place => literal v (ρ.place place)
  | name id link place => name (ρ.name id) link (ρ.place place)
  | binary op left right place =>
    binary op (relabel ρ left) (relabel ρ right) (ρ.place place)
  | exit value place => exit (relabel ρ value) (ρ.place place)
  | call callee arguments link place =>
    call callee (relabelAll ρ arguments) link (ρ.place place)
  | branch condition thenBlock elseBlock place =>
    branch (relabel ρ condition) (relabel ρ thenBlock) (relabel ρ elseBlock) (ρ.place place)
  | loop condition body place => loop (relabel ρ condition) (relabel ρ body) (ρ.place place)
  | block statements place => block (relabelAll ρ statements) (ρ.place place)

/-- Several trees with other labels. -/
def relabelAll (ρ : Relabelling) : List Node → List Node
  | [] => []
  | node :: rest => relabel ρ node :: relabelAll ρ rest

end

variable (ρ : Relabelling)

theorem relabelAll_eq_map (nodes : List Node) : relabelAll ρ nodes = nodes.map (relabel ρ) := by
  induction nodes with
  | nil => rfl
  | cons node rest ih => rw [relabelAll, ih, List.map_cons]

mutual

/-- Trees that are relabelled twice are relabelled by the second relabelling, if it puts the same
for what the first one puts. -/
theorem relabel_relabel {ρ σ : Relabelling} (hname : ∀ t, ρ.name (σ.name t) = ρ.name t)
    (hplace : ∀ p, ρ.place (σ.place p) = ρ.place p) :
    ∀ node : Node, (node.relabel σ).relabel ρ = node.relabel ρ
  | absent => rfl
  | literal _ _ | name _ _ _ => by simp only [relabel, hname, hplace]
  | binary _ left right _ => by
    simp only [relabel, hplace, relabel_relabel hname hplace left,
      relabel_relabel hname hplace right]
  | exit value _ => by simp only [relabel, hplace, relabel_relabel hname hplace value]
  | call _ arguments _ _ => by
    simp only [relabel, hplace, relabelAll_relabelAll hname hplace arguments]
  | branch condition thenBlock elseBlock _ => by
    simp only [relabel, hplace, relabel_relabel hname hplace condition,
      relabel_relabel hname hplace thenBlock, relabel_relabel hname hplace elseBlock]
  | loop condition body _ => by
    simp only [relabel, hplace, relabel_relabel hname hplace condition,
      relabel_relabel hname hplace body]
  | block statements _ => by
    simp only [relabel, hplace, relabelAll_relabelAll hname hplace statements]

theorem relabelAll_relabelAll {ρ σ : Relabelling} (hname : ∀ t, ρ.name (σ.name t) = ρ.name t)
    (hplace : ∀ p, ρ.place (σ.place p) = ρ.place p) :
    ∀ nodes : List Node, relabelAll ρ (relabelAll σ nodes) = relabelAll ρ nodes
  | [] => rfl
  | node :: rest => by
    simp only [relabelAll, relabel_relabel hname hplace node,
      relabelAll_relabelAll hname hplace rest]

end

mutual

/-- Changing no label changes no tree. -/
@[simp] theorem relabel_same : ∀ node : Node, node.relabel .same = node
  | absent | literal _ _ | name _ _ _ => rfl
  | binary _ left right _ => by
    rw [relabel, relabel_same left, relabel_same right]
    rfl
  | exit value _ => by
    rw [relabel, relabel_same value]
    rfl
  | call _ arguments _ _ => by
    rw [relabel, relabelAll_same arguments]
    rfl
  | branch condition thenBlock elseBlock _ => by
    rw [relabel, relabel_same condition, relabel_same thenBlock, relabel_same elseBlock]
    rfl
  | loop condition body _ => by
    rw [relabel, relabel_same condition, relabel_same body]
    rfl
  | block statements _ => by
    rw [relabel, relabelAll_same statements]
    rfl

theorem relabelAll_same : ∀ nodes : List Node, relabelAll .same nodes = nodes
  | [] => rfl
  | node :: rest => by rw [relabelAll, relabel_same node, relabelAll_same rest]

end

mutual

/-- A relabelled tree stands where the tree stands, as far as the relabelling can tell. -/
@[simp] theorem place_position_relabel (node : Node) :
    ρ.place (node.relabel ρ).position = ρ.place node.position := by
  cases node with
  | absent => rfl
  | block statements place => exact place_firstPosition_relabelAll place statements
  | _ => exact ρ.place_place _

theorem place_firstPosition_relabelAll (place : Position) (nodes : List Node) :
    ρ.place (firstPosition (ρ.place place) (relabelAll ρ nodes)) =
      ρ.place (firstPosition place nodes) := by
  cases nodes with
  | nil => exact ρ.place_place place
  | cons node rest => exact place_position_relabel node

end

@[simp] theorem isPresent_relabel (node : Node) :
    (node.relabel ρ).isPresent = node.isPresent := by
  cases node <;> rfl

end Node

/-! ### Errors -/

/-- A cause with other names of values and procedures; a call keeps what it is to. -/
def Cause.relabel (name : Text → Text) : Cause → Cause
  | undefinedName t => undefinedName (name t)
  | assignToFinal t => assignToFinal (name t)
  | missingReturnValue t => missingReturnValue (name t)
  | unexpectedReturnValue t => unexpectedReturnValue (name t)
  | missingReturn t => missingReturn (name t)
  | maybeUninitialized t => maybeUninitialized (name t)
  | methodExceedsLimit t => methodExceedsLimit (name t)
  | methodTooLong t length => methodTooLong (name t) length
  | cause => cause

namespace Relabelling

variable (ρ : Relabelling)

/-- An error of a check with other labels. -/
def error (e : CompileError) : CompileError :=
  ⟨e.cause.relabel ρ.name, ρ.place e.position⟩

/-- Changing no label changes no error. -/
@[simp] theorem error_same (e : CompileError) : error .same e = e := by
  obtain ⟨cause, place⟩ := e
  cases cause <;> rfl

/-- An error of the emitter with other labels. -/
def emitError : EmitError → EmitError
  | .compile e => .compile (ρ.error e)
  | .unexpectedMember kind t => .unexpectedMember kind (ρ.name t)
  | .noIntegerEntry t => .noIntegerEntry (ρ.name t)
  | .unexpectedStatement form place => .unexpectedStatement form (ρ.place place)
  | .unexpectedExpression form place => .unexpectedExpression form (ρ.place place)
  | .unexpectedOperator op place => .unexpectedOperator op (ρ.place place)
  | .noLiteralEntry value place => .noLiteralEntry value (ρ.place place)
  | .noReference t => .noReference (ρ.name t)
  | e => e

end Relabelling

/-! ### Declarations and programs -/

/-- A declaration with other labels. -/
def Declaration.relabel (ρ : Relabelling) (d : Declaration) : Declaration :=
  { d with name := ρ.name d.name, body := d.body.relabel ρ, position := ρ.place d.position }

/-- Two programs are the same under a relabelling. -/
structure Relabelling.Identifies (ρ : Relabelling) (q p : Program) : Prop where
  /-- The classes have one name. -/
  name : q.name = p.name
  /-- They stand at one place. -/
  place : ρ.place q.position = ρ.place p.position
  /-- The declarations are the same. -/
  decl : ∀ id, (q.decl? id).map (Declaration.relabel ρ) = (p.decl? id).map (Declaration.relabel ρ)
  /-- The tables list the same. -/
  listed : ∀ t, q.membersOf t = p.membersOf t
  /-- The members of the class have their names. -/
  member : ∀ id ∈ p.members, q.nameOf id = p.nameOf id

/-- Two members of a class are the same under a relabelling. -/
structure Relabelling.IdentifiesMembers (ρ : Relabelling) (d' d : Declaration) : Prop where
  /-- They differ in labels only. -/
  relabel : d'.relabel ρ = d.relabel ρ
  /-- They have one name. -/
  name : d'.name = d.name

namespace Relabelling.Identifies

variable {ρ : Relabelling} {p q : Program}

theorem refl (p : Program) : ρ.Identifies p p :=
  ⟨rfl, rfl, fun _ => rfl, fun _ => rfl, fun _ _ => rfl⟩

variable (h : ρ.Identifies q p)

include h

theorem decl?_cases (id : DeclId) :
    (q.decl? id = none ∧ p.decl? id = none) ∨
      ∃ d' d, q.decl? id = some d' ∧ p.decl? id = some d ∧ d'.relabel ρ = d.relabel ρ := by
  have hdecl := h.decl id
  cases hq : q.decl? id with
  | none =>
    rw [hq, Option.map_none, eq_comm, Option.map_eq_none_iff] at hdecl
    exact Or.inl ⟨rfl, hdecl⟩
  | some d' =>
    rw [hq, Option.map_some, eq_comm, Option.map_eq_some_iff] at hdecl
    obtain ⟨d, hp, hd⟩ := hdecl
    exact Or.inr ⟨d', d, rfl, hp, hd.symm⟩

theorem hasKind (kind : DeclKind) (id : DeclId) : q.hasKind kind id = p.hasKind kind id := by
  unfold Program.hasKind
  rcases h.decl?_cases id with ⟨hq, hp⟩ | ⟨d', d, hq, hp, hd⟩
  · rw [hq, hp]
  · have hkind : d'.kind = d.kind := (congrArg Declaration.kind hd :)
    simp only [hq, hp, hkind]

theorem isLocalVariable (id : DeclId) : q.isLocalVariable id = p.isLocalVariable id := by
  unfold Program.isLocalVariable
  rcases h.decl?_cases id with ⟨hq, hp⟩ | ⟨d', d, hq, hp, hd⟩
  · rw [hq, hp]
  · have hkind : d'.kind = d.kind := (congrArg Declaration.kind hd :)
    have htable : d'.table = d.table := (congrArg Declaration.table hd :)
    simp only [hq, hp, hkind, htable]

theorem returnsValue (link : Option DeclId) : q.returnsValue link = p.returnsValue link := by
  cases link with
  | none => rfl
  | some id =>
    unfold Program.returnsValue
    rw [Option.bind_some, Option.bind_some]
    rcases h.decl?_cases id with ⟨hq, hp⟩ | ⟨d', d, hq, hp, hd⟩
    · rw [hq, hp]
    · have htype : d'.type = d.type := (congrArg Declaration.type hd :)
      simp only [hq, hp, htype]

theorem nameOf (id : DeclId) : ρ.name (q.nameOf id) = ρ.name (p.nameOf id) := by
  unfold Program.nameOf
  rcases h.decl?_cases id with ⟨hq, hp⟩ | ⟨d', d, hq, hp, hd⟩
  · rw [hq, hp]
  · simp only [hq, hp]
    exact congrArg Declaration.name hd

theorem members : q.members = p.members :=
  h.listed Program.classTable

theorem localsOf {d' d : Declaration} (hd : d'.relabel ρ = d.relabel ρ) :
    q.localsOf d' = p.localsOf d := by
  have hlocals : d'.locals = d.locals := (congrArg Declaration.locals hd :)
  unfold Program.localsOf
  rw [hlocals]
  cases d.locals with
  | none => rfl
  | some t => exact h.listed t

theorem procedures : q.procedures = p.procedures := by
  rw [Program.procedures, Program.procedures, h.members]
  exact List.filter_congr fun id _ => h.hasKind .procedure id

theorem constants : q.constants = p.constants := by
  rw [Program.constants, Program.constants, h.members]
  exact List.filter_congr fun id _ => h.hasKind .constant id

/-- A member of the one class goes with the same member of the other. -/
theorem decl?_member {id : DeclId} (hid : id ∈ p.members) :
    (q.decl? id = none ∧ p.decl? id = none) ∨
      ∃ d' d, q.decl? id = some d' ∧ p.decl? id = some d ∧ ρ.IdentifiesMembers d' d := by
  rcases h.decl?_cases id with hnone | ⟨d', d, hq, hp, hd⟩
  · exact Or.inl hnone
  · have hname := h.member id hid
    simp only [Program.nameOf, hq, hp] at hname
    exact Or.inr ⟨d', d, hq, hp, hd, hname⟩

/-- Members go together in order. -/
theorem forall₂_decl? {ids : List DeclId} (hids : ∀ id ∈ ids, id ∈ p.members) :
    List.Forall₂ ρ.IdentifiesMembers (ids.filterMap q.decl?) (ids.filterMap p.decl?) := by
  induction ids with
  | nil => exact .nil
  | cons id rest ih =>
    rw [List.forall_mem_cons] at hids
    rcases h.decl?_member hids.1 with ⟨hq, hp⟩ | ⟨d', d, hq, hp, hd⟩
    · rw [List.filterMap_cons_none hq, List.filterMap_cons_none hp]
      exact ih hids.2
    · rw [List.filterMap_cons_some hq, List.filterMap_cons_some hp]
      exact .cons hd (ih hids.2)

/-- So do procedures. -/
theorem forall₂_procedures : List.Forall₂ ρ.IdentifiesMembers
    (q.procedures.filterMap q.decl?) (p.procedures.filterMap p.decl?) := by
  rw [h.procedures]
  exact h.forall₂_decl? fun id hid => (List.mem_filter.1 hid).1

end Relabelling.Identifies

end Classwright
