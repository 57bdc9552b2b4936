import Std.Data.HashMap
import Classwright.CompileError
import Classwright.Tree.Node

/-!
# Programs

A program is one class: its declarations, numbered in the order they were made, and its symbol
tables.  Table 0 belongs to the class itself, every other table to a procedure.  A table lists its
declarations in order and keeps two indexes by name, one of values and one of procedures; values
are unique by name within a table, procedures by name and number of parameters.
-/

namespace Classwright

/-- A declaration of a program. -/
structure Declaration where
  /-- What is declared. -/
  kind : DeclKind
  /-- Its name. -/
  name : Text
  /-- The type of a value, or what a procedure returns. -/
  type : ValueType := .int
  /-- The value of a constant. -/
  value : Int32 := 0
  /-- The parameters of a procedure. -/
  params : List (Option DeclId) := []
  /-- The table of the parameters and local variables of a procedure. -/
  locals : Option TableId := none
  /-- The statements of a procedure. -/
  body : Node := .absent
  /-- The table the declaration was made in. -/
  table : TableId := 0
  /-- Where its name stands. -/
  position : Position := .unknown
  deriving Repr, Inhabited

namespace Declaration

/-- Whether a name in an expression may stand for the declaration. -/
def isValue (d : Declaration) : Bool :=
  d.kind != .procedure

/-- The number of parameters. -/
def arity (d : Declaration) : Nat :=
  d.params.length

/-- The class-file descriptor: of a procedure the one of its parameters and result, else the one of
its type. -/
def descriptor (d : Declaration) : Text :=
  if d.isValue then Text.ofString d.type.descriptor else procedureDescriptor d.arity d.type

end Declaration

/-- A symbol table. -/
structure SymbolTable where
  /-- The table around this one. -/
  parent : Option TableId := none
  /-- The procedure a local table belongs to. -/
  owner : Option DeclId := none
  /-- The declarations, in order. -/
  members : Array DeclId := #[]
  /-- The first value of each name. -/
  values : Std.HashMap Text DeclId := {}
  /-- The procedures of each name, in order. -/
  procedures : Std.HashMap Text (List DeclId) := {}
  deriving Inhabited

namespace SymbolTable

/-- Adds a declaration at the end. -/
def insert (t : SymbolTable) (id : DeclId) (d : Declaration) : SymbolTable :=
  match d.kind with
  | .procedure =>
    { t with
      members := t.members.push id
      procedures := t.procedures.insert d.name (t.procedures.getD d.name [] ++ [id]) }
  | _ =>
    { t with
      members := t.members.push id
      values := if t.values.contains d.name then t.values else t.values.insert d.name id }

end SymbolTable

/-- A class with its declarations and symbol tables. -/
structure Program where
  /-- The name of the class. -/
  name : Text
  /-- Where the name stands. -/
  position : Position
  /-- The declarations. -/
  decls : Array Declaration := #[]
  /-- The symbol tables. -/
  tables : Array SymbolTable := #[{}]
  deriving Inhabited

namespace Program

/-- The table of the class itself. -/
def classTable : TableId := 0

/-- A class without declarations. -/
def empty (name : Text) (position : Position) : Program :=
  { name, position }

/-- The declaration with a given number. -/
def decl? (p : Program) (id : DeclId) : Option Declaration :=
  p.decls[id]?

/-- The table with a given number. -/
def table? (p : Program) (id : TableId) : Option SymbolTable :=
  p.tables[id]?

/-- The declarations of a table, in order; none for a table that does not exist. -/
def membersOf (p : Program) (id : TableId) : List DeclId :=
  match p.table? id with
  | some t => t.members.toList
  | none => []

/-- Adds an empty table. -/
def addTable (p : Program) (parent : Option TableId) (owner : Option DeclId) :
    Program × TableId :=
  ({ p with tables := p.tables.push { parent, owner } }, p.tables.size)

/-- The value with a given name in one table. -/
def valueIn? (t : SymbolTable) (name : Text) : Option DeclId :=
  t.values[name]?

/-- The procedure with a given name and number of parameters in one table. -/
def procedureIn? (p : Program) (t : SymbolTable) (name : Text) (arity : Nat) : Option DeclId :=
  (t.procedures.getD name []).find? fun id =>
    match p.decl? id with
    | some d => d.arity == arity
    | none => false

/-- The declaration of a table that a new one would redefine. -/
def conflict? (p : Program) (table : TableId) (d : Declaration) : Option Declaration := do
  let t ← p.table? table
  let id ← if d.isValue then valueIn? t d.name else p.procedureIn? t d.name d.arity
  p.decl? id

/-- The error for a declaration that redefines an earlier one. -/
def redefinition (d earlier : Declaration) : CompileError :=
  if d.isValue then ⟨.valueRedefined earlier.kind d.name earlier.position, d.position⟩
  else ⟨.procedureRedefined d.name d.arity earlier.position, d.position⟩

/-- Adds a declaration to a table, unless it redefines one of the same table. -/
def declare (p : Program) (table : TableId) (d : Declaration) :
    Except CompileError (Program × DeclId) :=
  match p.conflict? table d with
  | some earlier => .error (redefinition d earlier)
  | none =>
    let id := p.decls.size
    .ok ({ p with
      decls := p.decls.push { d with table }
      tables := p.tables.modify table (·.insert id d) }, id)

/-- Changes a declaration. -/
def update (p : Program) (id : DeclId) (f : Declaration → Declaration) : Program :=
  { p with decls := p.decls.modify id f }

/-- Searches a table and then the tables around it, each of which has a smaller number. -/
def searchFrom (p : Program) (find : SymbolTable → Option DeclId) (table : TableId) :
    Option DeclId :=
  match p.table? table with
  | none => none
  | some t =>
    match find t with
    | some id => some id
    | none =>
      match t.parent with
      | some outer => if outer < table then p.searchFrom find outer else none
      | none => none
termination_by table

/-- The constant, variable or parameter a name stands for in a table. -/
def lookupValue (p : Program) (table : Option TableId) (name : Text) : Option DeclId :=
  table.bind (p.searchFrom fun t => valueIn? t name)

/-- The procedure a call stands for in a table. -/
def lookupProcedure (p : Program) (table : Option TableId) (name : Text) (arity : Nat) :
    Option DeclId :=
  table.bind (p.searchFrom fun t => p.procedureIn? t name arity)

/-- The declarations of the class, in order. -/
def members (p : Program) : List DeclId :=
  p.membersOf classTable

/-- Whether a declaration exists and is of a given kind. -/
def hasKind (p : Program) (kind : DeclKind) (id : DeclId) : Bool :=
  match p.decl? id with
  | some d => d.kind == kind
  | none => false

/-- The procedures of the class, in order. -/
def procedures (p : Program) : List DeclId :=
  p.members.filter (p.hasKind .procedure)

/-- The constants of the class, in order. -/
def constants (p : Program) : List DeclId :=
  p.members.filter (p.hasKind .constant)

/-- The parameters and local variables of a procedure, in order. -/
def localsOf (p : Program) (procedure : Declaration) : List DeclId :=
  match procedure.locals with
  | some table => p.membersOf table
  | none => []

/-- The local variables of a procedure without its parameters, in order. -/
def localVariables (p : Program) (procedure : Declaration) : List DeclId :=
  (p.localsOf procedure).filter (p.hasKind .var)

/-- Whether a declaration is a variable of a procedure. -/
def isLocalVariable (p : Program) (id : DeclId) : Bool :=
  match p.decl? id with
  | some d => d.kind == .var && d.table != classTable
  | none => false

/-- Whether a declaration is a parameter or a variable of a procedure. -/
def isLocal (p : Program) (id : DeclId) : Bool :=
  p.hasKind .parameter id || p.isLocalVariable id

/-- The name of a declaration, empty for one that does not exist. -/
def nameOf (p : Program) (id : DeclId) : Text :=
  match p.decl? id with
  | some d => d.name
  | none => []

/-- Whether a call is linked to a procedure that returns a number. -/
def returnsValue (p : Program) (link : Option DeclId) : Bool :=
  match link.bind p.decl? with
  | some d => d.type == .int
  | none => false

/-- Lists a declaration of the class `n` more times, without any check. -/
def repeatMember (p : Program) (id : DeclId) (n : Nat) : Program :=
  { p with
    tables := p.tables.modify classTable fun t =>
      { t with members := t.members ++ Array.replicate n id } }

end Program

end Classwright
