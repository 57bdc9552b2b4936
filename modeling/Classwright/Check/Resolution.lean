import Classwright.Program.Basic

/-!
# Name resolution

Links every name and call of every procedure to its declaration.  A name is looked up among the
parameters and local variables of its procedure and then in the class, a call among the procedures
of the class by name and number of arguments.  Resolution stops at the first name that stands for
nothing and keeps the links made before.
-/

namespace Classwright

namespace Node

mutual

/-- Links the names and calls of a tree, from left to right and arguments in front of their call,
up to the first error. -/
def resolve (p : Program) (table : Option TableId) : Node → Node × Option CompileError
  | name id _ place =>
    match p.lookupValue table id with
    | some link => (name id (some link) place, none)
    | none => (name id none place, some ⟨.undefinedName id, place⟩)
  | binary op left right place =>
    match resolve p table left with
    | (left, some e) => (binary op left right place, some e)
    | (left, none) =>
      let (right, e) := resolve p table right
      (binary op left right place, e)
  | exit value place =>
    let (value, e) := resolve p table value
    (exit value place, e)
  | call callee arguments link place =>
    match resolveAll p table arguments with
    | (arguments, some e) => (call callee arguments link place, some e)
    | (arguments, none) =>
      match p.lookupProcedure table callee arguments.length with
      | some link => (call callee arguments (some link) place, none)
      | none =>
        (call callee arguments none place,
          some ⟨.noMatchingProcedure callee arguments.length, place⟩)
  | branch condition thenBlock elseBlock place =>
    match resolve p table condition with
    | (condition, some e) => (branch condition thenBlock elseBlock place, some e)
    | (condition, none) =>
      match resolve p table thenBlock with
      | (thenBlock, some e) => (branch condition thenBlock elseBlock place, some e)
      | (thenBlock, none) =>
        let (elseBlock, e) := resolve p table elseBlock
        (branch condition thenBlock elseBlock place, e)
  | loop condition body place =>
    match resolve p table condition with
    | (condition, some e) => (loop condition body place, some e)
    | (condition, none) =>
      let (body, e) := resolve p table body
      (loop condition body place, e)
  | block statements place =>
    let (statements, e) := resolveAll p table statements
    (block statements place, e)
  | node => (node, none)

/-- Links several trees one after the other, up to the first error. -/
def resolveAll (p : Program) (table : Option TableId) :
    List Node → List Node × Option CompileError
  | [] => ([], none)
  | node :: rest =>
    match resolve p table node with
    | (node, some e) => (node :: rest, some e)
    | (node, none) =>
      let (rest, e) := resolveAll p table rest
      (node :: rest, e)

end

end Node

namespace Program

/-- Links the tree of one procedure. -/
def resolveProcedure (p : Program) (id : DeclId) : Program × Option CompileError :=
  match p.decl? id with
  | none => (p, none)
  | some d =>
    let (body, e) := d.body.resolve p d.locals
    (p.update id fun d => { d with body }, e)

/-- Links the trees of several procedures, up to the first error. -/
def resolveProcedures (p : Program) : List DeclId → Program × Option CompileError
  | [] => (p, none)
  | id :: rest =>
    match p.resolveProcedure id with
    | (p, some e) => (p, some e)
    | (p, none) => p.resolveProcedures rest

/-- Links the trees of all procedures, in the order of their declarations. -/
def resolve (p : Program) : Program × Option CompileError :=
  p.resolveProcedures p.procedures

end Program

end Classwright
