import Classwright.CompileError
import Classwright.Tree.Node

/-!
# Errors of the emitter

A program that passed all checks can only hit a limit of the class-file format, which is a compile
error.  The other errors are about programs that were put together without the checks.
-/

namespace Classwright

/-- Why no class file can be made. -/
inductive EmitError where
  /-- A limit of the class-file format. -/
  | compile (error : CompileError)
  /-- An entry is added to a frozen pool. -/
  | frozenPool
  /-- A declaration of the class is neither a field nor a procedure. -/
  | unexpectedMember (kind : DeclKind) (name : Text)
  /-- The value of a constant is not in the pool. -/
  | noIntegerEntry (name : Text)
  /-- A string is not in the pool. -/
  | noUtf8Entry (text : Text)
  /-- A node is no statement. -/
  | unexpectedStatement (form : NodeForm) (place : Position)
  /-- A node is no expression. -/
  | unexpectedExpression (form : NodeForm) (place : Position)
  /-- An operator computes nothing. -/
  | unexpectedOperator (op : Operator) (place : Position)
  /-- A number that must be loaded from the pool is not in it. -/
  | noLiteralEntry (value : Int32) (place : Position)
  /-- A declaration has no reference in the pool. -/
  | noReference (name : Text)
  deriving Repr, DecidableEq, Inhabited

/-- The name of a form of nodes in messages. -/
def NodeForm.typeName : NodeForm → String
  | .absent => "<nil>"
  | .literal => "*internal.ConstNode"
  | .name => "*internal.IdentNode"
  | .binary => "*internal.BinaryNode"
  | .exit => "*internal.UnaryNode"
  | .call => "*internal.CallNode"
  | .branch => "*internal.IfNode"
  | .loop => "*internal.WhileNode"
  | .block => "*internal.SeqNode"

namespace EmitError

/-- The wording of an error. -/
def message : EmitError → String
  | compile error => error.message
  | frozenPool => "constant pool: entry added after freeze"
  | unexpectedMember kind name =>
    s!"constant pool: unexpected {kind.word} {name.shown} in class table"
  | noIntegerEntry name => s!"member pool: no Integer entry for constant {name.shown}"
  | noUtf8Entry text => s!"member pool: {text.quoted} is not in the constant pool"
  | unexpectedStatement form place =>
    s!"emitter: unexpected statement {form.typeName} at {place.text}"
  | unexpectedExpression form place =>
    s!"emitter: unexpected expression {form.typeName} at {place.text}"
  | unexpectedOperator op place => s!"emitter: unexpected operator {op.symbol} at {place.text}"
  | noLiteralEntry value place =>
    s!"emitter: literal {value.toInt} at {place.text} has no constant pool entry"
  | noReference name => s!"emitter: {name.shown} has no constant pool reference"

end EmitError

end Classwright
