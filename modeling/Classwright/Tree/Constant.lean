import Classwright.CompileError
import Classwright.Tree.Node

/-!
# Constant expressions

The value of an initializer, which may only use numbers and operators.
-/

namespace Classwright

namespace Node

/-- The value of a constant expression.  Operands are evaluated from left to right, and the first
error wins. -/
def constantValue : Node → Except CompileError Int32
  | literal value _ => .ok value
  | binary .assign _ _ p => .error ⟨.assigningInitializer, p⟩
  | binary op left right p => do
    let x ← constantValue left
    let y ← constantValue right
    match op.compute? x y with
    | some value => .ok value
    | none => .error ⟨.dividingInitializer, p⟩
  | absent => .error ⟨.missingInitializer, .unknown⟩
  | node => .error ⟨.variableInitializer, node.position⟩

end Node

end Classwright
