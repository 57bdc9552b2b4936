import Classwright.CompileError
import Classwright.Tree.Node

/-!
# Control flow

Two rules about how statements end.  The *terminating* rule, by which unreachable code and missing
returns are reported, counts a loop as final when its body is; the *completing* rule, by which code
is laid out, counts every loop as one that may end.
-/

namespace Classwright

namespace Node

mutual

/-- Whether control never reaches what follows: a return, a loop whose body is terminating, an
`if` whose branches both are, or a block with a terminating statement. -/
def terminates : Node → Bool
  | exit _ _ => true
  | loop _ body _ => terminates body
  | branch _ thenBlock elseBlock _ => terminates thenBlock && terminates elseBlock
  | block statements _ => anyTerminates statements
  | _ => false

/-- Whether one of several statements is terminating. -/
def anyTerminates : List Node → Bool
  | [] => false
  | s :: rest => terminates s || anyTerminates rest

end

mutual

/-- Whether running a statement can end with the statement behind it next.  A loop always can,
since its condition may fail. -/
def completes : Node → Bool
  | exit _ _ => false
  | branch _ thenBlock elseBlock _ => completes thenBlock || completes elseBlock
  | block statements _ => allComplete statements
  | _ => true

/-- Whether every one of several statements can end normally. -/
def allComplete : List Node → Bool
  | [] => true
  | s :: rest => completes s && allComplete rest

end

mutual

/-- Refuses a statement in the blocks of `if` and `while` that follows a terminating one. -/
def checkReachable : Node → Except CompileError Unit
  | branch _ thenBlock elseBlock _ => do
    checkReachableIn thenBlock
    checkReachableIn elseBlock
  | loop _ body _ => checkReachableIn body
  | _ => .ok ()

/-- Refuses the first statement of a block, at any depth, that follows a terminating one. -/
def checkReachableIn : Node → Except CompileError Unit
  | block statements _ => checkReachableAll statements
  | _ => .ok ()

/-- Refuses the first of several statements that follows a terminating one. -/
def checkReachableAll : List Node → Except CompileError Unit
  | [] => .ok ()
  | s :: rest => do
    checkReachable s
    match rest with
    | [] => .ok ()
    | next :: _ =>
      if s.terminates then .error ⟨.unreachableCode, next.position⟩ else checkReachableAll rest

end

end Node

end Classwright
