import Classwright.Declaration
import Classwright.Operator
import Classwright.Source.Position

/-!
# Trees

Statements and expressions.  Names and calls start without a link; name resolution gives each the
declaration it stands for.
-/

namespace Classwright

/-- A statement or an expression. -/
inductive Node where
  /-- No node where one could stand: the value of a bare `return`, or a missing block. -/
  | absent
  /-- A number. -/
  | literal (value : Int32) (position : Position)
  /-- A constant, variable or parameter. -/
  | name (id : Text) (link : Option DeclId) (position : Position)
  /-- An operation, or an assignment to its left side. -/
  | binary (op : Operator) (left right : Node) (position : Position)
  /-- A return statement with the value it returns. -/
  | exit (value : Node) (position : Position)
  /-- A call. -/
  | call (callee : Text) (arguments : List Node) (link : Option DeclId) (position : Position)
  /-- An `if` statement with its two blocks. -/
  | branch (condition thenBlock elseBlock : Node) (position : Position)
  /-- A `while` statement. -/
  | loop (condition body : Node) (position : Position)
  /-- Statements in braces; the position is that of the brace. -/
  | block (statements : List Node) (position : Position)
  deriving Repr, Inhabited

/-- The forms of nodes. -/
inductive NodeForm where
  | absent | literal | name | binary | exit | call | branch | loop | block
  deriving Repr, DecidableEq, Inhabited

namespace Node

/-- The form of a node. -/
def form : Node → NodeForm
  | absent => .absent
  | literal _ _ => .literal
  | name _ _ _ => .name
  | binary _ _ _ _ => .binary
  | exit _ _ => .exit
  | call _ _ _ _ => .call
  | branch _ _ _ _ => .branch
  | loop _ _ _ => .loop
  | block _ _ => .block

mutual

/-- Where a node stands.  A block stands where its first statement does, if it has one. -/
def position : Node → Position
  | absent => .unknown
  | literal _ p | name _ _ p | binary _ _ _ p | exit _ p | call _ _ _ p | branch _ _ _ p
  | loop _ _ p => p
  | block statements p => firstPosition p statements

/-- Where the first of some statements stands, `otherwise` if there is none. -/
def firstPosition (otherwise : Position) : List Node → Position
  | [] => otherwise
  | statement :: _ => statement.position

end

/-- Whether there is a node at all. -/
def isPresent : Node → Bool
  | absent => false
  | _ => true

/-- Whether a node is a return statement. -/
def isExit : Node → Bool
  | exit _ _ => true
  | _ => false

/-- The statements of a block, none for every other node. -/
def statements : Node → List Node
  | block ss _ => ss
  | _ => []

mutual

/-- The nodes of a tree in front of `rest`, as `visit` gives them. -/
def visitOnto (enter : Node → Bool) : Node → List Node → List Node
  | absent, rest => rest
  | literal v p, rest => literal v p :: rest
  | name id link p, rest => name id link p :: rest
  | binary op left right p, rest =>
    let node := binary op left right p
    node :: if enter node then visitOnto enter left (visitOnto enter right rest) else rest
  | exit value p, rest =>
    let node := exit value p
    node :: if enter node then visitOnto enter value rest else rest
  | call callee arguments link p, rest =>
    let node := call callee arguments link p
    node :: if enter node then visitAllOnto enter arguments rest else rest
  | branch condition thenBlock elseBlock p, rest =>
    let node := branch condition thenBlock elseBlock p
    node ::
      if enter node then
        visitOnto enter condition (visitOnto enter thenBlock (visitOnto enter elseBlock rest))
      else
        rest
  | loop condition body p, rest =>
    let node := loop condition body p
    node :: if enter node then visitOnto enter condition (visitOnto enter body rest) else rest
  | block statements p, rest =>
    let node := block statements p
    node :: if enter node then visitAllOnto enter statements rest else rest

/-- The nodes of several trees, one tree after the other, in front of `rest`. -/
def visitAllOnto (enter : Node → Bool) : List Node → List Node → List Node
  | [], rest => rest
  | node :: others, rest => visitOnto enter node (visitAllOnto enter others rest)

end

/-- The nodes of a tree in the order of their first tokens, each in front of its parts.  The parts
of a node that `enter` refuses are left out. -/
def visit (enter : Node → Bool) (node : Node) : List Node :=
  visitOnto enter node []

/-- All nodes of a tree, each in front of its parts. -/
def nodes (node : Node) : List Node :=
  node.visit fun _ => true

end Node

end Classwright
