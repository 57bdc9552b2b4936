import Classwright.Parser.Step
import Classwright.Tree.Node

/-!
# Expressions

The grammar is `expr = simple [comparison simple]`, `simple = term {(+|-) term}`,
`term = factor {(*|/) factor}` and
`factor = number | name | name "(" [expr {"," expr}] ")" | "(" expr ")"`.

Operands that wait for the right side of their operator are kept on a stack, on which the
operators bind more and more tightly from the bottom to the top; an operator that binds no tighter
than the topmost one first completes it.  All operators associate to the left.
-/

namespace Classwright

namespace Parser

/-- The operator a token stands for in an expression. -/
def operatorOf? : TokenKind → Option Operator
  | .equal => some .equal
  | .less => some .less
  | .lessEqual => some .lessEqual
  | .greater => some .greater
  | .greaterEqual => some .greaterEqual
  | .plus => some .add
  | .minus => some .subtract
  | .times => some .multiply
  | .divide => some .divide
  | _ => none

/-- Left operands with their operators that wait for a right side, the latest first. -/
abbrev Pending := List (Node × Operator)

namespace Pending

/-- Completes the waiting operations that bind at least as tightly as `least`, with `value` as the
right side of the latest. -/
def reduce (least : Nat) : Pending → Node → Pending × Node
  | [], value => ([], value)
  | (left, op) :: rest, value =>
    if least ≤ op.priority then reduce least rest (.binary op left value left.position)
    else ((left, op) :: rest, value)

/-- Lets an operand wait for the right side of the operator behind it. -/
def push (pending : Pending) (value : Node) (op : Operator) : Pending :=
  let (rest, left) := pending.reduce op.priority value
  (left, op) :: rest

/-- Completes everything that waits. -/
def close (pending : Pending) (value : Node) : Node :=
  (pending.reduce 0 value).2

/-- Whether a comparison waits for its right side. -/
def compares (pending : Pending) : Bool :=
  pending.any fun waiting => waiting.2.isComparison

end Pending

/-- The tree of a row of operands with operators between them. -/
def assemble (pending : Pending) (value : Node) : List (Operator × Node) → Node
  | [] => pending.close value
  | (op, operand) :: rest => assemble (pending.push value op) operand rest

/-- A parenthesis that is open in an expression, with what waits outside it. -/
inductive Opening where
  /-- A parenthesis around an operand. -/
  | group (outer : Pending)
  /-- The parenthesis of a call, with the arguments read so far, the latest first. -/
  | arguments (callee : Text) (place : Position) (done : List Node) (outer : Pending)
  deriving Inhabited

/-- The states of reading an expression. -/
inductive ExprState where
  /-- An operand must come. -/
  | operand (openings : List Opening) (pending : Pending)
  /-- A name has just been read; a parenthesis makes it a call. -/
  | identifier (openings : List Opening) (pending : Pending) (id : Text) (place : Position)
  /-- Another operand has just been read. -/
  | operator (openings : List Opening) (pending : Pending) (value : Node)
  deriving Inhabited

namespace ExprState

/-- Before the first token of an expression. -/
def start : ExprState := .operand [] []

/-- Behind the name and the parenthesis of a call. -/
def startCall (callee : Text) (place : Position) : ExprState :=
  .operand [.arguments callee place [] []] []

/-- The expression that ends here, unless a parenthesis is open. -/
def closeAll (openings : List Opening) (value : Node) : Except Expectation Node :=
  match openings with
  | [] => .ok value
  | .group _ :: _ => .error .rightParen
  | .arguments _ _ _ _ :: _ => .error .rightParenOrComma

/-- The expression that the tokens form if no more of them come. -/
def finish : ExprState → Except Expectation Node
  | .operand _ _ => .error .moreTokens
  | .identifier openings pending id place => closeAll openings (pending.close (.name id none place))
  | .operator openings pending value => closeAll openings (pending.close value)

/-- The step from a state in which the operand `value` has just been read. -/
def stepValue (openings : List Opening) (pending : Pending) (value : Node) (t : Token) :
    Step ExprState Complaint Node :=
  match operatorOf? t.kind with
  | some op =>
    if op.isComparison && pending.compares then .fail .secondComparison
    else .shift (.operand openings (pending.push value op))
  | none =>
    match openings, t.kind with
    | .group outer :: rest, .rightParen => .shift (.operator rest outer (pending.close value))
    | .arguments callee place done outer :: rest, .comma =>
      .shift (.operand (.arguments callee place (pending.close value :: done) outer :: rest) [])
    | .arguments callee place done outer :: rest, .rightParen =>
      .shift (.operator rest outer
        (.call callee (pending.close value :: done).reverse none place))
    | openings, _ =>
      match closeAll openings (pending.close value) with
      | .ok e => .done e
      | .error what => .fail (.expected what)

/-- The step from a state in which an operand must come.  Right behind the parenthesis of a call
the call may also be closed. -/
def stepOperand (openings : List Opening) (pending : Pending) (t : Token) :
    Step ExprState Complaint Node :=
  match t.kind with
  | .number => .shift (.operator openings pending (.literal t.value t.position))
  | .identifier => .shift (.identifier openings pending t.content t.position)
  | .leftParen => .shift (.operand (.group pending :: openings) [])
  | .rightParen =>
    match openings, pending with
    | .arguments callee place [] outer :: rest, [] =>
      .shift (.operator rest outer (.call callee [] none place))
    | _, _ => .fail (.expected .expression)
  | _ => .fail (.expected .expression)

/-- The step a token leads to. -/
def step (s : ExprState) (t : Token) : Step ExprState Complaint Node :=
  match s with
  | .operand openings pending => stepOperand openings pending t
  | .identifier openings pending id place =>
    if t.kind = .leftParen then
      .shift (.operand (.arguments id place [] pending :: openings) [])
    else
      stepValue openings pending (.name id none place) t
  | .operator openings pending value => stepValue openings pending value t

/-- Reads the longest expression at the front of some tokens. -/
def run (ending : Position) (s : ExprState) : List Token → Except CompileError (Node × List Token)
  | [] =>
    match s.finish with
    | .ok e => .ok (e, [])
    | .error what => .error ((Objection.expected what).error ending none)
  | t :: rest =>
    match s.step t with
    | .shift next => run ending next rest
    | .done e => .ok (e, t :: rest)
    | .fail c => .error ((Objection.plain c).error ending (some t))

end ExprState

/-- The expression at the front of some tokens, and the tokens behind it. -/
def parseExpression (tokens : List Token) : Except CompileError (Node × List Token) :=
  ExprState.start.run (endOfTokens tokens) tokens

end Parser

end Classwright
