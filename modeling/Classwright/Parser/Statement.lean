import Classwright.Parser.Expression

/-!
# Statements

The grammar is

    stmt   = name "=" expr ";" | name "(" [expr {"," expr}] ")" ";" | "return" [expr] ";"
           | "if" "(" expr ")" block ["else" block] | "while" "(" expr ")" block
    block  = "{" {stmt} "}"

An `if` without `else` gets an empty block at its own position, and an empty `else` block stands
where its keyword does.  Every mismatch between `if` or `while` and the parenthesis that closes the
condition is reported as a bad condition.
-/

namespace Classwright

namespace Parser

/-- What an open block belongs to. -/
inductive BlockOwner where
  /-- The block that is asked for. -/
  | goal
  /-- The first block of an `if`. -/
  | thenOf (place : Position) (condition : Node)
  /-- The second block of an `if`. -/
  | elseOf (place : Position) (condition thenBlock : Node) (elsePlace : Position)
  /-- The block of a `while`. -/
  | bodyOf (place : Position) (condition : Node)
  deriving Inhabited

/-- A block that is not closed yet. -/
structure OpenBlock where
  /-- What it belongs to. -/
  owner : BlockOwner
  /-- Where its brace stands. -/
  brace : Position
  /-- Its statements so far, the latest first. -/
  done : List Node := []
  deriving Inhabited

/-- Puts a statement at the end of an open block. -/
def OpenBlock.add (b : OpenBlock) (node : Node) : OpenBlock :=
  { b with done := node :: b.done }

/-- What an expression in a statement is for. -/
inductive ExprUse where
  /-- It is assigned to a name. -/
  | assigned (id : Text) (place : Position)
  /-- It is returned. -/
  | returned (place : Position)
  /-- It is a call that stands alone. -/
  | called
  /-- It is the condition of a statement at `place`, in the parenthesis at `paren`. -/
  | condition (owner : ConditionOwner) (place paren : Position)
  deriving Inhabited

namespace ExprUse

/-- The objection to a token inside the expression. -/
def objection : ExprUse → Complaint → Objection
  | .condition owner _ paren, c => .inCondition owner (some paren) c
  | _, c => .plain c

/-- What must stand behind the expression. -/
def closer : ExprUse → Expectation
  | .condition _ _ _ => .rightParen
  | _ => .semicolon

end ExprUse

/-- The states of reading a statement or a block. -/
inductive StmtState where
  /-- A statement may start, or the innermost open block end; without an open block a statement
  must start. -/
  | start (blocks : List OpenBlock)
  /-- A name has been read at the start of a statement. -/
  | named (blocks : List OpenBlock) (id : Text) (place : Position)
  /-- An expression is being read. -/
  | expression (blocks : List OpenBlock) (use : ExprUse) (e : ExprState)
  /-- The parenthesis of a condition must come. -/
  | paren (blocks : List OpenBlock) (owner : ConditionOwner) (place : Position)
  /-- The brace of a block must come. -/
  | brace (blocks : List OpenBlock) (owner : BlockOwner)
  /-- The first block of an `if` has been closed. -/
  | optionalElse (blocks : List OpenBlock) (place : Position) (condition thenBlock : Node)
  /-- The statement or block is complete. -/
  | finished (node : Node)
  deriving Inhabited

namespace StmtState

/-- Behind a complete statement: it goes into the innermost open block, or is the result. -/
def complete (blocks : List OpenBlock) (node : Node) : StmtState :=
  match blocks with
  | [] => .finished node
  | b :: rest => .start (b.add node :: rest)

/-- Behind the brace that closes a block. -/
def closeBlock (rest : List OpenBlock) (b : OpenBlock) : StmtState :=
  let node := Node.block b.done.reverse b.brace
  match b.owner with
  | .goal => .finished node
  | .thenOf place condition => .optionalElse rest place condition node
  | .elseOf place condition thenBlock elsePlace =>
    let elseBlock := if b.done.isEmpty then Node.block [] elsePlace else node
    complete rest (.branch condition thenBlock elseBlock place)
  | .bodyOf place condition => complete rest (.loop condition node place)

/-- An `if` statement without `else`. -/
def ifWithoutElse (place : Position) (condition thenBlock : Node) : Node :=
  .branch condition thenBlock (.block [] place) place

/-- Behind a condition: the owner's block must come. -/
def afterCondition (blocks : List OpenBlock) (owner : ConditionOwner) (place : Position)
    (condition : Node) : StmtState :=
  match owner with
  | .ifStatement => .brace blocks (.thenOf place condition)
  | .whileStatement => .brace blocks (.bodyOf place condition)

/-- The step from a state in which a statement may start. -/
def stepStart (blocks : List OpenBlock) (t : Token) : Step StmtState Objection Node :=
  match t.kind with
  | .ifWord => .shift (.paren blocks .ifStatement t.position)
  | .whileWord => .shift (.paren blocks .whileStatement t.position)
  | .returnWord => .shift (.expression blocks (.returned t.position) .start)
  | .identifier => .shift (.named blocks t.content t.position)
  | .rightBrace =>
    match blocks with
    | b :: rest => .shift (closeBlock rest b)
    | [] => .fail (.expected .statement)
  | _ => .fail (.expected .statement)

/-- The step from a state in which the expression `value` ends in front of the token. -/
def stepUse (blocks : List OpenBlock) (use : ExprUse) (value : Node) (t : Token) :
    Step StmtState Objection Node :=
  match use, t.kind with
  | .assigned id place, .semicolon =>
    .shift (complete blocks (.binary .assign (.name id none place) value place))
  | .returned place, .semicolon => .shift (complete blocks (.exit value place))
  | .called, .semicolon => .shift (complete blocks value)
  | .condition owner place _, .rightParen => .shift (afterCondition blocks owner place value)
  | use, _ => .fail (use.objection (.expected use.closer))

/-- The step from a state in which an expression is being read.  A `return` may stand without
one, and a call that stands alone is complete with its parenthesis. -/
def stepExpression (blocks : List OpenBlock) (use : ExprUse) (e : ExprState) (t : Token) :
    Step StmtState Objection Node :=
  match use, e, t.kind with
  | .returned place, .operand [] [], .semicolon =>
    .shift (complete blocks (.exit .absent place))
  | .called, .operator [] _ value, _ => stepUse blocks .called value t
  | use, e, _ =>
    match e.step t with
    | .shift next => .shift (.expression blocks use next)
    | .done value => stepUse blocks use value t
    | .fail c => .fail (use.objection c)

/-- The step a token leads to. -/
def step (s : StmtState) (t : Token) : Step StmtState Objection Node :=
  match s with
  | .start blocks => stepStart blocks t
  | .named blocks id place =>
    match t.kind with
    | .leftParen => .shift (.expression blocks .called (.startCall id place))
    | .assign => .shift (.expression blocks (.assigned id place) .start)
    | _ => .fail (.expected .assign)
  | .expression blocks use e => stepExpression blocks use e t
  | .paren blocks owner place =>
    if t.kind = .leftParen then
      .shift (.expression blocks (.condition owner place t.position) .start)
    else
      .fail (.inCondition owner none (.expected .leftParen))
  | .brace blocks owner =>
    if t.kind = .leftBrace then .shift (.start ({ owner, brace := t.position } :: blocks))
    else .fail (.expected .leftBrace)
  | .optionalElse blocks place condition thenBlock =>
    if t.kind = .elseWord then
      .shift (.brace blocks (.elseOf place condition thenBlock t.position))
    else
      let node := ifWithoutElse place condition thenBlock
      match blocks with
      | [] => .done node
      | b :: rest => stepStart (b.add node :: rest) t
  | .finished node => .done node

/-- The statement or block that the tokens form if no more of them come. -/
def finish : StmtState → Except Objection Node
  | .start [] => .error (.expected .moreTokens)
  | .start (_ :: _) => .error (.expected .rightBrace)
  | .named _ _ _ => .error (.expected .assign)
  | .expression _ use e =>
    match e.finish with
    | .error what => .error (use.objection (.expected what))
    | .ok _ => .error (use.objection (.expected use.closer))
  | .paren _ owner _ => .error (.inCondition owner none (.expected .leftParen))
  | .brace _ _ => .error (.expected .leftBrace)
  | .optionalElse [] place condition thenBlock => .ok (ifWithoutElse place condition thenBlock)
  | .optionalElse (_ :: _) _ _ _ => .error (.expected .rightBrace)
  | .finished node => .ok node

/-- Reads one statement or block at the front of some tokens. -/
def run (ending : Position) (s : StmtState) : List Token → Except CompileError (Node × List Token)
  | [] =>
    match s.finish with
    | .ok node => .ok (node, [])
    | .error o => .error (o.error ending none)
  | t :: rest =>
    match s.step t with
    | .shift next => run ending next rest
    | .done node => .ok (node, t :: rest)
    | .fail o => .error (o.error ending (some t))

end StmtState

/-- The statement at the front of some tokens, and the tokens behind it. -/
def parseStatement (tokens : List Token) : Except CompileError (Node × List Token) :=
  (StmtState.start []).run (endOfTokens tokens) tokens

/-- The block at the front of some tokens, and the tokens behind it. -/
def parseBlock (tokens : List Token) : Except CompileError (Node × List Token) :=
  (StmtState.brace [] .goal).run (endOfTokens tokens) tokens

end Parser

end Classwright
