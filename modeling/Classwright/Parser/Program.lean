import Classwright.Parser.Statement
import Classwright.Program.Basic
import Classwright.Source.Scanner
import Classwright.Tree.Constant

/-!
# Classes

The grammar is

    class  = "class" name "{" {constant} {"int" name ";"} {method} "}"
    constant = "final" "int" name "=" expr ";"
    method = ("public" "int" | "public" "void") name "(" [params] ")"
             "{" {"int" name ";"} {stmt} "}"
    params = "int" name {"," "int" name}

Declarations are made as they are read: a constant or variable at its semicolon, a procedure and
then its parameters at the parenthesis that closes the parameter list, so that the first error of
the text is the one reported.
-/

namespace Classwright

namespace Parser

/-- The groups of class members, which must come in this order. -/
inductive MemberGroup where
  | constants | variables | methods
  deriving Repr, DecidableEq, Inhabited

/-- The head of a method. -/
structure MethodHead where
  /-- What it returns. -/
  type : ValueType
  /-- Its name. -/
  name : Text
  /-- Where its name stands. -/
  place : Position
  /-- Names and places of the parameters so far, the latest first. -/
  params : List (Text × Position) := []
  deriving Repr, Inhabited

/-- A method whose head has been declared and whose brace has been read. -/
structure MethodBody where
  /-- The procedure. -/
  procedure : DeclId
  /-- Its table. -/
  table : TableId
  /-- Where its brace stands. -/
  brace : Position
  deriving Repr, Inhabited

/-- The states of reading a class. -/
inductive ClassState where
  /-- The keyword `class` must come. -/
  | classWord
  /-- The name of the class must come. -/
  | className
  /-- The brace of the class must come. -/
  | classBrace (p : Program)
  /-- A member of this group or a later one may start, or the class end. -/
  | members (p : Program) (group : MemberGroup)
  /-- Behind `final`. -/
  | constantInt (p : Program)
  /-- The name of a constant must come. -/
  | constantName (p : Program)
  /-- The equals sign of a constant must come. -/
  | constantAssign (p : Program) (name : Text) (place : Position)
  /-- The initializer of a constant is being read. -/
  | constantValue (p : Program) (name : Text) (place : Position) (e : ExprState)
  /-- The name of a variable must come, of a procedure if `home` is given. -/
  | variableName (p : Program) (home : Option MethodBody)
  /-- The semicolon behind the name of a variable must come. -/
  | variableEnd (p : Program) (home : Option MethodBody) (name : Text) (place : Position)
  /-- Behind `public`. -/
  | methodType (p : Program)
  /-- The name of a method must come. -/
  | methodName (p : Program) (type : ValueType)
  /-- The parenthesis of the parameters must come. -/
  | methodParen (p : Program) (head : MethodHead)
  /-- Behind the parenthesis of the parameters. -/
  | firstParam (p : Program) (head : MethodHead)
  /-- Behind the comma between two parameters. -/
  | nextParam (p : Program) (head : MethodHead)
  /-- The name of a parameter must come. -/
  | paramName (p : Program) (head : MethodHead)
  /-- Behind the name of a parameter. -/
  | paramEnd (p : Program) (head : MethodHead)
  /-- The brace of a method must come. -/
  | methodBrace (p : Program) (procedure : DeclId) (table : TableId)
  /-- A local variable or the statements of a method may start. -/
  | locals (p : Program) (home : MethodBody)
  /-- The statements of a method are being read. -/
  | body (p : Program) (procedure : DeclId) (s : StmtState)
  /-- The class is closed. -/
  | closed (p : Program)
  deriving Inhabited

/-- Declares parameters one after the other. -/
def declareParams (p : Program) (table : TableId) :
    List (Text × Position) → Except CompileError (Program × List (Option DeclId))
  | [] => .ok (p, [])
  | (name, position) :: rest => do
    let (p, id) ← p.declare table { kind := .parameter, name, position }
    let (p, ids) ← declareParams p table rest
    return (p, some id :: ids)

/-- Declares a procedure with its table and its parameters. -/
def declareMethod (p : Program) (head : MethodHead) :
    Except CompileError (Program × DeclId × TableId) := do
  let params := head.params.reverse
  let (p, procedure) ← p.declare Program.classTable
    { kind := .procedure
      name := head.name
      type := head.type
      params := params.map fun _ => none
      position := head.place }
  let (p, table) := p.addTable (some Program.classTable) (some procedure)
  let (p, ids) ← declareParams p table params
  return (p.update procedure fun d => { d with locals := some table, params := ids },
    procedure, table)

/-- Declares a constant with the value of its initializer. -/
def declareConstant (p : Program) (name : Text) (position : Position) (e : Node) :
    Except CompileError Program := do
  let value ← e.constantValue
  let (p, _) ← p.declare Program.classTable { kind := .constant, name, value, position }
  return p

/-- Declares a variable of the class, or of a procedure if `home` is given. -/
def declareVariable (p : Program) (home : Option MethodBody) (name : Text) (position : Position) :
    Except CompileError ClassState := do
  match home with
  | none =>
    let (p, _) ← p.declare Program.classTable { kind := .var, name, position }
    return .members p .variables
  | some home =>
    let (p, _) ← p.declare home.table { kind := .var, name, position }
    return .locals p home

/-- The state behind a token of a method's statements. -/
def bodyState (p : Program) (procedure : DeclId) : StmtState → ClassState
  | .finished node => .members (p.update procedure fun d => { d with body := node }) .methods
  | s => .body p procedure s

namespace ClassState

/-- What must come in a state in which only one thing can. -/
def expectation : ClassState → Expectation
  | .classWord => .classWord
  | .className => .className
  | .classBrace _ | .methodBrace _ _ _ => .leftBrace
  | .members _ _ | .locals _ _ | .body _ _ _ => .rightBrace
  | .constantInt _ => .finalInt
  | .constantName _ => .constantName
  | .constantAssign _ _ _ => .assign
  | .constantValue _ _ _ _ | .variableEnd _ _ _ _ => .semicolon
  | .variableName _ _ => .variableName
  | .methodType _ => .intOrVoid
  | .methodName _ _ => .methodName
  | .methodParen _ _ => .leftParen
  | .firstParam _ _ | .paramEnd _ _ => .rightParen
  | .nextParam _ _ => .intWord
  | .paramName _ _ => .parameterName
  | .closed _ => .endOfFile

/-- The step of a statement inside a method. -/
def stepBody (ending : Position) (p : Program) (procedure : DeclId) (s : StmtState) (t : Token) :
    Except CompileError ClassState :=
  match s.step t with
  | .shift next => .ok (bodyState p procedure next)
  | .done _ => .error ((Objection.expected .rightBrace).error ending (some t))
  | .fail o => .error (o.error ending (some t))

/-- The step of the initializer of a constant. -/
def stepConstant (ending : Position) (p : Program) (name : Text) (place : Position) (e : ExprState)
    (t : Token) : Except CompileError ClassState :=
  match e.step t with
  | .shift next => .ok (.constantValue p name place next)
  | .fail c => .error ((Objection.plain c).error ending (some t))
  | .done value =>
    if t.kind = .semicolon then do
      let p ← declareConstant p name place value
      return .members p .constants
    else
      .error ((Objection.expected .semicolon).error ending (some t))

/-- The step behind the parenthesis that closes the parameters. -/
def stepParamsEnd (p : Program) (head : MethodHead) : Except CompileError ClassState := do
  let (p, procedure, table) ← declareMethod p head
  return .methodBrace p procedure table

/-- The step a token leads to. -/
def step (ending : Position) (s : ClassState) (t : Token) : Except CompileError ClassState :=
  match s, t.kind with
  | .classWord, .classWord => .ok .className
  | .className, .identifier => .ok (.classBrace (.empty t.content t.position))
  | .classBrace p, .leftBrace => .ok (.members p .constants)
  | .members p .constants, .finalWord => .ok (.constantInt p)
  | .members p .constants, .intWord => .ok (.variableName p none)
  | .members p .variables, .intWord => .ok (.variableName p none)
  | .members p _, .publicWord => .ok (.methodType p)
  | .members p _, .rightBrace => .ok (.closed p)
  | .constantInt p, .intWord => .ok (.constantName p)
  | .constantName p, .identifier => .ok (.constantAssign p t.content t.position)
  | .constantAssign p name place, .assign => .ok (.constantValue p name place .start)
  | .constantValue p name place e, _ => stepConstant ending p name place e t
  | .variableName p home, .identifier => .ok (.variableEnd p home t.content t.position)
  | .variableEnd p home name place, .semicolon => declareVariable p home name place
  | .methodType p, .voidWord => .ok (.methodName p .void)
  | .methodType p, .intWord => .ok (.methodName p .int)
  | .methodName p type, .identifier =>
    .ok (.methodParen p { type, name := t.content, place := t.position })
  | .methodParen p head, .leftParen => .ok (.firstParam p head)
  | .firstParam p head, .intWord => .ok (.paramName p head)
  | .firstParam p head, .rightParen => stepParamsEnd p head
  | .nextParam p head, .intWord => .ok (.paramName p head)
  | .paramName p head, .identifier =>
    .ok (.paramEnd p { head with params := (t.content, t.position) :: head.params })
  | .paramEnd p head, .comma => .ok (.nextParam p head)
  | .paramEnd p head, .rightParen => stepParamsEnd p head
  | .methodBrace p procedure table, .leftBrace => .ok (.locals p ⟨procedure, table, t.position⟩)
  | .locals p home, .intWord => .ok (.variableName p (some home))
  | .locals p home, _ =>
    stepBody ending p home.procedure (.start [{ owner := .goal, brace := home.brace }]) t
  | .body p procedure s, _ => stepBody ending p procedure s t
  | s, _ => .error ((Objection.expected s.expectation).error ending (some t))

/-- The program that the tokens form if no more of them come. -/
def finish (ending : Position) (s : ClassState) : Except CompileError Program :=
  let objection (o : Objection) : Except CompileError Program := .error (o.error ending none)
  match s with
  | .closed p => .ok p
  | .constantValue _ _ _ e =>
    match e.finish with
    | .ok _ => objection (.expected .semicolon)
    | .error what => objection (.expected what)
  | .body _ _ s =>
    match s.finish with
    | .ok _ => objection (.expected .rightBrace)
    | .error o => objection o
  | s => objection (.expected s.expectation)

end ClassState

end Parser

namespace Program

/-- The program a row of tokens forms. -/
def ofTokens (tokens : List Token) : Except CompileError Program := do
  let ending := Parser.endOfTokens tokens
  let s ← tokens.foldlM (Parser.ClassState.step ending) .classWord
  s.finish ending

/-- The program of a source text. -/
def ofText (text : Text) : Except CompileError Program := do
  let tokens ← Token.ofText text
  ofTokens tokens

end Program

end Classwright
