import Classwright.Bytecode.Opcode
import Classwright.Declaration
import Classwright.Limits
import Classwright.Operator
import Classwright.Source.Position
import Classwright.Text.Quoted

/-!
# Compile errors

A compilation stops at its first error.  An error is a cause at a position; its kind, its stage,
the name it is about and its wording are functions of the cause.
-/

namespace Classwright

/-- The part of a compilation an error is raised in. -/
inductive Stage where
  | parser | resolver | semantic | emitter
  deriving Repr, DecidableEq, Inhabited

namespace Stage

/-- All stages, in order. -/
def all : List Stage := [parser, resolver, semantic, emitter]

/-- The word for a stage. -/
def word : Stage → String
  | parser => "parser"
  | resolver => "resolver"
  | semantic => "semantic"
  | emitter => "emitter"

/-- The word for the stage with a given number. -/
def wordOfNumber (n : Int) : String :=
  if n < 0 then "unknown" else ((all[n.toNat]?).map word).getD "unknown"

end Stage

/-- The kinds of compile errors. -/
inductive ErrorKind where
  | unknownCharacter | numberOutOfRange | unclosedComment | unexpectedToken | unexpectedEnd
  | badCondition | redefinition | nonConstantInitializer | constantDivisionByZero
  | undefinedName | noMatchingProcedure
  | invalidOperation | argumentMustYieldValue | assignToFinal | missingReturnValue
  | unexpectedReturnValue | unreachableCode | missingReturn | maybeUninitialized
  | constantPoolOverflow | methodTooLong | branchOffsetOutOfRange
  deriving Repr, DecidableEq, Inhabited

namespace ErrorKind

/-- All kinds, in the order of their numbers. -/
def all : List ErrorKind :=
  [unknownCharacter, numberOutOfRange, unclosedComment, unexpectedToken, unexpectedEnd,
    badCondition, redefinition, nonConstantInitializer, constantDivisionByZero,
    undefinedName, noMatchingProcedure,
    invalidOperation, argumentMustYieldValue, assignToFinal, missingReturnValue,
    unexpectedReturnValue, unreachableCode, missingReturn, maybeUninitialized,
    constantPoolOverflow, methodTooLong, branchOffsetOutOfRange]

/-- The name of a kind. -/
def name : ErrorKind → String
  | unknownCharacter => "UnknownCharacter"
  | numberOutOfRange => "NumberOutOfRange"
  | unclosedComment => "UnclosedComment"
  | unexpectedToken => "UnexpectedToken"
  | unexpectedEnd => "UnexpectedEOF"
  | badCondition => "BadCondition"
  | redefinition => "Redefinition"
  | nonConstantInitializer => "NonConstantInitializer"
  | constantDivisionByZero => "ConstantDivisionByZero"
  | undefinedName => "UndefinedName"
  | noMatchingProcedure => "NoMatchingProcedure"
  | invalidOperation => "InvalidOperation"
  | argumentMustYieldValue => "ArgumentMustYieldValue"
  | assignToFinal => "AssignToFinal"
  | missingReturnValue => "MissingReturnValue"
  | unexpectedReturnValue => "UnexpectedReturnValue"
  | unreachableCode => "UnreachableCode"
  | missingReturn => "MissingReturn"
  | maybeUninitialized => "MaybeUninitialized"
  | constantPoolOverflow => "ConstantPoolOverflow"
  | methodTooLong => "MethodTooLong"
  | branchOffsetOutOfRange => "BranchOffsetOutOfRange"

/-- The stage that raises errors of a kind. -/
def stage : ErrorKind → Stage
  | unknownCharacter | numberOutOfRange | unclosedComment | unexpectedToken | unexpectedEnd
  | badCondition | redefinition | nonConstantInitializer | constantDivisionByZero => .parser
  | undefinedName | noMatchingProcedure => .resolver
  | invalidOperation | argumentMustYieldValue | assignToFinal | missingReturnValue
  | unexpectedReturnValue | unreachableCode | missingReturn | maybeUninitialized => .semantic
  | constantPoolOverflow | methodTooLong | branchOffsetOutOfRange => .emitter

/-- The name of the kind with a given number. -/
def nameOfNumber (n : Int) : String :=
  if n < 0 then "Unknown" else ((all[n.toNat]?).map name).getD "Unknown"

/-- The stage of the kind with a given number; numbers below the first kind count as it, numbers
above the last as that one. -/
def stageOfNumber (n : Int) : Stage :=
  ((all[n.toNat]?).map stage).getD .emitter

end ErrorKind

/-- What the parser was waiting for. -/
inductive Expectation where
  | classWord | className | leftBrace | rightBrace | endOfFile
  | finalInt | constantName | assign | semicolon
  | intWord | variableName | intOrVoid | methodName | leftParen | rightParen | parameterName
  | statement | moreTokens | expression | rightParenOrComma
  deriving Repr, DecidableEq, Inhabited

namespace Expectation

/-- The words for what was expected. -/
def words : Expectation → String
  | classWord => "class"
  | className => "a class name"
  | leftBrace => "\x7b"
  | rightBrace => "\x7d"
  | endOfFile => "end of file"
  | finalInt => "final int"
  | constantName => "a constant name"
  | assign => "="
  | semicolon => ";"
  | intWord => "int"
  | variableName => "a variable name"
  | intOrVoid => "int or void"
  | methodName => "a method name"
  | leftParen => "("
  | rightParen => ")"
  | parameterName => "a parameter name"
  | statement => "a statement"
  | moreTokens => "more tokens"
  | expression => "an expression"
  | rightParenOrComma => ") or ,"

end Expectation

/-- How a row of tokens fails to be a class. -/
inductive Mismatch where
  /-- Another token stands where something was expected. -/
  | token (expected : Expectation) (found : Text)
  /-- A second comparison stands in one expression. -/
  | comparison (found : Text)
  /-- The tokens end where something was expected. -/
  | ending (expected : Expectation)
  deriving Repr, DecidableEq, Inhabited

namespace Mismatch

/-- The wording of a mismatch. -/
def message : Mismatch → String
  | token expected found => s!"expect {expected.words} but found {found.shown}"
  | comparison found => s!"unexpected second comparison {found.shown}, use parentheses"
  | ending expected => s!"expect {expected.words} but the file ends"

/-- Whether the tokens went on or ended. -/
def kind : Mismatch → ErrorKind
  | token _ _ | comparison _ => .unexpectedToken
  | ending _ => .unexpectedEnd

end Mismatch

/-- The statements that have a condition. -/
inductive ConditionOwner where
  | ifStatement | whileStatement
  deriving Repr, DecidableEq, Inhabited

namespace ConditionOwner

/-- The keyword of the statement. -/
def word : ConditionOwner → String
  | ifStatement => "if"
  | whileStatement => "while"

end ConditionOwner

/-- Why a source text is refused. -/
inductive Cause where
  /-- A byte starts no token. -/
  | unknownCharacter (b : UInt8)
  /-- A number is above the largest 32-bit number. -/
  | numberOutOfRange (digits : Text)
  /-- The text ends inside a comment. -/
  | unclosedComment
  /-- The tokens do not form a class. -/
  | syntaxError (mismatch : Mismatch)
  /-- The tokens behind `if` or `while` do not form a condition. -/
  | badCondition (owner : ConditionOwner) (mismatch : Mismatch)
  /-- A constant, variable or parameter has the name of another one in its table. -/
  | valueRedefined (earlier : DeclKind) (name : Text) (place : Position)
  /-- A procedure has the name and the number of parameters of another one. -/
  | procedureRedefined (name : Text) (arity : Nat) (place : Position)
  /-- A constant has no initializer. -/
  | missingInitializer
  /-- An initializer assigns. -/
  | assigningInitializer
  /-- An initializer uses a name, a call or a statement. -/
  | variableInitializer
  /-- An initializer divides by zero. -/
  | dividingInitializer
  /-- No constant, variable or parameter has the name. -/
  | undefinedName (name : Text)
  /-- No procedure has the name and takes so many arguments. -/
  | noMatchingProcedure (name : Text) (arity : Nat)
  /-- The right side of an assignment yields nothing. -/
  | assignedNothing
  /-- The left side of an assignment is no variable. -/
  | assignedToNoVariable
  /-- A condition yields nothing. -/
  | conditionYieldsNothing
  /-- An assignment stands where an expression must. -/
  | assignmentInExpression
  /-- An operand yields nothing. -/
  | operandYieldsNothing (op : Operator)
  /-- A return statement stands where an expression must. -/
  | returnInExpression
  /-- An argument of a call yields nothing. -/
  | argumentYieldsNothing (callee : Text)
  /-- A constant is assigned to. -/
  | assignToFinal (name : Text)
  /-- A procedure that returns a number has a return statement without one. -/
  | missingReturnValue (method : Text)
  /-- A procedure that returns nothing has a return statement with a value. -/
  | unexpectedReturnValue (method : Text)
  /-- A statement follows one that never ends normally. -/
  | unreachableCode
  /-- Control can reach the end of a procedure that returns a number. -/
  | missingReturn (method : Text)
  /-- A local variable may be read before it is assigned. -/
  | maybeUninitialized (name : Text)
  /-- The constant pool is full. -/
  | constantPoolOverflow
  /-- The statements up to this one take too many bytes. -/
  | methodExceedsLimit (method : Text)
  /-- The code of a procedure takes too many bytes. -/
  | methodTooLong (method : Text) (length : Nat)
  /-- The code of the constructor takes too many bytes. -/
  | constructorTooLong (length : Nat)
  /-- A jump is too far. -/
  | branchOffsetOutOfRange (op : Opcode) (distance : Int)
  deriving Repr, DecidableEq, Inhabited

namespace Cause

/-- The kind of an error with this cause. -/
def kind : Cause → ErrorKind
  | unknownCharacter _ => .unknownCharacter
  | numberOutOfRange _ => .numberOutOfRange
  | unclosedComment => .unclosedComment
  | syntaxError mismatch => mismatch.kind
  | badCondition _ _ => .badCondition
  | valueRedefined _ _ _ | procedureRedefined _ _ _ => .redefinition
  | missingInitializer | assigningInitializer | variableInitializer => .nonConstantInitializer
  | dividingInitializer => .constantDivisionByZero
  | undefinedName _ => .undefinedName
  | noMatchingProcedure _ _ => .noMatchingProcedure
  | assignedNothing | assignedToNoVariable | conditionYieldsNothing | assignmentInExpression
  | operandYieldsNothing _ | returnInExpression => .invalidOperation
  | argumentYieldsNothing _ => .argumentMustYieldValue
  | assignToFinal _ => .assignToFinal
  | missingReturnValue _ => .missingReturnValue
  | unexpectedReturnValue _ => .unexpectedReturnValue
  | unreachableCode => .unreachableCode
  | missingReturn _ => .missingReturn
  | maybeUninitialized _ => .maybeUninitialized
  | constantPoolOverflow => .constantPoolOverflow
  | methodExceedsLimit _ | methodTooLong _ _ | constructorTooLong _ => .methodTooLong
  | branchOffsetOutOfRange _ _ => .branchOffsetOutOfRange

/-- The identifier the error is about, empty if there is none. -/
def name : Cause → Text
  | valueRedefined _ name _ | procedureRedefined name _ _ | undefinedName name
  | noMatchingProcedure name _ | assignToFinal name | missingReturn name
  | maybeUninitialized name | methodExceedsLimit name | methodTooLong name _ => name
  | _ => []

/-- The shape of a call, such as `f(int,int)`. -/
def callShape (name : Text) (arity : Nat) : String :=
  name.shown ++ "(" ++ String.intercalate "," (List.replicate arity "int") ++ ")"

/-- The wording of a cause. -/
def message : Cause → String
  | unknownCharacter b => s!"unknown character {quotedChar (Char.ofNat b.toNat)}"
  | numberOutOfRange digits => s!"number {digits.shown} does not fit in 32 bits"
  | unclosedComment => "comment is never closed"
  | syntaxError mismatch => mismatch.message
  | badCondition owner mismatch => s!"bad {owner.word}-condition: {mismatch.message}"
  | valueRedefined earlier name place =>
    s!"{earlier.word} {name.shown} is already defined at {place.text}"
  | procedureRedefined name arity place =>
    s!"procedure {name.shown} with {arity} parameters is already defined at {place.text}"
  | missingInitializer => "missing constant initializer"
  | assigningInitializer => "assignment in constant initializer"
  | variableInitializer => "constant initializer must only use numbers and operators"
  | dividingInitializer => "division by zero in constant initializer"
  | undefinedName name => s!"undefined variable: {name.shown}"
  | noMatchingProcedure name arity => s!"no matching method found for: {callShape name arity}"
  | assignedNothing => "assigned expression does not yield a value"
  | assignedToNoVariable => "left side of assignment must be a variable"
  | conditionYieldsNothing => "condition does not yield a value"
  | assignmentInExpression => "assignment is not an expression"
  | operandYieldsNothing op => s!"operand of {op.symbol} does not yield a value"
  | returnInExpression => "return is not an expression"
  | argumentYieldsNothing callee => s!"argument of {callee.shown} must yield a value"
  | assignToFinal name => s!"cannot assign a value to final variable {name.shown}"
  | missingReturnValue method => s!"method {method.shown} must return an int value"
  | unexpectedReturnValue method => s!"void method {method.shown} cannot return a value"
  | unreachableCode => "unreachable code"
  | missingReturn method => s!"method {method.shown} must return a value on every path"
  | maybeUninitialized name => s!"variable {name.shown} might not have been initialized"
  | constantPoolOverflow => s!"constant pool exceeds {maxPoolEntries} entries"
  | methodExceedsLimit method => s!"code of method {method.shown} exceeds {maxCodeLength} bytes"
  | methodTooLong method length => s!"code of method {method.shown} is {length} bytes long"
  | constructorTooLong length => s!"code of <init> is {length} bytes long"
  | branchOffsetOutOfRange op distance =>
    s!"{op.mnemonic} offset {distance} does not fit in 16 bits"

end Cause

/-- The error a compilation stops at. -/
structure CompileError where
  /-- What is wrong. -/
  cause : Cause
  /-- Where it is wrong. -/
  position : Position
  deriving Repr, DecidableEq, Inhabited

namespace CompileError

/-- The kind of the error. -/
def kind (e : CompileError) : ErrorKind :=
  e.cause.kind

/-- The full wording: kind, stage, position if known, and the cause. -/
def message (e : CompileError) : String :=
  let place :=
    if e.position.isKnown then s!" at line {e.position.line}, column {e.position.column}" else ""
  s!"{e.kind.name}: {e.kind.stage.word} error{place}: {e.cause.message}"

end CompileError

end Classwright
