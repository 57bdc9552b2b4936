import Classwright.CompileError
import Classwright.Source.Token

/-!
# Parsing token by token

The parser is a pushdown automaton: a state records the open constructs, and each token takes it
to the next state.  A phrase that can be complete before a token is seen, such as an expression or
an `if` without `else`, is done when the token cannot be read as part of it.
-/

namespace Classwright

namespace Parser

/-- What is wrong with a token, or with the end of the tokens, in some state. -/
inductive Complaint where
  /-- Something else was expected. -/
  | expected (what : Expectation)
  /-- The token is a second comparison in one expression. -/
  | secondComparison
  deriving Repr, DecidableEq, Inhabited

/-- The mismatch a complaint is about, `none` standing for the end of the tokens. -/
def Complaint.mismatch : Complaint → Option Token → Mismatch
  | .expected what, some t => .token what t.content
  | .expected what, none => .ending what
  | .secondComparison, some t => .comparison t.content
  | .secondComparison, none => .ending .expression

/-- A complaint with the condition it arose in. -/
inductive Objection where
  /-- Outside any condition. -/
  | plain (complaint : Complaint)
  /-- In the condition of a statement, which starts at `start`, or at the offending token. -/
  | inCondition (owner : ConditionOwner) (start : Option Position) (complaint : Complaint)
  deriving Repr, DecidableEq, Inhabited

/-- The objection that something else was expected. -/
def Objection.expected (what : Expectation) : Objection :=
  .plain (.expected what)

/-- The position of a token, `ending` behind the last one. -/
def positionAt (ending : Position) (t : Option Token) : Position :=
  match t with
  | some t => t.position
  | none => ending

/-- The error for an objection to a token, or to the end of the tokens. -/
def Objection.error (ending : Position) (t : Option Token) : Objection → CompileError
  | .plain c => ⟨.syntaxError (c.mismatch t), positionAt ending t⟩
  | .inCondition owner start c =>
    ⟨.badCondition owner (c.mismatch t), start.getD (positionAt ending t)⟩

/-- What a token leads to: it is read, or the phrase is done without it, or neither. -/
inductive Step (State Complaint Result : Type) where
  /-- The token belongs to the phrase. -/
  | shift (next : State)
  /-- The phrase is complete and the token is not part of it. -/
  | done (result : Result)
  /-- The token cannot stand here. -/
  | fail (complaint : Complaint)
  deriving Repr, Inhabited

/-- The position just behind the last token, 1:1 if there is none. -/
def endOfTokens (tokens : List Token) : Position :=
  match tokens.getLast? with
  | some t => t.endPosition
  | none => ⟨1, 1⟩

end Parser

end Classwright
