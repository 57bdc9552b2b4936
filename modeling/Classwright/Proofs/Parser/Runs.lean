import Classwright.Parser.Program
import Classwright.Proofs.Except

/-!
# Runs of the parser

How the parser gets from one state to another: `Parser.Shifts` for a phrase that ends where a token
cannot be read as part of it, with `ExprState.Reads` and `StmtState.Reads`, and `ClassState.Reads`
for a class, whose steps have an equation for each kind of state (`ClassState.step_wanted` for
those in which one token must come).  What is read as an
expression or a statement by itself is read in the same way inside a larger phrase
(`StmtState.reads_expression`, `ClassState.reads_initializer`, `ClassState.reads_bodyState`).
-/

namespace Classwright

namespace Parser

/-- Tokens that lead from one state to another, through states in which `P` holds. -/
inductive Shifts {State Complaint Result : Type}
    (step : State → Token → Step State Complaint Result) (P : State → Prop) :
    State → List Token → State → Prop
  | nil {s : State} : Shifts step P s [] s
  | cons {s next s' : State} {t : Token} {ts : List Token} (hs : P s)
      (ht : step s t = .shift next) (h : Shifts step P next ts s') : Shifts step P s (t :: ts) s'

namespace Shifts

variable {State Complaint Result : Type} {step : State → Token → Step State Complaint Result}
  {P Q : State → Prop} {s s' s'' : State} {ts ts' : List Token}

theorem append (h : Shifts step P s ts s') (h' : Shifts step P s' ts' s'') :
    Shifts step P s (ts ++ ts') s'' := by
  induction h with
  | nil => exact h'
  | cons hs ht _ ih => exact .cons hs ht (ih h')

theorem imp (h : Shifts step P s ts s') (hPQ : ∀ s, P s → Q s) : Shifts step Q s ts s' := by
  induction h with
  | nil => exact .nil
  | cons hs ht _ ih => exact .cons (hPQ _ hs) ht ih

theorem single {t : Token} (hs : P s) (ht : step s t = .shift s') : Shifts step P s [t] s' :=
  .cons hs ht .nil

/-- A run passes a state in front of each of its tokens. -/
theorem exists_of_append (h : Shifts step P s (ts ++ ts') s') : ∃ m, Shifts step P s ts m := by
  induction ts generalizing s with
  | nil => exact ⟨s, .nil⟩
  | cons t ts ih =>
    cases h with
    | cons hs ht h =>
      obtain ⟨m, hm⟩ := ih h
      exact ⟨m, .cons hs ht hm⟩

end Shifts

/-! ### Expressions -/

namespace ExprState

/-- The parentheses that are open in a state. -/
def openings : ExprState → List Opening
  | .operand openings _ | .identifier openings _ _ _ | .operator openings _ _ => openings

/-- Tokens that lead from one state to another while at least `depth` parentheses are open. -/
abbrev Reads (depth : Nat) : ExprState → List Token → ExprState → Prop :=
  Shifts step fun s => depth ≤ s.openings.length

theorem Reads.mono {depth depth' : Nat} {s s' : ExprState} {ts : List Token}
    (h : Reads depth s ts s') (hle : depth' ≤ depth) : Reads depth' s ts s' :=
  h.imp fun _ hs => Nat.le_trans hle hs

/-- The operand `value` has just been read. -/
inductive HasRead (openings : List Opening) (pending : Pending) : Node → ExprState → Prop
  | name {id : Text} {place : Position} :
      HasRead openings pending (.name id none place) (.identifier openings pending id place)
  | other {value : Node} : HasRead openings pending value (.operator openings pending value)

namespace HasRead

variable {openings : List Opening} {pending : Pending} {value : Node} {s : ExprState}

theorem le_openings (h : HasRead openings pending value s) :
    openings.length ≤ s.openings.length := by
  cases h <;> exact Nat.le_refl _

theorem step (h : HasRead openings pending value s) {t : Token} (ht : t.kind ≠ .leftParen) :
    s.step t = stepValue openings pending value t := by
  cases h with
  | name => exact if_neg ht
  | other => rfl

/-- In front of a semicolon or a parenthesis the expression is complete. -/
theorem step_done (h : HasRead [] pending value s) {t : Token}
    (ht : t.kind = .semicolon ∨ t.kind = .rightParen) :
    s.step t = .done (pending.close value) := by
  rcases ht with ht | ht <;>
  · rw [h.step (by rw [ht]; decide)]
    simp [stepValue, ht, operatorOf?, closeAll]

end HasRead

/-- A run goes on where tokens that are read have led. -/
theorem Reads.run_append {depth : Nat} {s s' : ExprState} {ts : List Token}
    (h : Reads depth s ts s') (ending : Position) (rest : List Token) :
    s.run ending (ts ++ rest) = s'.run ending rest := by
  induction h with
  | nil => rfl
  | cons _ ht _ ih =>
    rw [List.cons_append, run, ht]
    exact ih

end ExprState

open ExprState

/-- An expression that takes all tokens is what is read of them. -/
theorem parseExpression_of_reads {tokens : List Token} {pending : Pending} {value : Node}
    {s : ExprState} (hread : HasRead [] pending value s) (hreads : Reads 0 .start tokens s) :
    parseExpression tokens = .ok (pending.close value, []) := by
  -- no parenthesis is open behind the last token, so the expression may end
  have hfinish : s.finish = .ok (pending.close value) := by
    cases hread <;> rfl
  have hrun : start.run (endOfTokens tokens) tokens = s.run (endOfTokens tokens) [] := by
    have hall := hreads.run_append (endOfTokens tokens) []
    rwa [List.append_nil] at hall
  rw [parseExpression, hrun, ExprState.run, hfinish]

/-! ### Statements -/

namespace StmtState

/-- Tokens that lead from one state to another. -/
abbrev Reads : StmtState → List Token → StmtState → Prop :=
  Shifts step fun _ => True

theorem stepExpression_of_shift {blocks : List OpenBlock} {use : ExprUse} {e next : ExprState}
    {t : Token} (huse : use = .called → 0 < e.openings.length) (h : e.step t = .shift next) :
    stepExpression blocks use e t = .shift (.expression blocks use next) := by
  unfold stepExpression
  split
  · rename_i hkind
    simp [ExprState.step, stepOperand, hkind] at h
  · exact absurd (huse rfl) (Nat.lt_irrefl 0)
  · rw [h]

/-- What is read as part of an expression is read as part of the expression of a statement. -/
theorem reads_expression {blocks : List OpenBlock} {use : ExprUse} {depth : Nat} {e e' : ExprState}
    {ts : List Token} (huse : use = .called → 0 < depth) (h : ExprState.Reads depth e ts e') :
    Reads (.expression blocks use e) ts (.expression blocks use e') := by
  induction h with
  | nil => exact .nil
  | cons hs ht _ ih =>
    exact .cons trivial (stepExpression_of_shift (fun h => Nat.lt_of_lt_of_le (huse h) hs) ht) ih

/-- The token behind an expression that can end there. -/
theorem stepExpression_of_hasRead {blocks : List OpenBlock} {use : ExprUse} {pending : Pending}
    {value : Node} {e : ExprState} {t : Token} (he : HasRead [] pending value e)
    (huse : use ≠ .called) (ht : t.kind = .semicolon ∨ t.kind = .rightParen) :
    stepExpression blocks use e t = stepUse blocks use (pending.close value) t := by
  unfold stepExpression
  split
  · cases he
  · exact absurd rfl huse
  · rw [he.step_done ht]

end StmtState

/-! ### Classes -/

namespace ClassState

variable {ending : Position}

/-- What a token leads to that cannot stand behind the state. -/
def refuse (ending : Position) (s : ClassState) (t : Token) : Except CompileError ClassState :=
  .error ((Objection.expected s.expectation).error ending (some t))

/-- The kind of the token that must come in a state in which only one can and nothing is declared,
and the state behind it. -/
def wanted? : ClassState → Option (TokenKind × (Token → ClassState))
  | .classWord => some (.classWord, fun _ => .className)
  | .className => some (.identifier, fun t => .classBrace (.empty t.content t.position))
  | .classBrace p => some (.leftBrace, fun _ => .members p .constants)
  | .constantInt p => some (.intWord, fun _ => .constantName p)
  | .constantName p => some (.identifier, fun t => .constantAssign p t.content t.position)
  | .constantAssign p name place => some (.assign, fun _ => .constantValue p name place .start)
  | .variableName p home => some (.identifier, fun t => .variableEnd p home t.content t.position)
  | .methodName p type =>
    some (.identifier, fun t => .methodParen p { type, name := t.content, place := t.position })
  | .methodParen p head => some (.leftParen, fun _ => .firstParam p head)
  | .nextParam p head => some (.intWord, fun _ => .paramName p head)
  | .paramName p head => some (.identifier, fun t =>
    .paramEnd p { head with params := (t.content, t.position) :: head.params })
  | .methodBrace p procedure table =>
    some (.leftBrace, fun t => .locals p ⟨procedure, table, t.position⟩)
  | _ => none

/-- Where one token must come and nothing is declared. -/
theorem step_wanted {s : ClassState} {k : TokenKind} {next : Token → ClassState}
    (h : s.wanted? = some (k, next)) (t : Token) :
    s.step ending t = if t.kind = k then .ok (next t) else s.refuse ending t := by
  cases s <;> cases h <;> unfold step <;> cases t.kind <;> rfl

section Step

variable (p : Program) (home : Option MethodBody) (name : Text) (place : Position)
  (head : MethodHead) (t : Token)

theorem step_constants : (members p .constants).step ending t =
    if t.kind = .finalWord then .ok (constantInt p) else (members p .variables).step ending t := by
  unfold step
  cases t.kind <;> rfl

theorem step_variables : (members p .variables).step ending t =
    if t.kind = .intWord then .ok (variableName p none)
    else (members p .methods).step ending t := by
  unfold step
  cases t.kind <;> rfl

theorem step_methods : (members p .methods).step ending t =
    if t.kind = .publicWord then .ok (methodType p)
    else if t.kind = .rightBrace then .ok (closed p)
    else (members p .methods).refuse ending t := by
  unfold step
  cases t.kind <;> rfl

theorem step_variableEnd : (variableEnd p home name place).step ending t =
    if t.kind = .semicolon then declareVariable p home name place
    else (variableEnd p home name place).refuse ending t := by
  unfold step
  cases t.kind <;> rfl

theorem step_methodType : (methodType p).step ending t =
    if t.kind = .voidWord then .ok (methodName p .void)
    else if t.kind = .intWord then .ok (methodName p .int)
    else (methodType p).refuse ending t := by
  unfold step
  cases t.kind <;> rfl

theorem step_firstParam : (firstParam p head).step ending t =
    if t.kind = .intWord then .ok (paramName p head)
    else if t.kind = .rightParen then stepParamsEnd p head
    else (firstParam p head).refuse ending t := by
  unfold step
  cases t.kind <;> rfl

theorem step_paramEnd : (paramEnd p head).step ending t =
    if t.kind = .comma then .ok (nextParam p head)
    else if t.kind = .rightParen then stepParamsEnd p head
    else (paramEnd p head).refuse ending t := by
  unfold step
  cases t.kind <;> rfl

theorem step_locals (home : MethodBody) : (locals p home).step ending t =
    if t.kind = .intWord then .ok (variableName p (some home))
    else stepBody ending p home.procedure (.start [{ owner := .goal, brace := home.brace }]) t := by
  unfold step
  cases t.kind <;> rfl

theorem step_closed : (closed p).step ending t = (closed p).refuse ending t := by
  unfold step
  cases t.kind <;> rfl

theorem step_constantValue (e : ExprState) :
    (constantValue p name place e).step ending t = stepConstant ending p name place e t := rfl

theorem step_body (procedure : DeclId) (s : StmtState) :
    (body p procedure s).step ending t = stepBody ending p procedure s t := rfl

end Step

/-- Tokens that lead from one state to another. -/
abbrev Reads (ending : Position) (s : ClassState) (tokens : List Token) (s' : ClassState) : Prop :=
  tokens.foldlM (step ending) s = .ok s'

namespace Reads

variable {s s' s'' : ClassState} {ts ts' : List Token} {t : Token}

theorem nil : Reads ending s [] s := rfl

theorem cons (ht : s.step ending t = .ok s') (h : Reads ending s' ts s'') :
    Reads ending s (t :: ts) s'' := by
  rw [Reads, List.foldlM_cons, ht]
  exact h

theorem single (ht : s.step ending t = .ok s') : Reads ending s [t] s' :=
  .cons ht .nil

theorem append (h : Reads ending s ts s') (h' : Reads ending s' ts' s'') :
    Reads ending s (ts ++ ts') s'' := by
  rw [Reads, List.foldlM_append, h]
  exact h'

theorem exists_of_append (h : Reads ending s (ts ++ ts') s'') :
    ∃ s', Reads ending s ts s' ∧ Reads ending s' ts' s'' := by
  rw [Reads, List.foldlM_append] at h
  exact bind_eq_ok.1 h

theorem exists_of_cons (h : Reads ending s (t :: ts) s'') :
    ∃ s', s.step ending t = .ok s' ∧ Reads ending s' ts s'' := by
  rw [Reads, List.foldlM_cons] at h
  exact bind_eq_ok.1 h

theorem unique (h : Reads ending s ts s') (h' : Reads ending s ts s'') : s' = s'' :=
  Except.ok.inj (h.symm.trans h')

end Reads

variable {p : Program}

/-- What is read as part of an expression is read as part of an initializer. -/
theorem reads_initializer {name : Text} {place : Position} {depth : Nat} {e e' : ExprState}
    {ts : List Token} (h : ExprState.Reads depth e ts e') :
    Reads ending (.constantValue p name place e) ts (.constantValue p name place e') := by
  induction h with
  | nil => exact .nil
  | cons _ ht _ ih =>
    refine .cons ?_ ih
    rw [step_constantValue, stepConstant, ht]

/-- What is read as part of a block is read as part of the statements of a method. -/
theorem reads_bodyState {procedure : DeclId} {s s' : StmtState} {ts : List Token}
    (h : StmtState.Reads s ts s') :
    Reads ending (bodyState p procedure s) ts (bodyState p procedure s') := by
  induction h with
  | nil => exact .nil
  | @cons s next s' t ts _ ht _ ih =>
    have hbody : bodyState p procedure s = .body p procedure s := by
      cases s with
      | finished node => simp [StmtState.step] at ht
      | _ => rfl
    refine .cons ?_ ih
    rw [hbody, step_body, stepBody, ht]

end ClassState

end Parser

end Classwright
