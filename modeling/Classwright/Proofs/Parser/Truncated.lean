import Classwright.Proofs.Parser.Accepted
import Mathlib

/-!
# Programs that are cut off

What is left of a program in front of a cut is refused as incomplete, never for any other reason.
The tokens lead the parser to the state that it passes in front of the rest of the program
(`Parser.ClassState.exists_of_accepts_append`), and the end of the tokens is refused in every state
but that behind a class (`Parser.ClassState.finish_of_ne_closed`).  Whether the refusal is about a
condition depends on whether one is open in the state.  One is open exactly if the cut stands in a
condition (`Grammar.Cut`): the tokens of a condition lead to such states
(`Grammar.Cut.openCondition`), and in such a state the tokens in front of the cut and those behind
it are derived with a condition around it (`Grammar.exists_cut`).
-/

namespace Classwright

open Classwright.Parser Classwright.Grammar

/-- The keyword of the statements that have the condition. -/
def ConditionOwner.keyword : ConditionOwner → TokenKind
  | ifStatement => .ifWord
  | whileStatement => .whileWord

namespace Grammar

/-- A row of tokens is cut behind the keyword of a statement and in front of the parenthesis that
closes its condition.  The place is that of the opening parenthesis, or behind the last token if
that parenthesis is cut off. -/
inductive Cut : List Token → List Token → ConditionOwner → Position → Prop
  /-- The keyword is the last token. -/
  | paren {owner : ConditionOwner} (before after : List Token) (word : Terminal owner.keyword)
      (c : Condition) :
      Cut (before ++ [word.1]) (c.tokens ++ after) owner (endOfTokens (before ++ [word.1]))
  /-- The value of the condition is cut, at its front or its end perhaps. -/
  | value {owner : ConditionOwner} (before after inside behind : List Token)
      (word : Terminal owner.keyword) (c : Condition) (hvalue : c.value.tokens = inside ++ behind) :
      Cut (before ++ word.1 :: c.leftParen.1 :: inside) (behind ++ c.rightParen.1 :: after) owner
        c.leftParen.1.position

end Grammar

/-! ### The end of the tokens -/

namespace Parser

theorem Objection.error_some (ending ending' : Position) (t : Token) (o : Objection) :
    o.error ending (some t) = o.error ending' (some t) := by
  cases o <;> rfl

namespace ClassState

variable {s : ClassState}

/-- Where the tokens end matters only at their end. -/
theorem step_ending (ending ending' : Position) : step ending = step ending' := by
  funext s t
  unfold step stepBody stepConstant
  simp only [Objection.error_some ending ending']

/-- The owner of the condition that is being read, and the place of its parenthesis if that has
been read. -/
def openCondition : ClassState → Option (ConditionOwner × Option Position)
  | .body _ _ (.paren _ owner _) => some (owner, none)
  | .body _ _ (.expression _ (.condition owner _ paren) _) => some (owner, some paren)
  | _ => none

/-- The error for tokens that end while something is expected. -/
def endError (ending : Position) (what : Expectation) :
    Option (ConditionOwner × Option Position) → CompileError
  | none => ⟨.syntaxError (.ending what), ending⟩
  | some (owner, start) => ⟨.badCondition owner (.ending what), start.getD ending⟩

/-- The tokens may end only behind a class. -/
theorem finish_of_ne_closed (ending : Position) (h : ∀ p, s ≠ .closed p) :
    ∃ what, s.finish ending = .error (endError ending what s.openCondition) := by
  cases s with
  | closed p => exact absurd rfl (h p)
  | constantValue p name place e =>
    cases he : e.finish with
    | error what => exact ⟨what, by simp only [finish, he]; rfl⟩
    | ok v => exact ⟨.semicolon, by simp only [finish, he]; rfl⟩
  | body p procedure s =>
    cases s with
    | expression blocks use e =>
      cases use <;> cases he : e.finish <;>
        exact ⟨_, by simp only [finish, StmtState.finish, he]; rfl⟩
    | start blocks => cases blocks <;> exact ⟨_, rfl⟩
    | optionalElse blocks place condition thenBlock => cases blocks <;> exact ⟨_, rfl⟩
    | _ => exact ⟨_, rfl⟩
  | _ => exact ⟨_, rfl⟩

end ClassState

end Parser

/-! ### From conditions to states -/

namespace Parser

variable {owner : ConditionOwner} (word : Terminal owner.keyword)

/-- The token is of no other kind than one of the two that have a condition. -/
theorem Terminal.keyword_ne {k : TokenKind} (hk : k ∉ [TokenKind.ifWord, .whileWord]) :
    word.1.kind ≠ k := by
  rintro rfl
  cases owner <;> rw [word.2] at hk <;> exact absurd hk (by decide)

/-- A keyword that has a condition is no part of an expression. -/
theorem ExprState.step_keyword (s next : ExprState) : s.step word.1 ≠ .shift next := by
  have hvalue (openings : List Opening) (pending : Pending) (value : Node) :
      stepValue openings pending value word.1 ≠ .shift next := by
    intro h
    unfold stepValue at h
    cases owner <;> rw [word.2] at h <;>
    · cases openings with
      | nil => cases h
      | cons opening openings => cases opening <;> cases h
  cases s with
  | operand openings pending =>
    intro h
    simp only [step, stepOperand] at h
    cases owner <;> rw [word.2] at h <;> cases h
  | identifier openings pending id place =>
    have hkind : word.1.kind ≠ .leftParen := by
      cases owner <;> rw [word.2] <;> decide
    rw [step, if_neg hkind]
    exact hvalue _ _ _
  | operator openings pending value => exact hvalue _ _ _

namespace StmtState

/-- It cannot stand behind the expression of a statement. -/
theorem stepUse_keyword (blocks : List OpenBlock) (use : ExprUse) (value : Node)
    (next : StmtState) : stepUse blocks use value word.1 ≠ .shift next := by
  intro h
  unfold stepUse at h
  cases owner <;> rw [word.2] at h <;> cases use <;> cases h

/-- Where a statement may start it starts one with a condition. -/
theorem stepStart_keyword (blocks : List OpenBlock) :
    stepStart blocks word.1 = .shift (.paren blocks owner word.1.position) := by
  unfold stepStart
  cases owner <;> rw [word.2] <;> rfl

theorem step_keyword {s next : StmtState} (h : s.step word.1 = .shift next) :
    ∃ blocks, next = .paren blocks owner word.1.position := by
  have hkind (k : TokenKind) (hk : k ∉ [TokenKind.ifWord, .whileWord]) : word.1.kind ≠ k :=
    Terminal.keyword_ne word hk
  cases s with
  | start blocks =>
    rw [step, stepStart_keyword] at h
    exact ⟨blocks, (Step.shift.inj h).symm⟩
  | named blocks id place =>
    simp only [step] at h
    split at h
    · exact absurd ‹_› (hkind _ (by decide))
    · exact absurd ‹_› (hkind _ (by decide))
    · cases h
  | expression blocks use e =>
    simp only [step] at h
    unfold stepExpression at h
    split at h
    · exact absurd ‹_› (hkind _ (by decide))
    · exact absurd h (stepUse_keyword word _ _ _ _)
    · split at h
      · exact absurd ‹_› (ExprState.step_keyword word _ _)
      · exact absurd h (stepUse_keyword word _ _ _ _)
      · cases h
  | paren blocks owner' place =>
    rw [step, if_neg (hkind _ (by decide))] at h
    cases h
  | brace blocks owner' =>
    rw [step, if_neg (hkind _ (by decide))] at h
    cases h
  | optionalElse blocks place condition thenBlock =>
    simp only [step, if_neg (hkind .elseWord (by decide))] at h
    cases blocks with
    | nil => cases h
    | cons b rest =>
      have hstart := (stepStart_keyword word _).symm.trans h
      exact ⟨_, (Step.shift.inj hstart).symm⟩
  | finished node => cases h

end StmtState

namespace ClassState

variable {ending : Position}

/-- No state waits for a keyword that has a condition. -/
theorem wanted?_ne_keyword {s : ClassState} {k : TokenKind} {next : Token → ClassState}
    (h : s.wanted? = some (k, next)) : k ∉ [TokenKind.ifWord, .whileWord] := by
  cases s <;> cases h <;> decide

/-- **Behind the keyword of a statement its condition is open.** -/
theorem step_keyword {s next : ClassState} (h : s.step ending word.1 = .ok next) :
    ∃ p procedure blocks, next = .body p procedure (.paren blocks owner word.1.position) := by
  have hbody (p : Program) (procedure : DeclId) (s : StmtState)
      (h : stepBody ending p procedure s word.1 = .ok next) :
      ∃ p procedure blocks, next = .body p procedure (.paren blocks owner word.1.position) := by
    unfold stepBody at h
    split at h
    · obtain ⟨blocks, rfl⟩ := StmtState.step_keyword word ‹_›
      exact ⟨p, procedure, blocks, (Except.ok.inj h).symm⟩
    · cases h
    · cases h
  have hkind (k : TokenKind) (hk : k ∉ [TokenKind.ifWord, .whileWord]) : word.1.kind ≠ k :=
    Terminal.keyword_ne word hk
  cases hw : s.wanted? with
  | some wanted =>
    rw [step_wanted hw, if_neg (hkind _ (wanted?_ne_keyword hw))] at h
    cases h
  | none =>
    cases s with
    | constantValue p name place e =>
      rw [step_constantValue, stepConstant] at h
      split at h
      · exact absurd ‹_› (ExprState.step_keyword word _ _)
      · cases h
      · rw [if_neg (hkind _ (by decide))] at h
        cases h
    | locals p home =>
      rw [step_locals, if_neg (hkind _ (by decide))] at h
      exact hbody p home.procedure (.start [{ owner := .goal, brace := home.brace }]) h
    | body p procedure s => exact hbody p procedure s h
    | members p group =>
      -- no group of members begins with the keyword
      have hmethods : (members p .methods).step ending word.1 ≠ .ok next := by
        rw [step_methods, if_neg (hkind _ (by decide)), if_neg (hkind _ (by decide))]
        intro hrefuse
        cases hrefuse
      have hvariables : (members p .variables).step ending word.1 ≠ .ok next := by
        rwa [step_variables, if_neg (hkind _ (by decide))]
      have hconstants : (members p .constants).step ending word.1 ≠ .ok next := by
        rwa [step_constants, if_neg (hkind _ (by decide))]
      cases group
      · exact absurd h hconstants
      · exact absurd h hvariables
      · exact absurd h hmethods
    | variableEnd p home name place =>
      rw [step_variableEnd, if_neg (hkind _ (by decide))] at h
      cases h
    | methodType p =>
      rw [step_methodType, if_neg (hkind _ (by decide)), if_neg (hkind _ (by decide))] at h
      cases h
    | firstParam p head =>
      rw [step_firstParam, if_neg (hkind _ (by decide)), if_neg (hkind _ (by decide))] at h
      cases h
    | paramEnd p head =>
      rw [step_paramEnd, if_neg (hkind _ (by decide)), if_neg (hkind _ (by decide))] at h
      cases h
    | closed p =>
      rw [step_closed] at h
      cases h
    | _ => cases hw

/-- Behind the keyword the parenthesis of the condition must come. -/
theorem step_paren {p : Program} {procedure : DeclId} {blocks : List OpenBlock}
    {owner : ConditionOwner} {place : Position} {t : Token} {next : ClassState} :
    (ClassState.body p procedure (.paren blocks owner place)).step ending t = .ok next ↔
      t.kind = .leftParen ∧ .body p procedure
        (.expression blocks (.condition owner place t.position) .start) = next := by
  by_cases ht : t.kind = .leftParen
  · simp [step_body, stepBody, StmtState.step, bodyState, ht]
  · simp [step_body, stepBody, StmtState.step, ht]

end ClassState

end Parser

/-- What is in front of a cut in a condition holds the keyword. -/
theorem Grammar.Cut.ne_nil {front back : List Token} {owner : ConditionOwner} {place : Position}
    (h : Cut front back owner place) : front ≠ [] := by
  cases h <;> simp

/-- **In a condition that is cut a condition is open.** -/
theorem Grammar.Cut.openCondition {front back : List Token} {owner : ConditionOwner}
    {place ending : Position} {s s' : ClassState} (h : Cut front back owner place)
    (hreads : ClassState.Reads ending s front s') :
    ∃ start, s'.openCondition = some (owner, start) ∧ start.getD (endOfTokens front) = place := by
  cases h with
  | paren before after word c =>
    obtain ⟨m, -, hword⟩ := hreads.exists_of_append
    obtain ⟨m', hword, hend⟩ := hword.exists_of_cons
    obtain ⟨p, procedure, blocks, rfl⟩ := ClassState.step_keyword word hword
    obtain rfl := hend.unique .nil
    exact ⟨none, rfl, rfl⟩
  | value before after inside behind word c hvalue =>
    obtain ⟨m, -, hword⟩ := hreads.exists_of_append
    obtain ⟨m', hword, hparen⟩ := hword.exists_of_cons
    obtain ⟨p, procedure, blocks, rfl⟩ := ClassState.step_keyword word hword
    obtain ⟨m'', hparen, hinside⟩ := hparen.exists_of_cons
    obtain ⟨-, rfl⟩ := ClassState.step_paren.1 hparen
    -- The value would be read to its end, so it is read to the cut.
    obtain ⟨pending, last, e, -, -, hread⟩ := c.value.exists_reads
    rw [hvalue] at hread
    obtain ⟨e', hread⟩ := hread.exists_of_append
    have hstate : ClassState.Reads ending (.body p procedure (.expression blocks
        (.condition owner word.1.position c.leftParen.1.position) .start)) inside
        (.body p procedure (.expression blocks
          (.condition owner word.1.position c.leftParen.1.position) e')) :=
      ClassState.reads_bodyState (StmtState.reads_expression (by simp) hread)
    obtain rfl := hinside.unique hstate
    exact ⟨some c.leftParen.1.position, rfl, rfl⟩

/-! ### From states to conditions -/

namespace Parser.ClassState

/-- The statements of the method that is being read are derived. -/
def Derived (ts : List Token) : ClassState → Prop
  | .body _ _ s => ∃ front brace spelled, ts = front ++ spelled ∧ Spells brace s spelled
  | _ => True

variable {ending : Position} {s s' : ClassState} {t : Token} {ts : List Token}

theorem derived_stepBody {p : Program} {procedure : DeclId} {b : StmtState}
    (hb : Derived ts (.body p procedure b)) (h : stepBody ending p procedure b t = .ok s') :
    Derived (ts ++ [t]) s' := by
  obtain ⟨front, brace, spelled, rfl, hspelled⟩ := hb
  unfold stepBody at h
  split at h
  · rename_i next hnext
    obtain rfl := Except.ok.inj h
    have hstep := hspelled.step hnext
    cases next with
    | finished node => trivial
    | _ => exact ⟨front, brace, _, List.append_assoc _ _ _, hstep⟩
  · cases h
  · cases h

theorem derived_stepConstant {p : Program} {name : Text} {place : Position} {e : ExprState}
    (h : stepConstant ending p name place e t = .ok s') : Derived ts s' := by
  unfold stepConstant at h
  split at h
  · obtain rfl := Except.ok.inj h
    trivial
  · cases h
  · split at h
    · obtain ⟨p', -, hs'⟩ := bind_eq_ok.1 h
      obtain rfl := pure_eq_ok.1 hs'
      trivial
    · cases h

theorem derived_declareVariable {p : Program} {home : Option MethodBody} {name : Text}
    {place : Position} (h : declareVariable p home name place = .ok s') : Derived ts s' := by
  unfold declareVariable at h
  cases home <;>
  · obtain ⟨p', -, hs'⟩ := bind_eq_ok.1 h
    obtain rfl := pure_eq_ok.1 hs'
    trivial

theorem derived_stepParamsEnd {p : Program} {head : MethodHead}
    (h : stepParamsEnd p head = .ok s') : Derived ts s' := by
  obtain ⟨⟨p', procedure, table⟩, -, hs'⟩ := bind_eq_ok.1 h
  obtain rfl := pure_eq_ok.1 hs'
  trivial

/-- A token that is read in a body keeps its statements derived; outside bodies there are none. -/
theorem derived_step (hs : Derived ts s) (h : s.step ending t = .ok s') :
    Derived (ts ++ [t]) s' := by
  unfold step at h
  split at h
  all_goals try obtain rfl := Except.ok.inj h
  -- Most tokens lead to a state outside bodies.
  all_goals try trivial
  · exact derived_stepConstant h
  · exact derived_declareVariable h
  · exact derived_stepParamsEnd h
  · exact derived_stepParamsEnd h
  · rename_i home _
    exact derived_stepBody
      ⟨ts, home.brace, [], (List.append_nil ts).symm, .start (.goal [])⟩ h
  · exact derived_stepBody hs h

theorem derived_reads (hs : Derived ts s) {read : List Token} (h : Reads ending s read s') :
    Derived (ts ++ read) s' := by
  induction read generalizing s ts with
  | nil =>
    obtain rfl := h.unique .nil
    rwa [List.append_nil]
  | cons t read ih =>
    obtain ⟨m, ht, hread⟩ := h.exists_of_cons
    have hmore := ih (derived_step hs ht) hread
    rwa [List.append_assoc, List.singleton_append] at hmore

end Parser.ClassState

namespace Grammar

variable {brace : Position} {ts : List Token}

theorem Spells.exists_of_paren {blocks : List OpenBlock} {owner : ConditionOwner} {place : Position}
    (h : Spells brace (.paren blocks owner place) ts) :
    ∃ (bs : Blocks) (word : Terminal owner.keyword),
      blocks = bs.opened brace ∧ ts = bs.tokens ++ [word.1] := by
  cases h with
  | ifParen bs word => exact ⟨bs, word, rfl, rfl⟩
  | whileParen bs word => exact ⟨bs, word, rfl, rfl⟩

theorem Spells.exists_of_condition {blocks : List OpenBlock} {owner : ConditionOwner}
    {place paren : Position} {e : ExprState}
    (h : Spells brace (.expression blocks (.condition owner place paren) e) ts) :
    ∃ (bs : Blocks) (word : Terminal owner.keyword) (leftParen : Terminal .leftParen) (r : Reading),
      blocks = bs.opened brace ∧ paren = leftParen.1.position ∧ e = r.state ∧
        ts = bs.tokens ++ word.1 :: leftParen.1 :: r.tokens := by
  cases h with
  | ifCondition bs word leftParen r => exact ⟨bs, word, leftParen, r, rfl, rfl, rfl, rfl⟩
  | whileCondition bs word leftParen r => exact ⟨bs, word, leftParen, r, rfl, rfl, rfl, rfl⟩

theorem accepts_paren {ending : Position} {p q : Program} {procedure : DeclId}
    {blocks : List OpenBlock} {owner : ConditionOwner} {place : Position}
    (h : ClassState.Accepts ending (.body p procedure (.paren blocks owner place)) ts q) :
    ∃ (leftParen : Terminal .leftParen) (rest : List Token), ts = leftParen.1 :: rest ∧
      ClassState.Accepts ending (.body p procedure
        (.expression blocks (.condition owner place leftParen.1.position) .start)) rest q := by
  cases ts with
  | nil => cases ClassState.accepts_nil.1 h
  | cons t ts =>
    obtain ⟨s', hs', hts⟩ := ClassState.accepts_cons.1 h
    obtain ⟨ht, rfl⟩ := ClassState.step_paren.1 hs'
    exact ⟨⟨t, ht⟩, ts, rfl, hts⟩

/-- A condition of which some has been read. -/
theorem accepts_condition {ending : Position} {p q : Program} {procedure : DeclId} {bs : Blocks}
    {owner : ConditionOwner} {place paren : Position} {r : Reading}
    (h : ClassState.Accepts ending (.body p procedure
      (.expression (bs.opened brace) (.condition owner place paren) r.state)) ts q) :
    ∃ (e : Expr) (rightParen : Terminal .rightParen) (read rest : List Token),
      ts = read ++ rightParen.1 :: rest ∧ e.tokens = r.tokens ++ read := by
  induction ts generalizing r with
  | nil => cases ClassState.accepts_nil.1 h
  | cons t ts ih =>
    obtain ⟨s', hs', hts⟩ := ClassState.accepts_cons.1 h
    rw [ClassState.step_body, ClassState.stepBody] at hs'
    split at hs'
    · rename_i next hnext
      obtain rfl := Except.ok.inj hs'
      rcases Spells.step_condition hnext with ⟨r', rfl, htokens⟩ | ⟨e, htokens, ht, -⟩
      · obtain ⟨e, rightParen, read, rest, rfl, he⟩ := ih hts
        exact ⟨e, rightParen, t :: read, rest, rfl, by rw [he, htokens, List.append_assoc]; rfl⟩
      · exact ⟨e, ⟨t, ht⟩, [], ts, rfl, by rw [htokens, List.append_nil]⟩
    · cases hs'
    · cases hs'

/-- **Where a condition is open, the cut stands in a condition.** -/
theorem exists_cut {ending : Position} {front back : List Token} {s : ClassState} {q : Program}
    (hs : s.Derived front) (h : ClassState.Accepts ending s back q) {owner : ConditionOwner}
    {start : Option Position} (hopen : s.openCondition = some (owner, start)) :
    Cut front back owner (start.getD (endOfTokens front)) := by
  cases s with
  | body p procedure b =>
    obtain ⟨before, brace, spelled, rfl, hspelled⟩ := hs
    cases b with
    | paren blocks owner' place =>
      cases hopen
      -- The condition is cut off as a whole.
      obtain ⟨bs, word, rfl, rfl⟩ := hspelled.exists_of_paren
      obtain ⟨leftParen, back, rfl, hvalue⟩ := accepts_paren h
      obtain ⟨e, rightParen, read, rest, rfl, he⟩ := accepts_condition (r := .operand [] {}) hvalue
      have hback : leftParen.1 :: (read ++ rightParen.1 :: rest) =
          Condition.tokens ⟨leftParen, e, rightParen⟩ ++ rest := by
        rw [Condition.tokens, he]
        simp [Reading.tokens, frameTokens, Waiting.tokens_empty]
      rw [hback, ← List.append_assoc]
      exact Cut.paren (before ++ bs.tokens) rest word _
    | expression blocks use e =>
      cases use with
      | condition owner' place paren =>
        cases hopen
        -- Some of its value has been read, and what is behind the cut completes it.
        obtain ⟨bs, word, leftParen, r, rfl, rfl, rfl, rfl⟩ := hspelled.exists_of_condition
        obtain ⟨e, rightParen, read, rest, rfl, he⟩ := accepts_condition h
        rw [← List.append_assoc]
        exact Cut.value (before ++ bs.tokens) rest r.tokens read word ⟨leftParen, e, rightParen⟩ he
      | _ => cases hopen
    | _ => cases hopen
  | _ => cases hopen

end Grammar

namespace Program

/-- **What is left of a program that is cut off is incomplete.**  If the cut stands behind `if` or
`while` and in front of the parenthesis that closes its condition, the condition is refused at its
opening parenthesis, or behind the last token if that parenthesis is cut off; otherwise the end is
refused behind the last token. -/
theorem ofTokens_incomplete {front back : List Token} {p : Program}
    (h : ofTokens (front ++ back) = .ok p) (hback : back ≠ []) :
    (∀ owner place, Cut front back owner place → ∃ what,
      ofTokens front = .error ⟨.badCondition owner (.ending what), place⟩) ∧
    ((∀ owner place, ¬ Cut front back owner place) → ∃ what,
      ofTokens front = .error ⟨.syntaxError (.ending what), endOfTokens front⟩) := by
  obtain ⟨s, hreads, haccepts⟩ := ClassState.exists_of_accepts_append h
  have hclosed : ∀ q, s ≠ .closed q := by
    rintro q rfl
    exact hback (ClassState.accepts_closed.1 haccepts).1
  -- The tokens end elsewhere now, which no step has noticed.
  have hfront : ofTokens front = s.finish (endOfTokens front) := by
    have hreads' : ClassState.Reads (endOfTokens front) .classWord front s := by
      rw [ClassState.Reads, ClassState.step_ending _ (endOfTokens (front ++ back))]
      exact hreads
    rw [ofTokens, show front.foldlM (ClassState.step (endOfTokens front)) .classWord = .ok s from
      hreads']
    rfl
  obtain ⟨what, hfinish⟩ := ClassState.finish_of_ne_closed (endOfTokens front) hclosed
  rw [hfront, hfinish]
  constructor
  · intro owner place hcut
    obtain ⟨start, hopen, rfl⟩ := hcut.openCondition hreads
    rw [hopen]
    exact ⟨what, rfl⟩
  · intro hcut
    cases hopen : s.openCondition with
    | none => exact ⟨what, rfl⟩
    | some x =>
      have hstart : ClassState.Derived [] .classWord := trivial
      have hderived := ClassState.derived_reads hstart hreads
      exact absurd (exists_cut hderived haccepts hopen) (hcut _ _)

/-- Tokens that end too soon are refused for that. -/
example (what : Expectation) (place : Position) :
    CompileError.kind ⟨.syntaxError (.ending what), place⟩ = .unexpectedEnd := rfl

/-- The keyword of a loop. -/
def loopWord : Terminal ConditionOwner.whileStatement.keyword :=
  ⟨⟨.whileWord, TokenKind.whileWord.spelling, 1, 24⟩, rfl⟩

/-- The condition of a loop. -/
def loopCondition : Grammar.Condition where
  leftParen := ⟨⟨.leftParen, TokenKind.leftParen.spelling, 1, 29⟩, rfl⟩
  value := .simple (.row (.row (.number ⟨⟨.number, [0x31], 1, 30⟩, rfl⟩) []) [])
  rightParen := ⟨⟨.rightParen, TokenKind.rightParen.spelling, 1, 31⟩, rfl⟩

/-- The tokens in front of the loop. -/
def loopBefore : List Token :=
  ((Token.ofText ("class A\x7bpublic void f()\x7b".toList.map Character.byte)).toOption).getD []

/-- The tokens behind its condition. -/
def loopAfter : List Token :=
  ((Token.ofText ("\x7b\x7d\x7d\x7d".toList.map Character.byte)).toOption).getD []

/-- The tokens up to the value of the condition. -/
def loopFront : List Token :=
  loopBefore ++ loopWord.1 :: loopCondition.leftParen.1 :: loopCondition.value.tokens

/-- The tokens from the parenthesis that closes the condition. -/
def loopBack : List Token :=
  loopCondition.rightParen.1 :: loopAfter

theorem ofTokens_incomplete_loop : (∃ p, ofTokens (loopFront ++ loopBack) = .ok p) ∧
    (∃ what, ofTokens loopFront =
      .error ⟨.badCondition .whileStatement (.ending what), ⟨1, 30⟩⟩) ∧
    ∃ what, ofTokens [] = .error ⟨.syntaxError (.ending what), ⟨1, 1⟩⟩ := by
  have hcheck : (ofTokens (loopFront ++ loopBack)).isOk = true := by cbv
  obtain ⟨p, hp⟩ := exists_of_isOk hcheck
  have hcut : Cut loopFront loopBack .whileStatement ⟨1, 30⟩ :=
    .value loopBefore loopAfter loopCondition.value.tokens [] loopWord loopCondition
      (List.append_nil _).symm
  have hnone : ∀ owner place, ¬ Cut [] (loopFront ++ loopBack) owner place :=
    fun _ _ hcut => hcut.ne_nil rfl
  have hwhole : ofTokens ([] ++ (loopFront ++ loopBack)) = .ok p := hp
  exact ⟨⟨p, hp⟩, (ofTokens_incomplete hp (List.cons_ne_nil _ _)).1 _ _ hcut,
    (ofTokens_incomplete hwhole (by simp [loopFront])).2 hnone⟩

end Program

end Classwright
