import Classwright.Proofs.Parser.Complete

/-!
# What is read is derived

Whatever state tokens have led the parser to, they are those of the derivations that the state has
put aside: operands that wait (`Grammar.Waiting`), open parentheses (`Grammar.Frame`) and open
blocks (`Grammar.Blocks`).  Each token keeps this so (`Grammar.Reading.step`,
`Grammar.Spells.step`), and a tree that is handed on is that of a derivation of the tokens read.
-/

namespace Classwright

open Classwright.Parser

namespace Grammar

/-! ### Operands that wait -/

/-- A row of factors with one more. -/
def Term.snoc : Term → OneOf multiplicatives → Factor → Term
  | .row first rest, op, f => .row first (rest ++ [(op, f)])

theorem Term.tokens_snoc (t : Term) (op : OneOf multiplicatives) (f : Factor) :
    (t.snoc op f).tokens = t.tokens ++ op.1 :: f.tokens := by
  obtain ⟨first, rest⟩ := t
  simp [Term.snoc, Term.tokens_row, rowTokens]

theorem Term.node_snoc (t : Term) (op : OneOf multiplicatives) (f : Factor) :
    (t.snoc op f).node = operation t.node (operator op.1) f.node := by
  obtain ⟨first, rest⟩ := t
  simp [Term.snoc, Term.node_row, joinRow]

/-- A row of terms with one more. -/
def Simple.snoc : Simple → OneOf additives → Term → Simple
  | .row first rest, op, t => .row first (rest ++ [(op, t)])

theorem Simple.tokens_snoc (s : Simple) (op : OneOf additives) (t : Term) :
    (s.snoc op t).tokens = s.tokens ++ op.1 :: t.tokens := by
  obtain ⟨first, rest⟩ := s
  simp [Simple.snoc, Simple.tokens_row, rowTokens]

theorem Simple.node_snoc (s : Simple) (op : OneOf additives) (t : Term) :
    (s.snoc op t).node = operation s.node (operator op.1) t.node := by
  obtain ⟨first, rest⟩ := s
  simp [Simple.snoc, Simple.node_row, joinRow]

/-- The operands of an expression that wait, each for the right side of its operator. -/
structure Waiting where
  /-- The left side of a comparison. -/
  compared : Option (Simple × OneOf comparisons) := none
  /-- Terms in front of another. -/
  added : Option (Simple × OneOf additives) := none
  /-- Factors in front of another. -/
  multiplied : Option (Term × OneOf multiplicatives) := none

/-- An operand that waits, if there is one. -/
def waiting {α : Type} {P : Token → Prop} (node : α → Node) :
    Option (α × { t : Token // P t }) → Pending
  | none => []
  | some (x, op) => [(node x, operator op.1)]

/-- The tokens of an operand that waits, if there is one. -/
def waitingTokens {α : Type} {P : Token → Prop} (tokens : α → List Token) :
    Option (α × { t : Token // P t }) → List Token
  | none => []
  | some (x, op) => tokens x ++ [op.1]

namespace Waiting

/-- The operands as the parser keeps them. -/
def pending (w : Waiting) : Pending :=
  waiting Term.node w.multiplied ++ (waiting Simple.node w.added ++ waiting Simple.node w.compared)

/-- The tokens of the operands and their operators. -/
def tokens (w : Waiting) : List Token :=
  waitingTokens Simple.tokens w.compared ++
    (waitingTokens Simple.tokens w.added ++ waitingTokens Term.tokens w.multiplied)

/-- The factors up to the last one. -/
def term (w : Waiting) (f : Factor) : Term :=
  match w.multiplied with
  | none => .row f []
  | some (t, op) => t.snoc op f

/-- The terms up to the last factor. -/
def simple (w : Waiting) (f : Factor) : Simple :=
  match w.added with
  | none => .row (w.term f) []
  | some (s, op) => s.snoc op (w.term f)

/-- The whole expression up to the last factor. -/
def expr (w : Waiting) (f : Factor) : Expr :=
  match w.compared with
  | none => .simple (w.simple f)
  | some (left, op) => .comparison left op (w.simple f)

variable (w : Waiting) (f : Factor)

theorem tokens_term : (w.term f).tokens = waitingTokens Term.tokens w.multiplied ++ f.tokens := by
  obtain ⟨compared, added, _ | ⟨t, op⟩⟩ := w
  · simp [term, waitingTokens, Term.tokens_row, rowTokens]
  · simp [term, waitingTokens, Term.tokens_snoc]

theorem tokens_simple : (w.simple f).tokens = waitingTokens Simple.tokens w.added ++
    (waitingTokens Term.tokens w.multiplied ++ f.tokens) := by
  rw [← tokens_term]
  obtain ⟨compared, _ | ⟨s, op⟩, multiplied⟩ := w
  · simp [simple, waitingTokens, Simple.tokens_row, rowTokens]
  · simp [simple, waitingTokens, Simple.tokens_snoc]

theorem tokens_expr : (w.expr f).tokens = w.tokens ++ f.tokens := by
  have hsimple := w.tokens_simple f
  obtain ⟨_ | ⟨left, op⟩, added, multiplied⟩ := w
  · simp [expr, tokens, waitingTokens, Expr.tokens, hsimple]
  · simp [expr, tokens, waitingTokens, Expr.tokens, hsimple]

theorem below_compared : Pending.Below 2 (waiting Simple.node w.compared) := by
  obtain ⟨_ | ⟨left, op⟩, added, multiplied⟩ := w
  · exact List.forall_mem_nil _
  · exact Pending.Below.cons (List.forall_mem_nil _)
      (by rw [(operatorOf?_comparison op.2).2.1]; decide)

theorem below_added :
    Pending.Below 3 (waiting Simple.node w.added ++ waiting Simple.node w.compared) := by
  have hcompared := w.below_compared.mono (show 2 ≤ 3 by decide)
  obtain ⟨compared, _ | ⟨s, op⟩, multiplied⟩ := w
  · exact hcompared
  · exact hcompared.cons (by rw [(operatorOf?_additive op.2).2.1]; decide)

/-- Completing the factors that wait gives their row. -/
theorem reduce_term : w.pending.reduce 3 f.node =
    (waiting Simple.node w.added ++ waiting Simple.node w.compared, (w.term f).node) := by
  have hbelow := w.below_added
  obtain ⟨compared, added, _ | ⟨t, op⟩⟩ := w
  · rw [pending, waiting, List.nil_append, hbelow.reduce, term, Term.node_row]
    rfl
  · have hop := (operatorOf?_multiplicative op.2).2.1
    rw [pending, waiting, List.singleton_append, Pending.reduce, if_pos (Nat.le_of_eq hop.symm),
      hbelow.reduce, term, Term.node_snoc, operation]

/-- Completing the terms that wait gives their row. -/
theorem reduce_simple : w.pending.reduce 2 f.node =
    (waiting Simple.node w.compared, (w.simple f).node) := by
  have hbelow := w.below_compared
  rw [← Pending.reduce_reduce (show 2 ≤ 3 by decide), reduce_term]
  obtain ⟨compared, _ | ⟨s, op⟩, multiplied⟩ := w
  · rw [waiting, List.nil_append, hbelow.reduce, simple, Simple.node_row]
    rfl
  · have hop := (operatorOf?_additive op.2).2.1
    rw [waiting, List.singleton_append, Pending.reduce, if_pos (Nat.le_of_eq hop.symm),
      hbelow.reduce, simple, Simple.node_snoc, operation]

/-- Completing everything gives the expression. -/
theorem close_pending : w.pending.close f.node = (w.expr f).node := by
  rw [Pending.close, ← Pending.reduce_reduce (show 0 ≤ 2 by decide), reduce_simple]
  obtain ⟨_ | ⟨left, op⟩, added, multiplied⟩ := w
  · rfl
  · rw [waiting, Pending.reduce, if_pos (Nat.zero_le _), Pending.reduce, expr, Expr.node, operation]

/-- Where a second comparison is not refused none waits. -/
theorem compared_eq_none (h : w.pending.compares = false) : w.compared = none := by
  obtain ⟨_ | ⟨left, op⟩, added, multiplied⟩ := w
  · rfl
  · have hop := (operatorOf?_comparison op.2).2.2
    simp [pending, waiting, Pending.compares, List.any_append, hop] at h

/-- The operands that wait behind an operator between factors. -/
def multiply (op : OneOf multiplicatives) : Waiting :=
  { w with multiplied := some (w.term f, op) }

/-- The operands that wait behind an operator between terms. -/
def add (op : OneOf additives) : Waiting :=
  { compared := w.compared, added := some (w.simple f, op) }

/-- The operands that wait behind a comparison. -/
def compare (op : OneOf comparisons) : Waiting :=
  { compared := some (w.simple f, op) }

theorem pending_multiply (op : OneOf multiplicatives) :
    (w.multiply f op).pending = w.pending.push f.node (operator op.1) := by
  rw [Pending.push, (operatorOf?_multiplicative op.2).2.1, reduce_term]
  rfl

theorem pending_add (op : OneOf additives) :
    (w.add f op).pending = w.pending.push f.node (operator op.1) := by
  rw [Pending.push, (operatorOf?_additive op.2).2.1, reduce_simple]
  rfl

theorem pending_compare (op : OneOf comparisons) (h : w.compared = none) :
    (w.compare f op).pending = w.pending.push f.node (operator op.1) := by
  rw [Pending.push, (operatorOf?_comparison op.2).2.1,
    ← Pending.reduce_reduce (show 1 ≤ 2 by decide), reduce_simple, h]
  rfl

theorem tokens_multiply (op : OneOf multiplicatives) :
    (w.multiply f op).tokens = w.tokens ++ (f.tokens ++ [op.1]) := by
  simp [multiply, tokens, waitingTokens, tokens_term]

theorem tokens_add (op : OneOf additives) :
    (w.add f op).tokens = w.tokens ++ (f.tokens ++ [op.1]) := by
  simp [add, tokens, waitingTokens, tokens_simple]

theorem tokens_compare (op : OneOf comparisons) (h : w.compared = none) :
    (w.compare f op).tokens = w.tokens ++ (f.tokens ++ [op.1]) := by
  simp [compare, tokens, waitingTokens, tokens_simple, h]

/-- An operator that is read lets the operand in front of it wait. -/
theorem exists_push {t : Token} {op : Operator} (ht : operatorOf? t.kind = some op)
    (hcompares : (op.isComparison && w.pending.compares) = false) :
    ∃ w' : Waiting, w'.pending = w.pending.push f.node op ∧
      w'.tokens = w.tokens ++ (f.tokens ++ [t]) := by
  obtain ⟨rfl, hkind | hkind | hkind⟩ := mem_of_operatorOf? ht
  · have hnone : w.compared = none := by
      rw [(operatorOf?_comparison hkind).2.2, Bool.true_and] at hcompares
      exact w.compared_eq_none hcompares
    exact ⟨w.compare f ⟨t, hkind⟩, w.pending_compare f _ hnone, w.tokens_compare f _ hnone⟩
  · exact ⟨w.add f ⟨t, hkind⟩, w.pending_add f _, w.tokens_add f _⟩
  · exact ⟨w.multiply f ⟨t, hkind⟩, w.pending_multiply f _, w.tokens_multiply f _⟩

theorem tokens_empty : ({} : Waiting).tokens = [] := rfl

theorem eq_empty (h : w.pending = []) : w = {} := by
  obtain ⟨_ | ⟨left, op⟩, _ | ⟨s, sign⟩, _ | ⟨t, mark⟩⟩ := w
  · rfl
  all_goals cases h

end Waiting

/-! ### Open parentheses -/

/-- A parenthesis that is open, with what has been read since the one around it. -/
inductive Frame where
  /-- A parenthesis around an expression. -/
  | group (leftParen : Terminal .leftParen) (outer : Waiting)
  /-- The parenthesis of a call, with the arguments so far, the latest first. -/
  | call (name : Terminal .identifier) (leftParen : Terminal .leftParen)
      (done : List (Expr × Terminal .comma)) (outer : Waiting)

/-- The parenthesis as the parser keeps it. -/
def Frame.opening : Frame → Opening
  | .group _ outer => .group outer.pending
  | .call name _ done outer =>
    .arguments name.1.content name.1.position (done.map fun x => x.1.node) outer.pending

/-- The tokens of arguments with a comma behind each. -/
def argumentTokens (done : List (Expr × Terminal .comma)) : List Token :=
  done.reverse.flatMap fun x => x.1.tokens ++ [x.2.1]

/-- The tokens since the parenthesis around it. -/
def Frame.tokens : Frame → List Token
  | .group leftParen outer => outer.tokens ++ [leftParen.1]
  | .call name leftParen done outer =>
    outer.tokens ++ name.1 :: leftParen.1 :: argumentTokens done

/-- The tokens of open parentheses, the latest of which comes first. -/
def frameTokens : List Frame → List Token
  | [] => []
  | frame :: rest => frameTokens rest ++ frame.tokens

/-- The arguments of a call: those with a comma behind them, the latest first, then `e`, then
those behind it. -/
def argumentRow : List (Expr × Terminal .comma) → Expr → List (Terminal .comma × Expr) →
    Expr × List (Terminal .comma × Expr)
  | [], e, rest => (e, rest)
  | (e', comma) :: done, e, rest => argumentRow done e' ((comma, e) :: rest)

theorem tokens_argumentRow (done : List (Expr × Terminal .comma)) (e : Expr)
    (rest : List (Terminal .comma × Expr)) :
    rowTokens Expr.tokens (argumentRow done e rest) =
      argumentTokens done ++ rowTokens Expr.tokens (e, rest) := by
  induction done generalizing e rest with
  | nil => rfl
  | cons x done ih =>
    obtain ⟨e', comma⟩ := x
    rw [argumentRow, ih]
    simp [argumentTokens, rowTokens]

theorem nodes_argumentRow (done : List (Expr × Terminal .comma)) (e : Expr)
    (rest : List (Terminal .comma × Expr)) :
    (argumentRow done e rest).1.node :: Call.restNodes (argumentRow done e rest).2 =
      (done.map fun x => x.1.node).reverse ++ e.node :: Call.restNodes rest := by
  induction done generalizing e rest with
  | nil => rfl
  | cons x done ih =>
    obtain ⟨e', comma⟩ := x
    rw [argumentRow, ih]
    simp [Call.restNodes]

theorem Call.node_some (name : Terminal .identifier) (leftParen : Terminal .leftParen)
    (arguments : Expr × List (Terminal .comma × Expr)) (rightParen : Terminal .rightParen) :
    (Call.intro name leftParen (some arguments) rightParen).node = .call name.1.content
      (arguments.1.node :: Call.restNodes arguments.2) none name.1.position := rfl

theorem exists_group {frames : List Frame} {outer : Pending} {rest : List Opening}
    (h : frames.map Frame.opening = .group outer :: rest) : ∃ leftParen w frames',
      frames = .group leftParen w :: frames' ∧ outer = w.pending ∧
        rest = frames'.map Frame.opening := by
  obtain ⟨frame, frames', rfl, hframe, rfl⟩ := List.map_eq_cons_iff.1 h
  cases frame with
  | group leftParen w => exact ⟨leftParen, w, frames', rfl, (Opening.group.inj hframe).symm, rfl⟩
  | call name leftParen done w => cases hframe

theorem exists_call {frames : List Frame} {callee : Text} {place : Position} {nodes : List Node}
    {outer : Pending} {rest : List Opening}
    (h : frames.map Frame.opening = .arguments callee place nodes outer :: rest) :
    ∃ name leftParen done w frames', frames = .call name leftParen done w :: frames' ∧
      callee = name.1.content ∧ place = name.1.position ∧
        nodes = (done.map fun x => x.1.node) ∧ outer = w.pending ∧
          rest = frames'.map Frame.opening := by
  obtain ⟨frame, frames', rfl, hframe, rfl⟩ := List.map_eq_cons_iff.1 h
  cases frame with
  | group leftParen w => cases hframe
  | call name leftParen done w =>
    obtain ⟨hname, hplace, hdone, hw⟩ := Opening.arguments.inj hframe
    exact ⟨name, leftParen, done, w, frames', rfl, hname.symm, hplace.symm, hdone.symm, hw.symm,
      rfl⟩

/-- The outermost open parenthesis is that of a call in front of which nothing waits. -/
def Alone (frames : List Frame) : Prop :=
  ∃ inner name leftParen done, frames = inner ++ [.call name leftParen done {}]

theorem Alone.cons {frames : List Frame} (h : Alone frames) (frame : Frame) :
    Alone (frame :: frames) := by
  obtain ⟨inner, name, leftParen, done, rfl⟩ := h
  exact ⟨frame :: inner, name, leftParen, done, rfl⟩

theorem not_alone_nil : ¬ Alone [] := by
  rintro ⟨inner, name, leftParen, done, h⟩
  exact absurd h.symm (by simp)

/-- Inside a call that stands alone the innermost parenthesis is another or that of the call. -/
theorem Alone.of_cons {frame : Frame} {frames : List Frame} (h : Alone (frame :: frames)) :
    Alone frames ∨ frames = [] ∧ ∃ name leftParen done, frame = .call name leftParen done {} := by
  obtain ⟨inner, name, leftParen, done, h⟩ := h
  cases inner with
  | nil =>
    obtain ⟨rfl, rfl⟩ := List.cons.inj h
    exact Or.inr ⟨rfl, name, leftParen, done, rfl⟩
  | cons frame' inner =>
    obtain ⟨-, rfl⟩ := List.cons.inj h
    exact Or.inl ⟨inner, name, leftParen, done, rfl⟩

/-! ### Expressions -/

/-- How far an expression has been read. -/
inductive Reading where
  /-- An operand must come. -/
  | operand (frames : List Frame) (w : Waiting)
  /-- A name has been read that may be that of a call. -/
  | identifier (frames : List Frame) (w : Waiting) (name : Terminal .identifier)
  /-- Another factor has been read. -/
  | operator (frames : List Frame) (w : Waiting) (f : Factor)

namespace Reading

/-- The state of the parser. -/
def state : Reading → ExprState
  | .operand frames w => .operand (frames.map Frame.opening) w.pending
  | .identifier frames w name =>
    .identifier (frames.map Frame.opening) w.pending name.1.content name.1.position
  | .operator frames w f => .operator (frames.map Frame.opening) w.pending f.node

/-- The tokens that have been read. -/
def tokens : Reading → List Token
  | .operand frames w => frameTokens frames ++ w.tokens
  | .identifier frames w name => frameTokens frames ++ (w.tokens ++ [name.1])
  | .operator frames w f => frameTokens frames ++ (w.tokens ++ f.tokens)

/-- A call that stands alone is being read, or has been. -/
def Called : Reading → Prop
  | .operand frames _ => Alone frames
  | .identifier frames _ _ => Alone frames
  | .operator frames w f => Alone frames ∨ frames = [] ∧ w = {} ∧ ∃ c, f = .call c

/-- What a token behind a factor leads to. -/
theorem stepValue_shift {frames : List Frame} {w : Waiting} {f : Factor} {t : Token}
    {next : ExprState}
    (h : ExprState.stepValue (frames.map Frame.opening) w.pending f.node t = .shift next) :
    ∃ r : Reading, r.state = next ∧ r.tokens = frameTokens frames ++ (w.tokens ++ f.tokens) ++ [t] ∧
      (Alone frames → r.Called) := by
  unfold ExprState.stepValue at h
  split at h
  · -- the operator waits with its left operand
    rename_i op hop
    split at h
    · cases h
    · rename_i hcompares
      obtain rfl := Step.shift.inj h
      obtain ⟨w', hpending, htokens⟩ := w.exists_push f hop (Bool.eq_false_iff.2 hcompares)
      refine ⟨.operand frames w', ?_, ?_, id⟩
      · rw [state, hpending]
      · rw [tokens, htokens]
        simp
  -- no operator: a bracket or a comma
  · rename_i hop
    split at h
    · -- the innermost opening is that of a group, which is closed
      rename_i outer rest hframes ht
      obtain ⟨leftParen, w', frames, rfl, rfl, rfl⟩ := exists_group hframes
      obtain rfl := Step.shift.inj h
      refine ⟨.operator frames w' (.group leftParen (w.expr f) ⟨t, ht⟩), ?_, ?_, fun halone => ?_⟩
      · rw [state, Factor.node, w.close_pending]
      · simp [tokens, frameTokens, Frame.tokens, Factor.tokens, Waiting.tokens_expr]
      · rcases halone.of_cons with halone | ⟨-, _, _, _, hframe⟩
        · exact Or.inl halone
        · cases hframe
    · -- the comma ends an argument of the innermost call
      rename_i callee place nodes outer rest hframes ht
      obtain ⟨name, leftParen, done, w', frames, rfl, rfl, rfl, rfl, rfl, rfl⟩ :=
        exists_call hframes
      obtain rfl := Step.shift.inj h
      refine ⟨.operand (.call name leftParen ((w.expr f, ⟨t, ht⟩) :: done) w' :: frames) {}, ?_, ?_,
        fun halone => ?_⟩
      · rw [w.close_pending]
        rfl
      · simp [tokens, frameTokens, Frame.tokens, argumentTokens, Waiting.tokens_expr,
          Waiting.tokens_empty]
      · rcases halone.of_cons with halone | ⟨rfl, _, _, _, hframe⟩
        · exact halone.cons _
        · obtain ⟨-, -, -, rfl⟩ := Frame.call.inj hframe
          exact ⟨[], name, leftParen, _, rfl⟩
    · rename_i callee place nodes outer rest hframes ht
      obtain ⟨name, leftParen, done, w', frames, rfl, rfl, rfl, rfl, rfl, rfl⟩ :=
        exists_call hframes
      obtain rfl := Step.shift.inj h
      -- the argument is the last one, and the call is closed
      refine ⟨.operator frames w' (.call (.intro name leftParen
        (some (argumentRow done (w.expr f) [])) ⟨t, ht⟩)), ?_, ?_, fun halone => ?_⟩
      · rw [state, Factor.node, Call.node_some, nodes_argumentRow, w.close_pending,
          List.reverse_cons, Call.restNodes]
      · have hrow : rowTokens Expr.tokens (argumentRow done (w.expr f) []) =
            argumentTokens done ++ (w.tokens ++ f.tokens) := by
          rw [tokens_argumentRow, rowTokens, w.tokens_expr, List.flatMap_nil, List.append_nil]
        simp [tokens, frameTokens, Frame.tokens, Factor.tokens, Call.tokens_some, hrow]
      · rcases halone.of_cons with halone | ⟨rfl, _, _, _, hframe⟩
        · exact Or.inl halone
        · obtain ⟨-, -, -, rfl⟩ := Frame.call.inj hframe
          exact Or.inr ⟨rfl, rfl, _, rfl⟩
    · split at h <;> cases h

/-- Behind a factor an expression is complete only outside all parentheses. -/
theorem stepValue_done {frames : List Frame} {w : Waiting} {f : Factor} {t : Token} {v : Node}
    (h : ExprState.stepValue (frames.map Frame.opening) w.pending f.node t = .done v) :
    frames = [] ∧ v = (w.expr f).node := by
  unfold ExprState.stepValue at h
  split at h
  · split at h <;> cases h
  · split at h
    · cases h
    · cases h
    · cases h
    · cases frames with
      | nil =>
        obtain rfl := Step.done.inj h
        exact ⟨rfl, w.close_pending f⟩
      | cons frame frames => cases frame <;> cases h

theorem stepOperand_shift {frames : List Frame} {w : Waiting} {t : Token} {next : ExprState}
    (h : ExprState.stepOperand (frames.map Frame.opening) w.pending t = .shift next) :
    ∃ r : Reading, r.state = next ∧ r.tokens = frameTokens frames ++ w.tokens ++ [t] ∧
      (Alone frames → r.Called) := by
  unfold ExprState.stepOperand at h
  split at h
  · rename_i ht
    obtain rfl := Step.shift.inj h
    refine ⟨.operator frames w (.number ⟨t, ht⟩), rfl, ?_, Or.inl⟩
    simp [tokens, Factor.tokens]
  · rename_i ht
    obtain rfl := Step.shift.inj h
    refine ⟨.identifier frames w ⟨t, ht⟩, rfl, ?_, id⟩
    simp [tokens]
  · rename_i ht
    obtain rfl := Step.shift.inj h
    refine ⟨.operand (.group ⟨t, ht⟩ w :: frames) {}, rfl, ?_, fun halone => halone.cons _⟩
    simp [tokens, frameTokens, Frame.tokens, Waiting.tokens_empty]
  · rename_i ht
    split at h
    · rename_i hframes hpending
      obtain ⟨name, leftParen, done, w', frames, rfl, rfl, rfl, hdone, rfl, rfl⟩ :=
        exists_call hframes
      obtain rfl := List.map_eq_nil_iff.1 hdone.symm
      obtain rfl := w.eq_empty hpending
      obtain rfl := Step.shift.inj h
      refine ⟨.operator frames w' (.call (.intro name leftParen none ⟨t, ht⟩)), rfl, ?_,
        fun halone => ?_⟩
      · simp [tokens, frameTokens, Frame.tokens, Factor.tokens, Call.tokens, argumentTokens,
          Waiting.tokens_empty]
      · rcases halone.of_cons with halone | ⟨rfl, _, _, _, hframe⟩
        · exact Or.inl halone
        · obtain ⟨-, -, -, rfl⟩ := Frame.call.inj hframe
          exact Or.inr ⟨rfl, rfl, _, rfl⟩
    · cases h
  · cases h

/-- **What is read as an expression is derived.**  A token that is read keeps the tokens those of
what the state has put aside. -/
theorem step_shift {r : Reading} {t : Token} {next : ExprState}
    (h : r.state.step t = .shift next) : ∃ r' : Reading, r'.state = next ∧
      r'.tokens = r.tokens ++ [t] ∧ (r.Called → (∀ w f, r ≠ .operator [] w f) → r'.Called) := by
  cases r with
  | operand frames w =>
    obtain ⟨r', hstate, htokens, hcalled⟩ := stepOperand_shift h
    exact ⟨r', hstate, htokens, fun halone _ => hcalled halone⟩
  | identifier frames w name =>
    simp only [state, ExprState.step] at h
    split at h
    · rename_i ht
      obtain rfl := Step.shift.inj h
      refine ⟨.operand (.call name ⟨t, ht⟩ [] w :: frames) {}, rfl, ?_,
        fun halone _ => halone.cons _⟩
      simp [tokens, frameTokens, Frame.tokens, argumentTokens, Waiting.tokens_empty]
    · obtain ⟨r', hstate, htokens, hcalled⟩ := stepValue_shift (f := .name name) h
      exact ⟨r', hstate, htokens, fun halone _ => hcalled halone⟩
  | operator frames w f =>
    obtain ⟨r', hstate, htokens, hcalled⟩ := stepValue_shift h
    refine ⟨r', hstate, htokens, fun hr hend => ?_⟩
    rcases hr with halone | ⟨rfl, -⟩
    · exact hcalled halone
    · exact absurd rfl (hend w f)

/-- An expression that is complete is that of a derivation of the tokens read. -/
theorem step_done {r : Reading} {t : Token} {v : Node} (h : r.state.step t = .done v) :
    (∃ e : Expr, v = e.node ∧ e.tokens = r.tokens) ∧ (r.Called → ∃ w f, r = .operator [] w f) := by
  cases r with
  | operand frames w =>
    simp only [state, ExprState.step, ExprState.stepOperand] at h
    repeat' split at h
    all_goals cases h
  | identifier frames w name =>
    simp only [state, ExprState.step] at h
    split at h
    · cases h
    · obtain ⟨rfl, rfl⟩ := stepValue_done (f := .name name) h
      exact ⟨⟨_, rfl, w.tokens_expr _⟩, fun halone => absurd halone not_alone_nil⟩
  | operator frames w f =>
    obtain ⟨rfl, rfl⟩ := stepValue_done h
    exact ⟨⟨_, rfl, w.tokens_expr f⟩, fun _ => ⟨w, f, rfl⟩⟩

end Reading

/-! ### Statements -/

theorem Stmt.map_node (done : List Stmt) :
    done.map Stmt.node = (Stmt.nodes done.reverse).reverse := by
  rw [Stmt.nodes_eq, List.map_reverse, List.reverse_reverse]

/-- What an open block belongs to, with what has been read of it. -/
inductive Owner where
  | thenOf (word : Terminal .ifWord) (condition : Condition)
  | elseOf (word : Terminal .ifWord) (condition : Condition) (thens : Block)
      (elseWord : Terminal .elseWord)
  | bodyOf (word : Terminal .whileWord) (condition : Condition)

/-- The owner as the parser keeps it. -/
def Owner.owner : Owner → BlockOwner
  | .thenOf word condition => .thenOf word.1.position condition.value.node
  | .elseOf word condition thens elseWord =>
    .elseOf word.1.position condition.value.node thens.node elseWord.1.position
  | .bodyOf word condition => .bodyOf word.1.position condition.value.node

/-- The tokens in front of the block. -/
def Owner.tokens : Owner → List Token
  | .thenOf word condition => word.1 :: condition.tokens
  | .elseOf word condition thens elseWord =>
    word.1 :: (condition.tokens ++ (thens.tokens ++ [elseWord.1]))
  | .bodyOf word condition => word.1 :: condition.tokens

/-- The open blocks around a place, with the statements in them so far, the latest first. -/
inductive Blocks where
  /-- The statements of a method. -/
  | goal (done : List Stmt)
  /-- A block inside another. -/
  | inner (owner : Owner) (leftBrace : Terminal .leftBrace) (done : List Stmt) (outer : Blocks)

namespace Blocks

/-- The blocks as the parser keeps them, the brace of the outermost standing at `brace`. -/
def opened (brace : Position) : Blocks → List OpenBlock
  | .goal done => [{ owner := .goal, brace, done := done.map Stmt.node }]
  | .inner owner leftBrace done outer =>
    { owner := owner.owner, brace := leftBrace.1.position, done := done.map Stmt.node } ::
      outer.opened brace

/-- The tokens behind the brace of the outermost block. -/
def tokens : Blocks → List Token
  | .goal done => Stmt.allTokens done.reverse
  | .inner owner leftBrace done outer =>
    outer.tokens ++ (owner.tokens ++ leftBrace.1 :: Stmt.allTokens done.reverse)

/-- Puts a statement at the end of the innermost block. -/
def add : Blocks → Stmt → Blocks
  | .goal done, x => .goal (x :: done)
  | .inner owner leftBrace done outer, x => .inner owner leftBrace (x :: done) outer

theorem tokens_add (bs : Blocks) (x : Stmt) : (bs.add x).tokens = bs.tokens ++ x.tokens := by
  cases bs <;> simp [add, tokens, Stmt.allTokens_eq]

theorem complete_opened (brace : Position) (bs : Blocks) (x : Stmt) :
    StmtState.complete (bs.opened brace) x.node = .start ((bs.add x).opened brace) := by
  cases bs <;> rfl

end Blocks

/-- The tokens behind the brace of a method, from the state they have led to. -/
inductive Spells (brace : Position) : StmtState → List Token → Prop
  | start (bs : Blocks) : Spells brace (.start (bs.opened brace)) bs.tokens
  | named (bs : Blocks) (name : Terminal .identifier) :
      Spells brace (.named (bs.opened brace) name.1.content name.1.position)
        (bs.tokens ++ [name.1])
  | assigned (bs : Blocks) (name : Terminal .identifier) (sign : Terminal .assign) (r : Reading) :
      Spells brace
        (.expression (bs.opened brace) (.assigned name.1.content name.1.position) r.state)
        (bs.tokens ++ name.1 :: sign.1 :: r.tokens)
  | returned (bs : Blocks) (word : Terminal .returnWord) (r : Reading) :
      Spells brace (.expression (bs.opened brace) (.returned word.1.position) r.state)
        (bs.tokens ++ word.1 :: r.tokens)
  | called (bs : Blocks) (r : Reading) (h : r.Called) :
      Spells brace (.expression (bs.opened brace) .called r.state) (bs.tokens ++ r.tokens)
  | ifParen (bs : Blocks) (word : Terminal .ifWord) :
      Spells brace (.paren (bs.opened brace) .ifStatement word.1.position) (bs.tokens ++ [word.1])
  | whileParen (bs : Blocks) (word : Terminal .whileWord) :
      Spells brace (.paren (bs.opened brace) .whileStatement word.1.position)
        (bs.tokens ++ [word.1])
  | ifCondition (bs : Blocks) (word : Terminal .ifWord) (leftParen : Terminal .leftParen)
      (r : Reading) :
      Spells brace (.expression (bs.opened brace)
          (.condition .ifStatement word.1.position leftParen.1.position) r.state)
        (bs.tokens ++ word.1 :: leftParen.1 :: r.tokens)
  | whileCondition (bs : Blocks) (word : Terminal .whileWord) (leftParen : Terminal .leftParen)
      (r : Reading) :
      Spells brace (.expression (bs.opened brace)
          (.condition .whileStatement word.1.position leftParen.1.position) r.state)
        (bs.tokens ++ word.1 :: leftParen.1 :: r.tokens)
  | brace (bs : Blocks) (owner : Owner) :
      Spells brace (.brace (bs.opened brace) owner.owner) (bs.tokens ++ owner.tokens)
  | optionalElse (bs : Blocks) (word : Terminal .ifWord) (condition : Condition)
      (thens : Block) :
      Spells brace
        (.optionalElse (bs.opened brace) word.1.position condition.value.node thens.node)
        (bs.tokens ++ word.1 :: (condition.tokens ++ thens.tokens))
  | finished (statements : List Stmt) (rightBrace : Terminal .rightBrace) :
      Spells brace (.finished (.block (Stmt.nodes statements) brace))
        (Stmt.allTokens statements ++ [rightBrace.1])

namespace Spells

variable {brace : Position} {bs : Blocks} {t : Token} {next : StmtState}

/-- A statement that is complete goes into the innermost block. -/
theorem complete (bs : Blocks) (x : Stmt) :
    Spells brace (StmtState.complete (bs.opened brace) x.node) (bs.tokens ++ x.tokens) := by
  rw [Blocks.complete_opened, ← Blocks.tokens_add]
  exact .start _

/-- The brace that closes the innermost block. -/
theorem close (ht : t.kind = .rightBrace) {b : OpenBlock} {rest : List OpenBlock}
    (h : bs.opened brace = b :: rest) :
    Spells brace (StmtState.closeBlock rest b) (bs.tokens ++ [t]) := by
  cases bs with
  | goal done =>
    obtain ⟨rfl, rfl⟩ := List.cons.inj h
    rw [StmtState.closeBlock, Stmt.map_node, List.reverse_reverse]
    exact .finished done.reverse ⟨t, ht⟩
  | inner owner leftBrace done outer =>
    obtain ⟨rfl, rfl⟩ := List.cons.inj h
    rw [Stmt.map_node]
    cases owner with
    | thenOf word condition =>
      have hnext : Spells brace _ _ := .optionalElse outer word condition
        (.intro leftBrace done.reverse ⟨t, ht⟩)
      simpa [StmtState.closeBlock, Owner.owner, Block.node, Blocks.tokens, Owner.tokens,
        Block.tokens] using hnext
    | elseOf word condition thens elseWord =>
      have hnext : Spells brace _ _ := .complete outer (.branch word condition thens
        (some (elseWord, .intro leftBrace done.reverse ⟨t, ht⟩)))
      rw [Owner.owner, Block.closeBlock_else leftBrace done.reverse ⟨t, ht⟩]
      simpa [Stmt.node, Blocks.tokens, Owner.tokens, Stmt.tokens, Block.tokens] using hnext
    | bodyOf word condition =>
      have hnext : Spells brace _ _ := .complete outer
        (.loop word condition (.intro leftBrace done.reverse ⟨t, ht⟩))
      simpa [StmtState.closeBlock, Owner.owner, Stmt.node, Block.node, Blocks.tokens,
        Owner.tokens, Stmt.tokens, Block.tokens] using hnext

/-- The first token of a statement, or the brace that closes the innermost block. -/
theorem stepStart (h : StmtState.stepStart (bs.opened brace) t = .shift next) :
    Spells brace next (bs.tokens ++ [t]) := by
  unfold StmtState.stepStart at h
  split at h
  · rename_i ht
    obtain rfl := Step.shift.inj h
    exact .ifParen bs ⟨t, ht⟩
  · rename_i ht
    obtain rfl := Step.shift.inj h
    exact .whileParen bs ⟨t, ht⟩
  · rename_i ht
    obtain rfl := Step.shift.inj h
    exact .returned bs ⟨t, ht⟩ (.operand [] {})
  · rename_i ht
    obtain rfl := Step.shift.inj h
    exact .named bs ⟨t, ht⟩
  · rename_i ht
    split at h
    · rename_i b rest hblocks
      obtain rfl := Step.shift.inj h
      exact close ht hblocks
    · cases h
  · cases h

/-- What a token leads to inside the expression of a statement. -/
theorem stepExpression {blocks : List OpenBlock} {use : ExprUse} {r : Reading}
    (h : StmtState.stepExpression blocks use r.state t = .shift next) :
    (∃ place, use = .returned place ∧ r = .operand [] {} ∧ t.kind = .semicolon ∧
      next = StmtState.complete blocks (.exit .absent place)) ∨
    (∃ w f, use = .called ∧ r = .operator [] w f ∧
      StmtState.stepUse blocks .called f.node t = .shift next) ∨
    (∃ r' : Reading, next = .expression blocks use r'.state ∧ r'.tokens = r.tokens ++ [t] ∧
      (use = .called → r.Called → r'.Called)) ∨
    ∃ e : Expr, e.tokens = r.tokens ∧ StmtState.stepUse blocks use e.node t = .shift next ∧
      (use = .called → ¬ r.Called) := by
  unfold StmtState.stepExpression at h
  split at h
  -- a semicolon right behind `return`
  · rename_i place hstate ht
    obtain rfl := Step.shift.inj h
    refine Or.inl ⟨place, rfl, ?_, ht, rfl⟩
    cases r with
    | operand frames w =>
      obtain ⟨hframes, hpending⟩ := ExprState.operand.inj hstate
      rw [List.map_eq_nil_iff.1 hframes, w.eq_empty hpending]
    | identifier frames w name => cases hstate
    | operator frames w f => cases hstate
  -- the end of a call that stands alone
  · rename_i pending value hstate
    cases r with
    | operand frames w => cases hstate
    | identifier frames w name => cases hstate
    | operator frames w f =>
      obtain ⟨hframes, -, rfl⟩ := ExprState.operator.inj hstate
      obtain rfl := List.map_eq_nil_iff.1 hframes
      exact Or.inr (Or.inl ⟨w, f, rfl, rfl, h⟩)
  -- any other token is one of the expression or ends it
  · rename_i use _ _ _ hcalled _
    have hend (huse : use = .called) (w : Waiting) (f : Factor) : r ≠ .operator [] w f := by
      rintro rfl
      exact hcalled _ _ huse rfl
    split at h
    · rename_i e he
      obtain rfl := Step.shift.inj h
      obtain ⟨r', rfl, htokens, hr'⟩ := Reading.step_shift he
      exact Or.inr (Or.inr (Or.inl ⟨r', rfl, htokens, fun huse hr => hr' hr (hend huse)⟩))
    · rename_i value hvalue
      obtain ⟨⟨e, rfl, htokens⟩, hcall⟩ := Reading.step_done hvalue
      refine Or.inr (Or.inr (Or.inr ⟨e, htokens, h, fun huse hr => ?_⟩))
      obtain ⟨w, f, hwf⟩ := hcall hr
      exact hend huse w f hwf
    · cases h

/-- The token behind the expression of a statement. -/
theorem stepUse {blocks : List OpenBlock} {use : ExprUse} {value : Node}
    (h : StmtState.stepUse blocks use value t = .shift next) :
    (∃ id place, use = .assigned id place ∧ t.kind = .semicolon ∧
      next = StmtState.complete blocks
        (.binary .assign (.name id none place) value place)) ∨
    (∃ place, use = .returned place ∧ t.kind = .semicolon ∧
      next = StmtState.complete blocks (.exit value place)) ∨
    (use = .called ∧ t.kind = .semicolon ∧ next = StmtState.complete blocks value) ∨
    ∃ owner place paren, use = .condition owner place paren ∧ t.kind = .rightParen ∧
      next = StmtState.afterCondition blocks owner place value := by
  unfold StmtState.stepUse at h
  split at h
  -- an assignment, a `return`, a call and a condition
  · rename_i id place ht
    exact Or.inl ⟨id, place, rfl, ht, (Step.shift.inj h).symm⟩
  · rename_i place ht
    exact Or.inr (Or.inl ⟨place, rfl, ht, (Step.shift.inj h).symm⟩)
  · rename_i ht
    exact Or.inr (Or.inr (Or.inl ⟨rfl, ht, (Step.shift.inj h).symm⟩))
  · rename_i owner place paren ht
    exact Or.inr (Or.inr (Or.inr ⟨owner, place, paren, rfl, ht, (Step.shift.inj h).symm⟩))
  · cases h

/-- A token in an assignment behind its sign. -/
theorem step_assigned {name : Terminal .identifier} {sign : Terminal .assign} {r : Reading}
    (h : StmtState.stepExpression (bs.opened brace) (.assigned name.1.content name.1.position)
      r.state t = .shift next) :
    Spells brace next (bs.tokens ++ name.1 :: sign.1 :: (r.tokens ++ [t])) := by
  rcases stepExpression h with ⟨_, huse, -⟩ | ⟨_, _, huse, -⟩ | ⟨r', rfl, htokens, -⟩ |
    ⟨e, htokens, hend, -⟩
  · cases huse
  · cases huse
  · rw [← htokens]
    exact .assigned bs name sign r'
  · rcases stepUse hend with ⟨_, _, huse, ht, rfl⟩ | ⟨_, huse, -⟩ | ⟨huse, -⟩ | ⟨_, _, _, huse, -⟩
    · cases huse
      rw [← htokens]
      exact .complete bs (.assign name sign e ⟨t, ht⟩)
    all_goals cases huse

/-- A token in a `return` statement. -/
theorem step_returned {word : Terminal .returnWord} {r : Reading}
    (h : StmtState.stepExpression (bs.opened brace) (.returned word.1.position) r.state t =
      .shift next) : Spells brace next (bs.tokens ++ word.1 :: (r.tokens ++ [t])) := by
  rcases stepExpression h with ⟨_, huse, rfl, ht, rfl⟩ | ⟨_, _, huse, -⟩ |
    ⟨r', rfl, htokens, -⟩ | ⟨e, htokens, hend, -⟩
  · cases huse
    exact .complete bs (.exit word none ⟨t, ht⟩)
  · cases huse
  · rw [← htokens]
    exact .returned bs word r'
  · rcases stepUse hend with ⟨_, _, huse, -⟩ | ⟨_, huse, ht, rfl⟩ | ⟨huse, -⟩ | ⟨_, _, _, huse, -⟩
    · cases huse
    · cases huse
      rw [← htokens]
      exact .complete bs (.exit word (some e) ⟨t, ht⟩)
    all_goals cases huse

/-- A token in a call that stands alone. -/
theorem step_called {r : Reading} (hr : r.Called)
    (h : StmtState.stepExpression (bs.opened brace) .called r.state t = .shift next) :
    Spells brace next (bs.tokens ++ (r.tokens ++ [t])) := by
  rcases stepExpression h with ⟨_, huse, -⟩ | ⟨w, f, -, rfl, hend⟩ | ⟨r', rfl, htokens, hr'⟩ |
    ⟨_, -, -, hnot⟩
  · cases huse
  · rcases hr with halone | ⟨-, rfl, c, rfl⟩
    · exact absurd halone not_alone_nil
    · rcases stepUse hend with ⟨_, _, huse, -⟩ | ⟨_, huse, -⟩ | ⟨-, ht, rfl⟩ | ⟨_, _, _, huse, -⟩
      · cases huse
      · cases huse
      · exact .complete bs (.call c ⟨t, ht⟩)
      · cases huse
  · rw [← htokens]
    exact .called bs r' (hr' rfl hr)
  · exact absurd hr (hnot rfl)

/-- A token in a condition. -/
theorem step_condition {owner : ConditionOwner} {place paren : Position} {r : Reading}
    (h : StmtState.stepExpression (bs.opened brace) (.condition owner place paren) r.state t =
      .shift next) :
    (∃ r' : Reading, next = .expression (bs.opened brace) (.condition owner place paren) r'.state ∧
      r'.tokens = r.tokens ++ [t]) ∨
    ∃ e : Expr, e.tokens = r.tokens ∧ t.kind = .rightParen ∧
      next = StmtState.afterCondition (bs.opened brace) owner place e.node := by
  rcases stepExpression h with ⟨_, huse, -⟩ | ⟨_, _, huse, -⟩ | ⟨r', rfl, htokens, -⟩ |
    ⟨e, htokens, hend, -⟩
  · cases huse
  · cases huse
  · exact Or.inl ⟨r', rfl, htokens⟩
  · rcases stepUse hend with ⟨_, _, huse, -⟩ | ⟨_, huse, -⟩ | ⟨huse, -⟩ | ⟨_, _, _, huse, ht, rfl⟩
    · cases huse
    · cases huse
    · cases huse
    · cases huse
      exact Or.inr ⟨e, htokens, ht, rfl⟩

/-- **What is read as statements is derived.**  A token that is read keeps the tokens those of what
the state has put aside. -/
theorem step {s : StmtState} {ts : List Token} (h : Spells brace s ts)
    (hs : s.step t = .shift next) : Spells brace next (ts ++ [t]) := by
  cases h with
  | start bs => exact stepStart hs
  | named bs name =>
    rw [List.append_assoc]
    simp only [StmtState.step] at hs
    -- a name begins a call or an assignment
    split at hs
    · rename_i ht
      obtain rfl := Step.shift.inj hs
      exact .called bs (.operand [.call name ⟨t, ht⟩ [] {}] {}) ⟨[], name, ⟨t, ht⟩, [], rfl⟩
    · rename_i ht
      obtain rfl := Step.shift.inj hs
      exact .assigned bs name ⟨t, ht⟩ (.operand [] {})
    · cases hs
  | assigned bs name sign r =>
    rw [List.append_assoc]
    exact step_assigned hs
  | returned bs word r =>
    rw [List.append_assoc]
    exact step_returned hs
  | called bs r hr =>
    rw [List.append_assoc]
    exact step_called hr hs
  | ifParen bs word =>
    rw [List.append_assoc]
    simp only [StmtState.step] at hs
    split at hs
    · rename_i ht
      obtain rfl := Step.shift.inj hs
      exact .ifCondition bs word ⟨t, ht⟩ (.operand [] {})
    · cases hs
  | whileParen bs word =>
    rw [List.append_assoc]
    simp only [StmtState.step] at hs
    split at hs
    · rename_i ht
      obtain rfl := Step.shift.inj hs
      exact .whileCondition bs word ⟨t, ht⟩ (.operand [] {})
    · cases hs
  | ifCondition bs word leftParen r =>
    rw [List.append_assoc, List.cons_append, List.cons_append]
    -- the condition goes on, or its bracket is closed
    rcases step_condition hs with ⟨r', rfl, htokens⟩ | ⟨e, htokens, ht, rfl⟩
    · rw [← htokens]
      exact .ifCondition bs word leftParen r'
    · rw [← htokens]
      exact .brace bs (.thenOf word ⟨leftParen, e, ⟨t, ht⟩⟩)
  | whileCondition bs word leftParen r =>
    rw [List.append_assoc, List.cons_append, List.cons_append]
    rcases step_condition hs with ⟨r', rfl, htokens⟩ | ⟨e, htokens, ht, rfl⟩
    · rw [← htokens]
      exact .whileCondition bs word leftParen r'
    · rw [← htokens]
      exact .brace bs (.bodyOf word ⟨leftParen, e, ⟨t, ht⟩⟩)
  -- only a block may follow a condition or `else`
  | brace bs owner =>
    simp only [StmtState.step] at hs
    split at hs
    · rename_i ht
      obtain rfl := Step.shift.inj hs
      rw [List.append_assoc]
      exact .start (.inner owner ⟨t, ht⟩ [] bs)
    · cases hs
  | optionalElse bs word condition thens =>
    simp only [StmtState.step] at hs
    split at hs
    · rename_i ht
      obtain rfl := Step.shift.inj hs
      -- an `else` belongs to the branch that has just ended
      have hnext : Spells brace _ _ := .brace bs (.elseOf word condition thens ⟨t, ht⟩)
      simpa [Owner.owner, Owner.tokens] using hnext
    · split at hs
      · cases hs
      -- without it the branch is complete, and the token begins the next statement
      · rename_i b rest hblocks
        have hopened : (bs.add (.branch word condition thens none)).opened brace =
            b.add (StmtState.ifWithoutElse word.1.position condition.value.node thens.node) ::
              rest := by
          cases bs <;>
          · obtain ⟨rfl, rfl⟩ := List.cons.inj hblocks
            rfl
        rw [← hopened] at hs
        have hnext := stepStart hs
        rwa [Blocks.tokens_add] at hnext
  | finished statements rightBrace => cases hs

end Spells

end Grammar

end Classwright
