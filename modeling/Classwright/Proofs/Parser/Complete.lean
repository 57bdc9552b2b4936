import Classwright.Proofs.Parser.Grammar
import Classwright.Proofs.Parser.Runs

/-!
# Derivations are read

The parser reads the tokens of every expression and every statement of the grammar into the tree
of its derivation, whatever has been read before (`Grammar.Expr.reads`, `Grammar.Stmt.reads`).

Operands of operators that bind at least as tightly as some number are joined on top of the
operands that wait for looser operators (`Parser.ExprState.HasJoined`), so a row of terms or
factors is read by the same argument on its level (`Grammar.reads_row`).
-/

namespace Classwright

namespace Parser

namespace Pending

/-- The operators that wait bind less tightly than `least`. -/
def Below (least : Nat) (pending : Pending) : Prop :=
  ∀ w ∈ pending, w.2.priority < least

variable {least least' : Nat} {pending : Pending}

theorem Below.mono (h : pending.Below least) (hle : least ≤ least') : pending.Below least' :=
  fun w hw => Nat.lt_of_lt_of_le (h w hw) hle

theorem Below.cons (h : pending.Below least) {left : Node} {op : Operator}
    (hop : op.priority < least) : Below least ((left, op) :: pending) :=
  List.forall_mem_cons.2 ⟨hop, h⟩

theorem Below.reduce (h : pending.Below least) (value : Node) :
    pending.reduce least value = (pending, value) := by
  cases pending with
  | nil => rfl
  | cons w rest =>
    obtain ⟨left, op⟩ := w
    have hop : op.priority < least := h _ List.mem_cons_self
    rw [Pending.reduce, if_neg (Nat.not_le.2 hop)]

/-- Completing looser operations as well gives what completing them at once gives. -/
theorem reduce_reduce (hle : least ≤ least') (pending : Pending) (value : Node) :
    (pending.reduce least' value).1.reduce least (pending.reduce least' value).2 =
      pending.reduce least value := by
  induction pending generalizing value with
  | nil => rfl
  | cons w rest ih =>
    obtain ⟨left, op⟩ := w
    by_cases hop : least' ≤ op.priority
    · rw [Pending.reduce, if_pos hop, ih, Pending.reduce, if_pos (Nat.le_trans hle hop)]
    · rw [Pending.reduce, if_neg hop]

/-- Completing tighter operations completes no comparison. -/
theorem compares_reduce (pending : Pending) (value : Node) :
    (pending.reduce 2 value).1.compares = pending.compares := by
  induction pending generalizing value with
  | nil => rfl
  | cons w rest ih =>
    obtain ⟨left, op⟩ := w
    by_cases hop : 2 ≤ op.priority
    · have hno : op.isComparison = false := by
        cases op <;> first | rfl | exact absurd hop (by decide)
      rw [Pending.reduce, if_pos hop, ih]
      simp only [compares, List.any_cons, hno, Bool.false_or]
    · rw [Pending.reduce, if_neg hop]

theorem Below.compares (h : pending.Below 1) : pending.compares = false := by
  rw [Pending.compares, List.any_eq_false]
  rintro ⟨left, op⟩ hw
  have hop : op.priority < 1 := h _ hw
  show ¬ op.isComparison = true
  cases op <;> first | decide | exact absurd hop (by decide)

end Pending

namespace ExprState

/-- Behind operands that join to `value`, while `outer` waits for looser operators. -/
def HasJoined (least : Nat) (openings : List Opening) (outer : Pending) (value : Node)
    (s : ExprState) : Prop :=
  ∃ pending last, HasRead openings pending last s ∧ pending.reduce least last = (outer, value)

namespace HasJoined

variable {least : Nat} {openings : List Opening} {outer : Pending} {value : Node} {s : ExprState}
  {t : Token}

theorem le_openings (h : HasJoined least openings outer value s) :
    openings.length ≤ s.openings.length := by
  obtain ⟨pending, last, hread, -⟩ := h
  exact hread.le_openings

/-- What waits may be joined with looser operators too. -/
theorem loosen {least' : Nat} (h : HasJoined least' openings outer value s)
    (hle : least ≤ least') :
    HasJoined least openings (outer.reduce least value).1 (outer.reduce least value).2 s := by
  obtain ⟨pending, last, hread, hreduce⟩ := h
  refine ⟨pending, last, hread, ?_⟩
  rw [← Pending.reduce_reduce hle, hreduce]

/-- An operand that nothing of the same level waits for. -/
theorem loosen_below {least' : Nat} (h : HasJoined least' openings outer value s)
    (hle : least ≤ least') (hbelow : outer.Below least) :
    HasJoined least openings outer value s := by
  have hjoined := h.loosen hle
  rwa [hbelow.reduce] at hjoined

/-- The right side of an operator completes the operation. -/
theorem loosen_cons {least' : Nat} {left : Node} {op : Operator}
    (h : HasJoined least' openings ((left, op) :: outer) value s) (hle : least ≤ least')
    (hop : op.priority = least) (hbelow : outer.Below least) :
    HasJoined least openings outer (Grammar.operation left op value) s := by
  have hjoined := h.loosen hle
  rwa [Pending.reduce, if_pos (Nat.le_of_eq hop.symm), hbelow.reduce] at hjoined

/-- An operator lets the operand in front of it wait. -/
theorem step_operator (h : HasJoined least openings outer value s) {op : Operator}
    (ht : operatorOf? t.kind = some op) (hop : op.priority = least)
    (hcompares : op.isComparison = false) :
    s.step t = .shift (.operand openings ((value, op) :: outer)) := by
  obtain ⟨pending, last, hread, hreduce⟩ := h
  have hkind : t.kind ≠ .leftParen := by
    intro hkind
    rw [hkind] at ht
    cases ht
  rw [hread.step hkind]
  simp only [stepValue, ht, hcompares, Bool.false_and, Bool.false_eq_true, if_false, Pending.push,
    hop, hreduce]

/-- A comparison may come if none waits. -/
theorem step_comparison (h : HasJoined 2 openings outer value s) (hbelow : outer.Below 1)
    {op : Operator} (ht : operatorOf? t.kind = some op) (hop : op.priority = 1) :
    s.step t = .shift (.operand openings ((value, op) :: outer)) := by
  obtain ⟨pending, last, hread, hreduce⟩ := h
  have hkind : t.kind ≠ .leftParen := by
    intro hkind
    rw [hkind] at ht
    cases ht
  have hcompares : pending.compares = false := by
    rw [← Pending.compares_reduce pending last, hreduce, hbelow.compares]
  have hreduce' : pending.reduce 1 last = (outer, value) := by
    rw [← Pending.reduce_reduce (show 1 ≤ 2 by decide), hreduce, hbelow.reduce]
  rw [hread.step hkind]
  simp only [stepValue, ht, hcompares, Bool.and_false, Bool.false_eq_true, if_false, Pending.push,
    hop, hreduce']

/-- A whole expression may be closed. -/
theorem close (h : HasJoined 1 openings [] value s) :
    ∃ pending last, HasRead openings pending last s ∧ pending.close last = value := by
  obtain ⟨pending, last, hread, hreduce⟩ := h
  refine ⟨pending, last, hread, ?_⟩
  rw [Pending.close, ← Pending.reduce_reduce (show 0 ≤ 1 by decide), hreduce, Pending.reduce]

end HasJoined

end ExprState

end Parser

open Classwright.Parser Classwright.Parser.ExprState

namespace Grammar

/-! ### Expressions -/

/-- Tokens are read as an operand of operators that bind less tightly than `least`. -/
def ReadsOperand (least : Nat) (tokens : List Token) (value : Node) : Prop :=
  ∀ openings (outer : Pending), outer.Below least → ∃ s, HasJoined least openings outer value s ∧
    Reads openings.length (.operand openings outer) tokens s

/-- The tree of a row of operands, which are joined from left to right. -/
def joinRow {α : Type} {P : Token → Prop} (node : α → Node) (left : Node)
    (rest : List ({ t : Token // P t } × α)) : Node :=
  rest.foldl (fun left x => operation left (operator x.1.1) (node x.2)) left

theorem reads_rest {α : Type} {P : Token → Prop} {tokens : α → List Token} {node : α → Node}
    {least : Nat} (hop : ∀ t, P t → operatorOf? t.kind = some (operator t) ∧
      (operator t).priority = least ∧ (operator t).isComparison = false)
    {rest : List ({ t : Token // P t } × α)}
    (hrest : ∀ x ∈ rest, ReadsOperand (least + 1) (tokens x.2) (node x.2))
    {openings : List Opening} {outer : Pending} (houter : outer.Below least) {left : Node}
    {s : ExprState} (hs : HasJoined least openings outer left s) :
    ∃ s', HasJoined least openings outer (joinRow node left rest) s' ∧
      Reads openings.length s (rest.flatMap fun x => x.1.1 :: tokens x.2) s' := by
  induction rest generalizing left s with
  | nil => exact ⟨s, hs, .nil⟩
  | cons x rest ih =>
    rw [List.forall_mem_cons] at hrest
    obtain ⟨t, x⟩ := x
    obtain ⟨ht, hpriority, hcompares⟩ := hop t.1 t.2
    have hstep := hs.step_operator ht hpriority hcompares
    -- the next operand is read on top of the row so far, which waits
    obtain ⟨s₁, hs₁, hreads⟩ := hrest.1 openings ((left, operator t.1) :: outer)
      ((houter.mono (Nat.le_succ _)).cons (by omega))
    obtain ⟨s₂, hs₂, hreads'⟩ := ih hrest.2 (hs₁.loosen_cons (Nat.le_succ _) hpriority houter)
    refine ⟨s₂, hs₂, ?_⟩
    rw [List.flatMap_cons, List.cons_append]
    exact .cons hs.le_openings hstep (hreads.append hreads')

/-- A row of operands with operators of one level between them. -/
theorem reads_row {α : Type} {P : Token → Prop} {tokens : α → List Token} {node : α → Node}
    {least : Nat} (hop : ∀ t, P t → operatorOf? t.kind = some (operator t) ∧
      (operator t).priority = least ∧ (operator t).isComparison = false)
    {first : α} {rest : List ({ t : Token // P t } × α)}
    (hfirst : ReadsOperand (least + 1) (tokens first) (node first))
    (hrest : ∀ x ∈ rest, ReadsOperand (least + 1) (tokens x.2) (node x.2)) :
    ReadsOperand least (rowTokens tokens (first, rest)) (joinRow node (node first) rest) := by
  intro openings outer houter
  obtain ⟨s, hs, hreads⟩ := hfirst openings outer (houter.mono (Nat.le_succ _))
  obtain ⟨s', hs', hreads'⟩ :=
    reads_rest hop hrest houter (hs.loosen_below (Nat.le_succ _) houter)
  exact ⟨s', hs', hreads.append hreads'⟩

theorem Simple.node_row (first : Term) (rest : List (OneOf additives × Term)) :
    (Simple.row first rest).node = joinRow Term.node first.node rest := by
  rw [Simple.node]
  generalize first.node = left
  induction rest generalizing left with
  | nil => rfl
  | cons x rest ih => rw [Simple.join, ih, joinRow, joinRow, List.foldl_cons]

theorem Term.node_row (first : Factor) (rest : List (OneOf multiplicatives × Factor)) :
    (Term.row first rest).node = joinRow Factor.node first.node rest := by
  rw [Term.node]
  generalize first.node = left
  induction rest generalizing left with
  | nil => rfl
  | cons x rest ih => rw [Term.join, ih, joinRow, joinRow, List.foldl_cons]

theorem Expr.reads_simple {s : Simple} (h : ReadsOperand 2 s.tokens s.node) :
    ReadsOperand 1 (Expr.simple s).tokens (Expr.simple s).node := by
  intro openings outer houter
  obtain ⟨s', hs, hreads⟩ := h openings outer (houter.mono (by decide))
  exact ⟨s', hs.loosen_below (by decide) houter, hreads⟩

theorem Expr.reads_comparison {left right : Simple} {op : OneOf comparisons}
    (hl : ReadsOperand 2 left.tokens left.node) (hr : ReadsOperand 2 right.tokens right.node) :
    ReadsOperand 1 (Expr.comparison left op right).tokens (Expr.comparison left op right).node := by
  intro openings outer houter
  obtain ⟨ht, hpriority, -⟩ := operatorOf?_comparison op.2
  have houter₂ : outer.Below 2 := houter.mono (by decide)
  obtain ⟨s, hs, hreads⟩ := hl openings outer houter₂
  have hstep := hs.step_comparison houter ht hpriority
  obtain ⟨s', hs', hreads'⟩ := hr openings ((left.node, operator op.1) :: outer)
    (houter₂.cons (by omega))
  refine ⟨s', hs'.loosen_cons (by decide) hpriority houter, ?_⟩
  rw [Expr.tokens]
  exact hreads.append (.cons hs.le_openings hstep hreads')

theorem Simple.reads_row {first : Term} {rest : List (OneOf additives × Term)}
    (hfirst : ReadsOperand 3 first.tokens first.node)
    (hrest : ∀ x ∈ rest, ReadsOperand 3 x.2.tokens x.2.node) :
    ReadsOperand 2 (Simple.row first rest).tokens (Simple.row first rest).node := by
  rw [Simple.tokens_row, Simple.node_row]
  exact Grammar.reads_row (fun _ => operatorOf?_additive) hfirst hrest

theorem Term.reads_row {first : Factor} {rest : List (OneOf multiplicatives × Factor)}
    (hfirst : ReadsOperand 4 first.tokens first.node)
    (hrest : ∀ x ∈ rest, ReadsOperand 4 x.2.tokens x.2.node) :
    ReadsOperand 3 (Term.row first rest).tokens (Term.row first rest).node := by
  rw [Term.tokens_row, Term.node_row]
  exact Grammar.reads_row (fun _ => operatorOf?_multiplicative) hfirst hrest

/-- A factor is an operand by itself. -/
theorem Factor.readsOperand {f : Factor}
    (h : ∀ openings pending, ∃ s, HasRead openings pending f.node s ∧
      Reads openings.length (.operand openings pending) f.tokens s) :
    ReadsOperand 4 f.tokens f.node := by
  intro openings outer houter
  obtain ⟨s, hread, hreads⟩ := h openings outer
  exact ⟨s, ⟨outer, f.node, hread, houter.reduce _⟩, hreads⟩

theorem Factor.reads_number (t : Terminal .number) :
    ReadsOperand 4 (Factor.number t).tokens (Factor.number t).node := by
  refine Factor.readsOperand fun openings pending => ⟨_, .other, .single (Nat.le_refl _) ?_⟩
  simp only [ExprState.step, stepOperand, t.2, Factor.node]

theorem Factor.reads_name (t : Terminal .identifier) :
    ReadsOperand 4 (Factor.name t).tokens (Factor.name t).node := by
  refine Factor.readsOperand fun openings pending => ⟨_, .name, .single (Nat.le_refl _) ?_⟩
  simp only [ExprState.step, stepOperand, t.2]

theorem Factor.reads_group {leftParen : Terminal .leftParen} {e : Expr}
    {rightParen : Terminal .rightParen} (he : ReadsOperand 1 e.tokens e.node) :
    ReadsOperand 4 (Factor.group leftParen e rightParen).tokens
      (Factor.group leftParen e rightParen).node := by
  refine Factor.readsOperand fun openings pending => ⟨_, .other, ?_⟩
  obtain ⟨s, hs, hreads⟩ := he (.group pending :: openings) [] (List.forall_mem_nil _)
  obtain ⟨inner, last, hread, hclose⟩ := hs.close
  have hopen : (ExprState.operand openings pending).step leftParen.1 =
      .shift (.operand (.group pending :: openings) []) := by
    simp only [ExprState.step, stepOperand, leftParen.2]
  have hend : s.step rightParen.1 = .shift (.operator openings pending e.node) := by
    rw [hread.step (by rw [rightParen.2]; decide)]
    simp only [stepValue, rightParen.2, operatorOf?, hclose]
  have hdepth : openings.length ≤ s.openings.length :=
    Nat.le_trans (Nat.le_succ _) hread.le_openings
  exact .cons (Nat.le_refl _) hopen ((hreads.mono (Nat.le_succ _)).append (.single hdepth hend))

/-- Behind the name and the parenthesis of a call the rest of it is read. -/
def ReadsCall (c : Call) : Prop :=
  ∃ (name : Terminal .identifier) (leftParen : Terminal .leftParen) (inner : List Token),
    c.tokens = name.1 :: leftParen.1 :: inner ∧ ∀ openings outer,
      Reads (openings.length + 1)
        (.operand (.arguments name.1.content name.1.position [] outer :: openings) []) inner
        (.operator openings outer c.node)

theorem Factor.reads_call {c : Call} (hc : ReadsCall c) :
    ReadsOperand 4 (Factor.call c).tokens (Factor.call c).node := by
  refine Factor.readsOperand fun openings pending => ⟨_, .other, ?_⟩
  obtain ⟨name, leftParen, inner, htokens, hreads⟩ := hc
  have hname : (ExprState.operand openings pending).step name.1 =
      .shift (.identifier openings pending name.1.content name.1.position) := by
    simp only [ExprState.step, stepOperand, name.2]
  have hopen : (ExprState.identifier openings pending name.1.content name.1.position).step
      leftParen.1 =
      .shift (.operand (.arguments name.1.content name.1.position [] pending :: openings) []) := by
    rw [ExprState.step, if_pos leftParen.2]
  rw [Factor.tokens, htokens]
  exact .cons (Nat.le_refl _) hname (.cons (Nat.le_refl _) hopen
    ((hreads openings pending).mono (Nat.le_succ _)))

theorem Call.reads_none (name : Terminal .identifier) (leftParen : Terminal .leftParen)
    (rightParen : Terminal .rightParen) : ReadsCall (.intro name leftParen none rightParen) := by
  refine ⟨name, leftParen, [rightParen.1], rfl, fun openings outer => .single (Nat.le_refl _) ?_⟩
  simp only [ExprState.step, stepOperand, rightParen.2, Call.node]

/-- The arguments of a call and the parenthesis behind them. -/
theorem Call.reads_arguments {first : Expr} {rest : List (Terminal .comma × Expr)}
    (hfirst : ReadsOperand 1 first.tokens first.node)
    (hrest : ∀ x ∈ rest, ReadsOperand 1 x.2.tokens x.2.node) (rightParen : Terminal .rightParen)
    (callee : Text) (place : Position) (done : List Node) (outer : Pending)
    (openings : List Opening) :
    Reads (openings.length + 1) (.operand (.arguments callee place done outer :: openings) [])
      (first.tokens ++ (Call.restTokens rest ++ [rightParen.1])) (.operator openings outer
        (.call callee (done.reverse ++ first.node :: Call.restNodes rest) none place)) := by
  induction rest generalizing first done with
  | nil =>
    obtain ⟨s, hs, hreads⟩ := hfirst (.arguments callee place done outer :: openings) []
      (List.forall_mem_nil _)
    obtain ⟨inner, last, hread, hclose⟩ := hs.close
    have hend : s.step rightParen.1 = .shift (.operator openings outer
        (.call callee (done.reverse ++ [first.node]) none place)) := by
      rw [hread.step (by rw [rightParen.2]; decide)]
      simp only [stepValue, rightParen.2, operatorOf?, hclose, List.reverse_cons]
    exact hreads.append (.single hread.le_openings hend)
  | cons x rest ih =>
    obtain ⟨comma, e⟩ := x
    rw [List.forall_mem_cons] at hrest
    obtain ⟨s, hs, hreads⟩ := hfirst (.arguments callee place done outer :: openings) []
      (List.forall_mem_nil _)
    obtain ⟨inner, last, hread, hclose⟩ := hs.close
    have hcomma : s.step comma.1 = .shift (.operand
        (.arguments callee place (first.node :: done) outer :: openings) []) := by
      rw [hread.step (by rw [comma.2]; decide)]
      simp only [stepValue, comma.2, operatorOf?, hclose]
    have hmore := ih hrest.1 hrest.2 (first.node :: done)
    rw [List.reverse_cons, List.append_assoc] at hmore
    rw [Call.restTokens, List.cons_append, List.append_assoc]
    exact hreads.append (.cons hread.le_openings hcomma hmore)

theorem Call.reads_some {name : Terminal .identifier} {leftParen : Terminal .leftParen}
    {first : Expr} {rest : List (Terminal .comma × Expr)} {rightParen : Terminal .rightParen}
    (hfirst : ReadsOperand 1 first.tokens first.node)
    (hrest : ∀ x ∈ rest, ReadsOperand 1 x.2.tokens x.2.node) :
    ReadsCall (.intro name leftParen (some (first, rest)) rightParen) :=
  ⟨name, leftParen, _, rfl, fun openings outer => Call.reads_arguments hfirst hrest rightParen
    name.1.content name.1.position [] outer openings⟩

/-- **The tokens of an expression are read into its tree.** -/
theorem Expr.reads : Expr.Inherited (fun e => ReadsOperand 1 e.tokens e.node)
    (fun s => ReadsOperand 2 s.tokens s.node) (fun t => ReadsOperand 3 t.tokens t.node)
    (fun f => ReadsOperand 4 f.tokens f.node) ReadsCall where
  simple _ := Expr.reads_simple
  comparison _ _ _ := Expr.reads_comparison
  terms _ _ := Simple.reads_row
  factors _ _ := Term.reads_row
  number := Factor.reads_number
  name := Factor.reads_name
  call _ := Factor.reads_call
  group _ _ _ := Factor.reads_group
  noArguments := Call.reads_none
  arguments _ _ _ _ _ := Call.reads_some

/-- An expression is read from its first token to where it can end. -/
theorem Expr.exists_reads (e : Expr) : ∃ pending last s, HasRead [] pending last s ∧
    pending.close last = e.node ∧ Reads 0 .start e.tokens s := by
  obtain ⟨s, hs, hreads⟩ := Expr.reads.expr e [] [] (List.forall_mem_nil _)
  obtain ⟨pending, last, hread, hclose⟩ := hs.close
  exact ⟨pending, last, s, hread, hclose, hreads⟩

end Grammar

/-! ### Statements -/

namespace Parser.StmtState

/-- A statement may start, or the innermost open block end. -/
inductive AtStart : List OpenBlock → StmtState → Prop
  | start {blocks : List OpenBlock} : AtStart blocks (.start blocks)
  | noElse {b : OpenBlock} {rest : List OpenBlock} {place : Position}
      {condition thenBlock : Node} :
      AtStart (b.add (ifWithoutElse place condition thenBlock) :: rest)
        (.optionalElse (b :: rest) place condition thenBlock)

theorem AtStart.step {blocks : List OpenBlock} {s : StmtState} (h : AtStart blocks s) {t : Token}
    (ht : t.kind ≠ .elseWord) : s.step t = stepStart blocks t := by
  cases h with
  | start => rfl
  | noElse => exact if_neg ht

/-- What is read where a statement may start is also read behind an `if` without `else`. -/
theorem AtStart.reads {blocks : List OpenBlock} {s s' : StmtState} (h : AtStart blocks s)
    {t : Token} {ts : List Token} (ht : t.kind ≠ .elseWord)
    (hreads : Reads (.start blocks) (t :: ts) s') : Reads s (t :: ts) s' := by
  cases hreads with
  | cons _ hstep hrest => exact .cons trivial ((h.step ht).trans hstep) hrest

/-- An expression and the token behind it. -/
theorem reads_expr (blocks : List OpenBlock) {use : ExprUse} (huse : use ≠ .called)
    (e : Grammar.Expr) {t : Token} (ht : t.kind = .semicolon ∨ t.kind = .rightParen)
    {next : StmtState} (hnext : stepUse blocks use e.node t = .shift next) :
    Reads (.expression blocks use .start) (e.tokens ++ [t]) next := by
  obtain ⟨pending, last, s, hread, hclose, hreads⟩ := e.exists_reads
  refine (reads_expression (fun h => absurd h huse) hreads).append (.single trivial ?_)
  rw [StmtState.step, stepExpression_of_hasRead hread huse ht, hclose, hnext]

end Parser.StmtState

open Classwright.Parser.StmtState

namespace Grammar

/-- The tokens of a statement are read into the innermost open block. -/
def ReadsStmt (x : Stmt) : Prop :=
  ∀ b rest, ∃ s, AtStart (b.add x.node :: rest) s ∧
    StmtState.Reads (.start (b :: rest)) x.tokens s

/-- The tokens of a block are read up to the brace that closes it. -/
def ReadsBlock : Block → Prop
  | .intro leftBrace statements rightBrace => ∀ blocks owner,
    StmtState.Reads (.brace blocks owner) (Block.intro leftBrace statements rightBrace).tokens
      (closeBlock blocks
        { owner, brace := leftBrace.1.position, done := (Stmt.nodes statements).reverse })

theorem Stmt.reads_assign (name : Terminal .identifier) (sign : Terminal .assign) (value : Expr)
    (semicolon : Terminal .semicolon) : ReadsStmt (.assign name sign value semicolon) := by
  intro b rest
  have hname : (StmtState.start (b :: rest)).step name.1 =
      .shift (.named (b :: rest) name.1.content name.1.position) := by
    simp only [StmtState.step, stepStart, name.2]
  have hsign : (StmtState.named (b :: rest) name.1.content name.1.position).step sign.1 =
      .shift (.expression (b :: rest) (.assigned name.1.content name.1.position) .start) := by
    simp only [StmtState.step, sign.2]
  refine ⟨_, .start, .cons trivial hname (.cons trivial hsign
    (reads_expr (b :: rest) (by simp) value (Or.inl semicolon.2) ?_))⟩
  simp only [stepUse, semicolon.2, complete, Stmt.node]

theorem Stmt.reads_call (c : Call) (semicolon : Terminal .semicolon) :
    ReadsStmt (.call c semicolon) := by
  intro b rest
  obtain ⟨name, leftParen, inner, htokens, hreads⟩ := Expr.reads.invocation c
  have hname : (StmtState.start (b :: rest)).step name.1 =
      .shift (.named (b :: rest) name.1.content name.1.position) := by
    simp only [StmtState.step, stepStart, name.2]
  have hopen : (StmtState.named (b :: rest) name.1.content name.1.position).step leftParen.1 =
      .shift (.expression (b :: rest) .called
        (.startCall name.1.content name.1.position)) := by
    simp only [StmtState.step, leftParen.2]
  have hend : (StmtState.expression (b :: rest) .called (.operator [] [] c.node)).step
      semicolon.1 = .shift (.start (b.add c.node :: rest)) := by
    simp only [StmtState.step, stepExpression, stepUse, semicolon.2, complete]
  refine ⟨_, .start, ?_⟩
  rw [Stmt.tokens, htokens, Stmt.node]
  exact .cons trivial hname (.cons trivial hopen
    ((reads_expression (fun _ => Nat.one_pos) (hreads [] [])).append (.single trivial hend)))

theorem Stmt.reads_exit (word : Terminal .returnWord) (value : Option Expr)
    (semicolon : Terminal .semicolon) : ReadsStmt (.exit word value semicolon) := by
  intro b rest
  have hword : (StmtState.start (b :: rest)).step word.1 =
      .shift (.expression (b :: rest) (.returned word.1.position) .start) := by
    simp only [StmtState.step, stepStart, word.2]
  refine ⟨_, .start, ?_⟩
  cases value with
  | none =>
    refine .cons trivial hword (.single trivial ?_)
    simp only [StmtState.step, stepExpression, ExprState.start, semicolon.2, complete, Stmt.node]
  | some value =>
    refine .cons trivial hword (reads_expr (b :: rest) (by simp) value (Or.inl semicolon.2) ?_)
    simp only [stepUse, semicolon.2, complete, Stmt.node]

/-- A keyword and the condition behind it. -/
theorem Condition.reads {owner : ConditionOwner} {word : Token}
    (hword : word.kind = .ifWord ∧ owner = .ifStatement ∨
      word.kind = .whileWord ∧ owner = .whileStatement) (c : Condition) (blocks : List OpenBlock) :
    StmtState.Reads (.start blocks) (word :: c.tokens)
      (afterCondition blocks owner word.position c.value.node) := by
  have hstart :
      (StmtState.start blocks).step word = .shift (.paren blocks owner word.position) := by
    rcases hword with ⟨hkind, rfl⟩ | ⟨hkind, rfl⟩ <;> simp only [StmtState.step, stepStart, hkind]
  have hparen : (StmtState.paren blocks owner word.position).step c.leftParen.1 =
      .shift (.expression blocks (.condition owner word.position c.leftParen.1.position)
        .start) := by
    rw [StmtState.step, if_pos c.leftParen.2]
  refine .cons trivial hstart (.cons trivial hparen
    (reads_expr blocks (by simp) c.value (Or.inr c.rightParen.2) ?_))
  simp only [stepUse, c.rightParen.2]

theorem Stmt.reads_branch {word : Terminal .ifWord} {condition : Condition} {thens : Block}
    (hthens : ReadsBlock thens) : ReadsStmt (.branch word condition thens none) := by
  intro b rest
  obtain ⟨leftBrace, statements, rightBrace⟩ := thens
  have hcondition := condition.reads (Or.inl ⟨word.2, rfl⟩) (b :: rest)
  have hblock := hthens (b :: rest) (.thenOf word.1.position condition.value.node)
  simp only [closeBlock, List.reverse_reverse] at hblock
  exact ⟨_, .noElse, hcondition.append hblock⟩

/-- The end of an `if` statement, whether or not its second block is empty. -/
theorem Block.closeBlock_else (leftBrace : Terminal .leftBrace) (statements : List Stmt)
    (rightBrace : Terminal .rightBrace) (place : Position) (condition thenBlock : Node)
    (elsePlace : Position) (blocks : List OpenBlock) :
    closeBlock blocks
      { owner := .elseOf place condition thenBlock elsePlace, brace := leftBrace.1.position,
        done := (Stmt.nodes statements).reverse } =
      complete blocks (.branch condition thenBlock
        ((Block.intro leftBrace statements rightBrace).elseNode elsePlace) place) := by
  cases statements with
  | nil => rfl
  | cons s others => simp [closeBlock, Stmt.nodes, Block.elseNode]

theorem Stmt.reads_branchElse {word : Terminal .ifWord} {condition : Condition}
    {thens elses : Block} {elseWord : Terminal .elseWord} (hthens : ReadsBlock thens)
    (helses : ReadsBlock elses) :
    ReadsStmt (.branch word condition thens (some (elseWord, elses))) := by
  intro b rest
  obtain ⟨leftBrace, statements, rightBrace⟩ := thens
  obtain ⟨elseBrace, elseStatements, elseEnd⟩ := elses
  have hcondition := condition.reads (Or.inl ⟨word.2, rfl⟩) (b :: rest)
  have hblock := hthens (b :: rest) (.thenOf word.1.position condition.value.node)
  simp only [closeBlock, List.reverse_reverse] at hblock
  have helse : (StmtState.optionalElse (b :: rest) word.1.position condition.value.node
      (.block (Stmt.nodes statements) leftBrace.1.position)).step elseWord.1 =
      .shift (.brace (b :: rest) (.elseOf word.1.position condition.value.node
        (.block (Stmt.nodes statements) leftBrace.1.position) elseWord.1.position)) := by
    rw [StmtState.step, if_pos elseWord.2]
  have helseBlock := helses (b :: rest) (.elseOf word.1.position condition.value.node
    (.block (Stmt.nodes statements) leftBrace.1.position) elseWord.1.position)
  rw [Block.closeBlock_else elseBrace elseStatements elseEnd] at helseBlock
  exact ⟨_, .start, hcondition.append (hblock.append (.cons trivial helse helseBlock))⟩

theorem Stmt.reads_loop {word : Terminal .whileWord} {condition : Condition} {body : Block}
    (hbody : ReadsBlock body) : ReadsStmt (.loop word condition body) := by
  intro b rest
  obtain ⟨leftBrace, statements, rightBrace⟩ := body
  have hcondition := condition.reads (Or.inr ⟨word.2, rfl⟩) (b :: rest)
  have hblock := hbody (b :: rest) (.bodyOf word.1.position condition.value.node)
  simp only [closeBlock, List.reverse_reverse, complete] at hblock
  exact ⟨_, .start, hcondition.append hblock⟩

/-- Statements one after the other. -/
theorem Stmt.reads_all {statements : List Stmt} (h : ∀ x ∈ statements, ReadsStmt x)
    {b : OpenBlock} {rest : List OpenBlock} {s : StmtState} (hs : AtStart (b :: rest) s) :
    ∃ s', AtStart ({ b with done := (Stmt.nodes statements).reverse ++ b.done } :: rest) s' ∧
      StmtState.Reads s (Stmt.allTokens statements) s' := by
  induction statements generalizing b s with
  | nil => exact ⟨s, hs, .nil⟩
  | cons x others ih =>
    rw [List.forall_mem_cons] at h
    obtain ⟨s₁, hs₁, hreads⟩ := h.1 b rest
    obtain ⟨s₂, hs₂, hreads'⟩ := ih h.2 hs₁
    obtain ⟨t, ts, ht, hkind⟩ := x.exists_tokens
    have helse : t.kind ≠ .elseWord := by
      rw [hkind]
      cases x <;> simp [Stmt.start]
    rw [ht] at hreads
    refine ⟨s₂, ?_, ?_⟩
    · simpa [Stmt.nodes, OpenBlock.add] using hs₂
    · rw [Stmt.allTokens, ht]
      exact (hs.reads helse hreads).append hreads'

/-- Statements and the brace that closes their block. -/
theorem Stmt.reads_close {statements : List Stmt} (h : ∀ x ∈ statements, ReadsStmt x)
    (rightBrace : Terminal .rightBrace) (owner : BlockOwner) (brace : Position)
    (blocks : List OpenBlock) :
    StmtState.Reads (.start ({ owner, brace } :: blocks))
      (Stmt.allTokens statements ++ [rightBrace.1])
      (closeBlock blocks { owner, brace, done := (Stmt.nodes statements).reverse }) := by
  obtain ⟨s, hs, hreads⟩ :=
    Stmt.reads_all h (@AtStart.start ({ owner, brace } :: blocks))
  refine hreads.append (.single trivial ?_)
  rw [hs.step (by rw [rightBrace.2]; decide)]
  simp only [stepStart, rightBrace.2, List.append_nil]

theorem Block.reads_intro {leftBrace : Terminal .leftBrace} {statements : List Stmt}
    {rightBrace : Terminal .rightBrace} (h : ∀ x ∈ statements, ReadsStmt x) :
    ReadsBlock (.intro leftBrace statements rightBrace) := by
  intro blocks owner
  have hbrace : (StmtState.brace blocks owner).step leftBrace.1 =
      .shift (.start ({ owner, brace := leftBrace.1.position } :: blocks)) := by
    rw [StmtState.step, if_pos leftBrace.2]
  exact .cons trivial hbrace (Stmt.reads_close h rightBrace owner _ blocks)

/-- **The tokens of a statement are read into its tree.** -/
theorem Stmt.reads : Stmt.Inherited ReadsStmt ReadsBlock where
  assign := Stmt.reads_assign
  call := Stmt.reads_call
  exit := Stmt.reads_exit
  branch _ _ _ := Stmt.reads_branch
  branchElse _ _ _ _ _ := Stmt.reads_branchElse
  loop _ _ _ := Stmt.reads_loop
  block _ _ _ := Block.reads_intro

end Grammar

end Classwright
