import Classwright.Proofs.Parser.Runs
import Classwright.Proofs.Positions.Erase
import Classwright.Proofs.Printer.Spelling
import Classwright.Proofs.Tree.Constants

/-!
# Reading the lexemes of trees

The parser reads the lexemes of an expression or a statement into a tree that is equal to it up to
positions (`Parser.readsTop_of_isExpression`, `Parser.readsStatement_of_isStatement`), whatever the
places of the tokens and whatever has been read before.  What is kept by reading an expression is
left open by the rules for operations and parentheses (`Parser.ReadsOperand.binary`,
`Parser.ReadsWhole.group`); of the subtractions that stand for a negative number it is the value
(`Parser.reads_value`).
-/

namespace Classwright

namespace Token

variable {t : Token}

theorem kind_of_lexeme {k : TokenKind} (h : t.lexeme = k.lexeme) : t.kind = k :=
  congrArg Lexeme.kind h

theorem identifier_of_lexeme {id : Text} (h : t.lexeme = .identifier id) :
    t.kind = .identifier ∧ t.content = id :=
  ⟨congrArg Lexeme.kind h, congrArg Lexeme.content h⟩

theorem number_of_lexeme {n : Nat} (h : t.lexeme = .number n) :
    t.kind = .number ∧ t.value = Int32.ofNat n := by
  have hkind : t.kind = .number := congrArg Lexeme.kind h
  have hcontent : t.content = Text.ofString (toString n) := congrArg Lexeme.content h
  rw [value, if_pos hkind, hcontent, decimalValue_toString]
  exact ⟨hkind, rfl⟩

/-- The value of the token of a number that is not negative. -/
theorem value_of_lexeme {v : Int32} (hv : 0 ≤ v) (h : t.lexeme = .number v.toInt.toNat) :
    t.kind = .number ∧ t.value = v := by
  obtain ⟨hkind, hvalue⟩ := number_of_lexeme h
  refine ⟨hkind, hvalue.trans ?_⟩
  have hnonneg : 0 ≤ v.toInt := by simpa [Int32.le_iff_toInt_le] using hv
  have hlt := v.toInt_lt
  rw [← Int32.toInt_inj, Int32.toInt_ofNat_of_lt (by omega), Int.toNat_of_nonneg hnonneg]

end Token

/-- Tokens whose lexemes are two rows one after the other. -/
theorem exists_append_of_lexemes {tokens : List Token} {ls ls' : List Lexeme}
    (h : tokens.map Token.lexeme = ls ++ ls') : ∃ ts ts', tokens = ts ++ ts' ∧
      ts.map Token.lexeme = ls ∧ ts'.map Token.lexeme = ls' :=
  List.map_eq_append_iff.1 h

/-- Tokens whose lexemes start with a given one. -/
theorem exists_cons_of_lexemes {tokens : List Token} {l : Lexeme} {ls : List Lexeme}
    (h : tokens.map Token.lexeme = l :: ls) : ∃ t ts, tokens = t :: ts ∧
      t.lexeme = l ∧ ts.map Token.lexeme = ls :=
  List.map_eq_cons_iff.1 h

/-- Tokens whose lexemes end with a given one. -/
theorem exists_concat_of_lexemes {tokens : List Token} {l : Lexeme} {ls : List Lexeme}
    (h : tokens.map Token.lexeme = ls ++ [l]) : ∃ ts t, tokens = ts ++ [t] ∧
      ts.map Token.lexeme = ls ∧ t.lexeme = l := by
  obtain ⟨ts, last, rfl, hts, hlast⟩ := exists_append_of_lexemes h
  obtain ⟨t, rest, rfl, ht, hrest⟩ := exists_cons_of_lexemes hlast
  obtain rfl := List.map_eq_nil_iff.1 hrest
  exact ⟨ts, t, rfl, hts, ht⟩

namespace Parser

/-! ### Expressions -/

open ExprState

/-- The lexemes are read as an operand for which `P` holds, wherever one may stand. -/
def ReadsOperand (ls : List Lexeme) (P : Node → Prop) : Prop :=
  ∀ tokens, tokens.map Token.lexeme = ls → ∀ openings pending,
    ∃ value s, P value ∧ HasRead openings pending value s ∧
      Reads openings.length (.operand openings pending) tokens s

/-- The lexemes are read as an expression for which `P` holds and which can end there. -/
def ReadsWhole (ls : List Lexeme) (P : Node → Prop) : Prop :=
  ∀ tokens, tokens.map Token.lexeme = ls → ∀ openings,
    ∃ pending value s, P (Pending.close pending value) ∧
      HasRead openings pending value s ∧ Reads openings.length (.operand openings []) tokens s

section Rules

variable {ls rs : List Lexeme} {P Q R : Node → Prop}

theorem ReadsOperand.imp (h : ReadsOperand ls P) (hPQ : ∀ e, P e → Q e) : ReadsOperand ls Q := by
  intro tokens htokens openings pending
  obtain ⟨value, s, hvalue, hread, hreads⟩ := h tokens htokens openings pending
  exact ⟨value, s, hPQ _ hvalue, hread, hreads⟩

theorem ReadsWhole.imp (h : ReadsWhole ls P) (hPQ : ∀ e, P e → Q e) : ReadsWhole ls Q := by
  intro tokens htokens openings
  obtain ⟨pending, value, s, hvalue, hread, hreads⟩ := h tokens htokens openings
  exact ⟨pending, value, s, hPQ _ hvalue, hread, hreads⟩

/-- An operand is an expression. -/
theorem ReadsOperand.whole (h : ReadsOperand ls P) : ReadsWhole ls P := by
  intro tokens htokens openings
  obtain ⟨value, s, hvalue, hread, hreads⟩ := h tokens htokens openings []
  exact ⟨[], value, s, hvalue, hread, hreads⟩

theorem operatorOf?_token {op : Operator} (h : op ≠ .assign) :
    operatorOf? op.token = some op := by
  cases op <;> first | rfl | exact absurd rfl h

/-- Two operands with an operator between them are an operation. -/
theorem ReadsOperand.binary {op : Operator} (hop : op ≠ .assign) (hl : ReadsOperand ls P)
    (hr : ReadsOperand rs Q)
    (h : ∀ left right place, P left → Q right → R (.binary op left right place)) :
    ReadsWhole (ls ++ op.token.lexeme :: rs) R := by
  intro tokens htokens openings
  obtain ⟨lefts, rest, rfl, hlefts, hrest⟩ := exists_append_of_lexemes htokens
  obtain ⟨t, rights, rfl, ht, hrights⟩ := exists_cons_of_lexemes hrest
  obtain ⟨x, s, hx, hread, hreads⟩ := hl lefts hlefts openings []
  obtain ⟨y, s', hy, hread', hreads'⟩ := hr rights hrights openings [(x, op)]
  have hkind := Token.kind_of_lexeme ht
  have hstep : s.step t = .shift (.operand openings [(x, op)]) := by
    rw [hread.step (by rw [hkind]; cases op <;> decide)]
    simp [stepValue, hkind, operatorOf?_token hop, Pending.compares, Pending.push, Pending.reduce]
  refine ⟨[(x, op)], y, s', ?_, hread', hreads.append (.cons hread.le_openings hstep hreads')⟩
  rw [Pending.close, Pending.reduce, if_pos (Nat.zero_le _), Pending.reduce]
  exact h x y x.position hx hy

/-- An expression in parentheses is an operand. -/
theorem ReadsWhole.group (h : ReadsWhole ls P) :
    ReadsOperand (TokenKind.leftParen.lexeme :: (ls ++ [TokenKind.rightParen.lexeme])) P := by
  intro tokens htokens openings pending
  obtain ⟨t, rest, rfl, ht, hrest⟩ := exists_cons_of_lexemes htokens
  obtain ⟨ts, u, rfl, hts, hu⟩ := exists_concat_of_lexemes hrest
  obtain ⟨inner, value, s, hvalue, hread, hreads⟩ := h ts hts (.group pending :: openings)
  have hopen : (ExprState.operand openings pending).step t =
      .shift (.operand (.group pending :: openings) []) := by
    simp only [step, stepOperand, Token.kind_of_lexeme ht]
  have hkind := Token.kind_of_lexeme hu
  have hclose : s.step u = .shift (.operator openings pending (inner.close value)) := by
    rw [hread.step (by rw [hkind]; decide)]
    simp only [stepValue, hkind, operatorOf?]
  have hdepth : openings.length ≤ s.openings.length :=
    Nat.le_trans (Nat.le_succ _) hread.le_openings
  exact ⟨inner.close value, _, hvalue, .other, .cons (Nat.le_refl _) hopen
    ((hreads.mono (Nat.le_succ _)).append (.single hdepth hclose))⟩

end Rules

/-- Its lexemes with parentheses are read as an operand. -/
def ReadsNested (e : Node) : Prop :=
  ReadsOperand (e.exprLexemes true) fun value => value.erase = e.erase

/-- Its lexemes without parentheses are read as an expression that can end there. -/
def ReadsTop (e : Node) : Prop :=
  ReadsWhole (e.exprLexemes false) fun value => value.erase = e.erase

theorem ReadsNested.readsTop {e : Node} (h : ReadsNested e)
    (he : e.exprLexemes false = e.exprLexemes true) : ReadsTop e := by
  unfold ReadsTop
  rw [he]
  exact ReadsOperand.whole h

theorem readsTop_binary {op : Operator} (hop : op ≠ .assign) {left right : Node}
    (hl : ReadsNested left) (hr : ReadsNested right) (place : Position) :
    ReadsTop (.binary op left right place) := by
  refine ReadsOperand.binary hop hl hr fun x y _ hx hy => ?_
  rw [Node.erase, Node.erase, hx, hy]

theorem readsNested_of_readsTop {op : Operator} {left right : Node} {place : Position}
    (h : ReadsTop (.binary op left right place)) : ReadsNested (.binary op left right place) := by
  have hlexemes : Node.exprLexemes true (.binary op left right place) =
      TokenKind.leftParen.lexeme :: (Node.exprLexemes false (.binary op left right place) ++
        [TokenKind.rightParen.lexeme]) := by
    simp only [Node.exprLexemes, List.append_assoc, List.cons_append]
  unfold ReadsNested
  rw [hlexemes]
  exact ReadsWhole.group h

theorem readsNested_literal {v : Int32} (hv : 0 ≤ v) (place : Position) :
    ReadsNested (.literal v place) := by
  intro tokens htokens openings pending
  obtain ⟨t, rest, rfl, ht, hrest⟩ := exists_cons_of_lexemes htokens
  obtain rfl := List.map_eq_nil_iff.1 hrest
  obtain ⟨hkind, hvalue⟩ := Token.value_of_lexeme hv ht
  refine ⟨.literal v t.position, _, rfl, .other, .single (Nat.le_refl _) ?_⟩
  simp only [step, stepOperand, hkind, hvalue]

theorem readsNested_name (id : Text) (place : Position) : ReadsNested (.name id none place) := by
  intro tokens htokens openings pending
  obtain ⟨t, rest, rfl, ht, hrest⟩ := exists_cons_of_lexemes htokens
  obtain rfl := List.map_eq_nil_iff.1 hrest
  obtain ⟨hkind, hcontent⟩ := Token.identifier_of_lexeme ht
  refine ⟨.name id none t.position, _, rfl, .name, .single (Nat.le_refl _) ?_⟩
  simp only [step, stepOperand, hkind, hcontent]

/-- The arguments of a call are read up to the parenthesis that closes it. -/
theorem reads_arguments {nodes : List Node} (hnodes : ∀ e ∈ nodes, ReadsTop e)
    {tokens : List Token} (htokens : tokens.map Token.lexeme =
      Node.argumentLexemes nodes ++ [TokenKind.rightParen.lexeme])
    (callee : Text) (place : Position) (outer : Pending) (openings : List Opening)
    {done : List Node} (hdone : nodes = [] → done = []) :
    ∃ values, Node.eraseAll values = Node.eraseAll nodes ∧
      Reads (openings.length + 1) (.operand (.arguments callee place done outer :: openings) [])
        tokens (.operator openings outer (.call callee (done.reverse ++ values) none place)) := by
  induction nodes generalizing done tokens with
  | nil =>
    obtain rfl := hdone rfl
    -- without arguments the bracket is closed where an operand may stand
    obtain ⟨t, rest, rfl, ht, hrest⟩ := exists_cons_of_lexemes htokens
    obtain rfl := List.map_eq_nil_iff.1 hrest
    refine ⟨[], rfl, .single (Nat.le_refl _) ?_⟩
    simp only [step, stepOperand, Token.kind_of_lexeme ht, List.reverse_nil, List.nil_append]
  | cons e others ih =>
    rw [List.forall_mem_cons] at hnodes
    obtain ⟨he, hothers⟩ := hnodes
    cases others with
    | nil =>
      obtain ⟨ts, u, rfl, hts, hu⟩ := exists_concat_of_lexemes htokens
      obtain ⟨inner, value, s, hvalue, hread, hreads⟩ :=
        he ts hts (.arguments callee place done outer :: openings)
      have hkind := Token.kind_of_lexeme hu
      -- the last argument is closed together with the call
      have hclose : s.step u = .shift (.operator openings outer
          (.call callee (done.reverse ++ [inner.close value]) none place)) := by
        rw [hread.step (by rw [hkind]; decide)]
        simp only [stepValue, hkind, operatorOf?, List.reverse_cons]
      refine ⟨[inner.close value], ?_, hreads.append (.single hread.le_openings hclose)⟩
      simp only [Node.eraseAll, hvalue]
    | cons e' others =>
      rw [Node.argumentLexemes, List.append_assoc, List.cons_append] at htokens
      · obtain ⟨ts, rest, rfl, hts, hrest⟩ := exists_append_of_lexemes htokens
        obtain ⟨u, more, rfl, hu, hmore⟩ := exists_cons_of_lexemes hrest
        obtain ⟨inner, value, s, hvalue, hread, hreads⟩ :=
          he ts hts (.arguments callee place done outer :: openings)
        have hkind := Token.kind_of_lexeme hu
        -- a comma closes the argument and puts it aside
        have hcomma : s.step u = .shift (.operand
            (.arguments callee place (inner.close value :: done) outer :: openings) []) := by
          rw [hread.step (by rw [hkind]; decide)]
          simp only [stepValue, hkind, operatorOf?]
        obtain ⟨values, hvalues, hreads'⟩ :=
          @ih hothers _ hmore (inner.close value :: done) (by simp)
        refine ⟨inner.close value :: values, ?_,
          hreads.append (.cons hread.le_openings hcomma ?_)⟩
        · rw [Node.eraseAll, hvalue, hvalues, ← Node.eraseAll]
        · rwa [List.reverse_cons, List.append_assoc] at hreads'
      · simp

theorem readsNested_call {arguments : List Node} (h : ∀ e ∈ arguments, ReadsTop e) (callee : Text)
    (place : Position) : ReadsNested (.call callee arguments none place) := by
  intro tokens htokens openings pending
  rw [Node.exprLexemes] at htokens
  obtain ⟨t, rest, rfl, ht, hrest⟩ := exists_cons_of_lexemes htokens
  obtain ⟨u, more, rfl, hu, hmore⟩ := exists_cons_of_lexemes hrest
  obtain ⟨values, hvalues, hreads⟩ := reads_arguments h hmore callee t.position pending
    openings (fun _ => rfl)
  obtain ⟨hkind, hcontent⟩ := Token.identifier_of_lexeme ht
  have hname : (ExprState.operand openings pending).step t =
      .shift (.identifier openings pending callee t.position) := by
    simp only [step, stepOperand, hkind, hcontent]
  have hopen : (ExprState.identifier openings pending callee t.position).step u =
      .shift (.operand (.arguments callee t.position [] pending :: openings) []) := by
    rw [step, if_pos (Token.kind_of_lexeme hu)]
  refine ⟨.call callee values none t.position, _, ?_, .other, .cons (Nat.le_refl _) hname
    (.cons (Nat.le_refl _) hopen (hreads.mono (Nat.le_succ _)))⟩
  show (Node.call callee values none t.position).erase = _
  rw [Node.erase, Node.erase, hvalues]

/-- The lexemes of an expression are read, with parentheses around it and without. -/
theorem reads_of_isExpression {e : Node} (he : e.IsExpression) : ReadsNested e ∧ ReadsTop e := by
  induction he with
  | @literal v place hv =>
    have h := readsNested_literal hv place
    exact ⟨h, h.readsTop rfl⟩
  | @name id place =>
    have h := readsNested_name id place
    exact ⟨h, h.readsTop rfl⟩
  | @call callee arguments place _ _ ih =>
    have h := readsNested_call (fun e he => (ih e he).2) callee place
    exact ⟨h, h.readsTop (by rw [Node.exprLexemes, Node.exprLexemes])⟩
  | @binary op left right place hop _ _ ihl ihr =>
    have h := readsTop_binary hop ihl.1 ihr.1 place
    exact ⟨readsNested_of_readsTop h, h⟩

theorem readsTop_of_isExpression {e : Node} (he : e.IsExpression) : ReadsTop e :=
  (reads_of_isExpression he).2

/-! ### Numbers of any sign -/

theorem step_number {n : Nat} {t : Token} (ht : t.lexeme = .number n) (openings : List Opening)
    (pending : Pending) : (ExprState.operand openings pending).step t =
      .shift (.operator openings pending (.literal (Int32.ofNat n) t.position)) := by
  obtain ⟨hkind, hvalue⟩ := Token.number_of_lexeme ht
  simp only [step, stepOperand, hkind, hvalue]

theorem step_minus {t : Token} (ht : t.lexeme = TokenKind.minus.lexeme) (openings : List Opening)
    (pending : Pending) (value : Node) : (ExprState.operator openings pending value).step t =
      .shift (.operand openings (pending.push value .subtract)) := by
  simp only [step, stepValue, Token.kind_of_lexeme ht, operatorOf?, Operator.isComparison,
    Bool.false_and, Bool.false_eq_true, if_false]

/-- A number that is not negative is a constant expression. -/
theorem readsOperand_value {v : Int32} (hv : 0 ≤ v) : ReadsOperand (valueLexemes v)
    fun tree => tree.IsArithmetic ∧ tree.constantValue = .ok v := by
  intro tokens htokens openings pending
  rw [valueLexemes, if_pos hv] at htokens
  obtain ⟨t, rest, rfl, ht, hrest⟩ := exists_cons_of_lexemes htokens
  obtain rfl := List.map_eq_nil_iff.1 hrest
  obtain ⟨hkind, hvalue⟩ := Token.value_of_lexeme hv ht
  refine ⟨.literal v t.position, _, ⟨.literal _ _, rfl⟩, .other, .single (Nat.le_refl _) ?_⟩
  simp only [step, stepOperand, hkind, hvalue]

/-- The subtractions that stand for a negative number are a constant expression with its value. -/
theorem reads_value (v : Int32) : ReadsWhole (valueLexemes v)
    fun tree => tree.IsArithmetic ∧ tree.constantValue = .ok v := by
  by_cases hv : 0 ≤ v
  · exact (readsOperand_value hv).whole
  · intro tokens htokens openings
    rw [valueLexemes, if_neg hv] at htokens
    have hminus : Operator.subtract ≠ .assign := by decide
    -- the least number has no opposite; it is written as `0 - 2147483647 - 1`
    by_cases hmin : v = Int32.minValue
    · rw [if_pos hmin] at htokens
      obtain ⟨t₁, rest, rfl, h₁, hrest⟩ := exists_cons_of_lexemes htokens
      obtain ⟨t₂, rest, rfl, h₂, hrest⟩ := exists_cons_of_lexemes hrest
      obtain ⟨t₃, rest, rfl, h₃, hrest⟩ := exists_cons_of_lexemes hrest
      obtain ⟨t₄, rest, rfl, h₄, hrest⟩ := exists_cons_of_lexemes hrest
      obtain ⟨t₅, rest, rfl, h₅, hrest⟩ := exists_cons_of_lexemes hrest
      obtain rfl := List.map_eq_nil_iff.1 hrest
      refine ⟨_, _, _, ⟨?_, ?_⟩, .other, .cons (Nat.le_refl _) (step_number h₁ _ _)
        (.cons (Nat.le_refl _) (step_minus h₂ _ _ _) (.cons (Nat.le_refl _) (step_number h₃ _ _)
          (.cons (Nat.le_refl _) (step_minus h₄ _ _ _)
            (.single (Nat.le_refl _) (step_number h₅ _ _)))))⟩
      · exact .binary hminus (.binary hminus (.literal _ _) (.literal _ _) _) (.literal _ _) _
      · subst hmin
        rfl
    -- any other is its opposite taken from 0
    · rw [if_neg hmin] at htokens
      obtain ⟨t₁, rest, rfl, h₁, hrest⟩ := exists_cons_of_lexemes htokens
      obtain ⟨t₂, rest, rfl, h₂, hrest⟩ := exists_cons_of_lexemes hrest
      obtain ⟨t₃, rest, rfl, h₃, hrest⟩ := exists_cons_of_lexemes hrest
      obtain rfl := List.map_eq_nil_iff.1 hrest
      refine ⟨_, _, _, ⟨?_, ?_⟩, .other, .cons (Nat.le_refl _) (step_number h₁ _ _)
        (.cons (Nat.le_refl _) (step_minus h₂ _ _ _)
          (.single (Nat.le_refl _) (step_number h₃ _ _)))⟩
      · exact .binary hminus (.literal _ _) (.literal _ _) _
      · have hneg : v.toInt < 0 := by simpa [Int32.le_iff_toInt_le] using hv
        have hopposite : Int32.ofNat (-v.toInt).toNat = -v := by
          rw [← Int32.ofInt_eq_ofNat, Int.toNat_of_nonneg (by omega), Int32.ofInt_neg,
            Int32.ofInt_toInt]
        have hvalue : (0 : Int32) - -v = v := by
          rw [Int32.sub_eq_add_neg, Int32.neg_neg, Int32.zero_add]
        rw [hopposite]
        exact congrArg Except.ok hvalue

/-! ### Statements -/

namespace StmtState

/-- An expression and the token behind it. -/
theorem reads_use (blocks : List OpenBlock) {use : ExprUse} (huse : use ≠ .called) {e : Node}
    (he : e.IsExpression) {ts : List Token} (hts : ts.map Token.lexeme = e.exprLexemes false)
    {t : Token} (ht : t.kind = .semicolon ∨ t.kind = .rightParen) :
    ∃ value, value.erase = e.erase ∧ ∀ next, stepUse blocks use value t = .shift next →
      Reads (.expression blocks use .start) (ts ++ [t]) next := by
  obtain ⟨pending, value, s, hvalue, hread, hreads⟩ := readsTop_of_isExpression he ts hts []
  refine ⟨pending.close value, hvalue, fun next hnext => ?_⟩
  exact (reads_expression (fun h => absurd h huse) hreads).append
    (.single trivial ((stepExpression_of_hasRead hread huse ht).trans hnext))

end StmtState

open StmtState

/-- Its lexemes are read into the innermost open block. -/
def ReadsStatement (node : Node) : Prop :=
  ∀ tokens, tokens.map Token.lexeme = node.statementLexemes → ∀ b rest,
    ∃ value, value.erase = node.erase ∧
      StmtState.Reads (.start (b :: rest)) tokens (.start (b.add value :: rest))

/-- Statements one after the other. -/
theorem reads_statements {nodes : List Node} (hnodes : ∀ s ∈ nodes, ReadsStatement s)
    {tokens : List Token} (htokens : tokens.map Token.lexeme = Node.statementsLexemes nodes)
    (b : OpenBlock) (rest : List OpenBlock) :
    ∃ values, Node.eraseAll values = Node.eraseAll nodes ∧
      StmtState.Reads (.start (b :: rest)) tokens
        (.start ({ b with done := values.reverse ++ b.done } :: rest)) := by
  induction nodes generalizing tokens b with
  | nil =>
    obtain rfl := List.map_eq_nil_iff.1 htokens
    exact ⟨[], rfl, .nil⟩
  | cons s others ih =>
    rw [List.forall_mem_cons] at hnodes
    obtain ⟨ts, more, rfl, hts, hmore⟩ := exists_append_of_lexemes htokens
    obtain ⟨value, hvalue, hreads⟩ := hnodes.1 ts hts b rest
    obtain ⟨values, hvalues, hreads'⟩ := ih hnodes.2 hmore (b.add value)
    refine ⟨value :: values, ?_, ?_⟩
    · rw [Node.eraseAll, Node.eraseAll, hvalue, hvalues]
    · rw [List.reverse_cons, List.append_assoc]
      exact hreads.append hreads'

/-- The statements of a block and the brace that closes it. -/
theorem reads_block {nodes : List Node} (hnodes : ∀ s ∈ nodes, ReadsStatement s) {ts : List Token}
    (hts : ts.map Token.lexeme = Node.statementsLexemes nodes) {t : Token}
    (ht : t.lexeme = TokenKind.rightBrace.lexeme) (owner : BlockOwner) (brace : Position)
    (rest : List OpenBlock) :
    ∃ values, Node.eraseAll values = Node.eraseAll nodes ∧
      StmtState.Reads (.start ({ owner, brace } :: rest)) (ts ++ [t])
        (closeBlock rest { owner, brace, done := values.reverse }) := by
  obtain ⟨values, hvalues, hreads⟩ := reads_statements hnodes hts { owner, brace } rest
  refine ⟨values, hvalues, hreads.append (.single trivial ?_)⟩
  simp only [StmtState.step, stepStart, Token.kind_of_lexeme ht, List.append_nil]

/-- The keyword, the condition and the brace in front of a block. -/
theorem reads_condition {owner : ConditionOwner} {k : TokenKind}
    (hk : k = .ifWord ∧ owner = .ifStatement ∨ k = .whileWord ∧ owner = .whileStatement)
    {condition : Node} (hc : condition.IsExpression) {tokens : List Token} {ls : List Lexeme}
    (htokens : tokens.map Token.lexeme = k.lexeme :: TokenKind.leftParen.lexeme ::
      (condition.exprLexemes false ++ TokenKind.rightParen.lexeme :: ls))
    (blocks : List OpenBlock) :
    ∃ ts more value place, tokens = ts ++ more ∧ more.map Token.lexeme = ls ∧
      value.erase = condition.erase ∧
      StmtState.Reads (.start blocks) ts (afterCondition blocks owner place value) := by
  obtain ⟨t, rest, rfl, ht, hrest⟩ := exists_cons_of_lexemes htokens
  obtain ⟨u, rest, rfl, hu, hrest⟩ := exists_cons_of_lexemes hrest
  obtain ⟨cs, rest, rfl, hcs, hrest⟩ := exists_append_of_lexemes hrest
  obtain ⟨w, more, rfl, hw, hmore⟩ := exists_cons_of_lexemes hrest
  have hkind := Token.kind_of_lexeme ht
  have hstart : (StmtState.start blocks).step t = .shift (.paren blocks owner t.position) := by
    rcases hk with ⟨rfl, rfl⟩ | ⟨rfl, rfl⟩ <;> simp only [StmtState.step, stepStart, hkind]
  have hparen : (StmtState.paren blocks owner t.position).step u =
      .shift (.expression blocks (.condition owner t.position u.position) .start) := by
    rw [StmtState.step, if_pos (Token.kind_of_lexeme hu)]
  have hclose := Token.kind_of_lexeme hw
  obtain ⟨value, hvalue, hreads⟩ := reads_use blocks
    (show ExprUse.condition owner t.position u.position ≠ .called by simp) hc hcs (Or.inr hclose)
  have hreads := hreads (afterCondition blocks owner t.position value)
    (by simp only [stepUse, hclose])
  exact ⟨t :: u :: (cs ++ [w]), more, value, t.position, by simp, hmore, hvalue,
    .cons trivial hstart (.cons trivial hparen hreads)⟩

theorem step_brace {t : Token} (ht : t.lexeme = TokenKind.leftBrace.lexeme)
    (blocks : List OpenBlock) (owner : BlockOwner) :
    (StmtState.brace blocks owner).step t =
      .shift (.start ({ owner, brace := t.position } :: blocks)) := by
  rw [StmtState.step, if_pos (Token.kind_of_lexeme ht)]

/-- The end of an `if` statement, whether or not its second block is empty. -/
theorem closeBlock_elseOf (b : OpenBlock) (rest : List OpenBlock) (place : Position)
    (condition thenBlock : Node) (elsePlace brace : Position) (values : List Node) :
    ∃ spot, closeBlock (b :: rest)
        { owner := .elseOf place condition thenBlock elsePlace, brace, done := values.reverse } =
      .start (b.add (.branch condition thenBlock (.block values spot) place) :: rest) := by
  cases values with
  | nil => exact ⟨elsePlace, rfl⟩
  | cons s others =>
    refine ⟨brace, ?_⟩
    simp [closeBlock, complete]

/-- The lexemes of a statement are read. -/
theorem readsStatement_of_isStatement {node : Node} (h : node.IsStatement) :
    ReadsStatement node := by
  induction h with
  | @assign id value spot place _ hv =>
    intro tokens htokens b rest
    rw [Node.statementLexemes, Node.exprLexemes, List.singleton_append] at htokens
    -- the name, the sign, the value and the semicolon
    obtain ⟨t, more, rfl, ht, hmore⟩ := exists_cons_of_lexemes htokens
    obtain ⟨u, more, rfl, hu, hmore⟩ := exists_cons_of_lexemes hmore
    obtain ⟨vs, w, rfl, hvs, hw⟩ := exists_concat_of_lexemes hmore
    obtain ⟨hkind, hcontent⟩ := Token.identifier_of_lexeme ht
    have hend := Token.kind_of_lexeme hw
    have hname : (StmtState.start (b :: rest)).step t =
        .shift (.named (b :: rest) id t.position) := by
      simp only [StmtState.step, stepStart, hkind, hcontent]
    have hassign : (StmtState.named (b :: rest) id t.position).step u =
        .shift (.expression (b :: rest) (.assigned id t.position) .start) := by
      simp only [StmtState.step, Token.kind_of_lexeme hu, Operator.token]
    obtain ⟨value', hvalue, hreads⟩ := reads_use (b :: rest)
      (show ExprUse.assigned id t.position ≠ .called by simp) hv hvs (Or.inl hend)
    refine ⟨.binary .assign (.name id none t.position) value' t.position, ?_,
      .cons trivial hname (.cons trivial hassign (hreads _ ?_))⟩
    · simp only [Node.erase, hvalue]
    · simp only [stepUse, hend, complete]
  | @call callee arguments place _ ha =>
    intro tokens htokens b rest
    rw [Node.statementLexemes, Node.exprLexemes, List.cons_append, List.cons_append] at htokens
    obtain ⟨t, more, rfl, ht, hmore⟩ := exists_cons_of_lexemes htokens
    obtain ⟨u, more, rfl, hu, hmore⟩ := exists_cons_of_lexemes hmore
    obtain ⟨vs, w, rfl, hvs, hw⟩ := exists_concat_of_lexemes hmore
    obtain ⟨hkind, hcontent⟩ := Token.identifier_of_lexeme ht
    have hname : (StmtState.start (b :: rest)).step t =
        .shift (.named (b :: rest) callee t.position) := by
      simp only [StmtState.step, stepStart, hkind, hcontent]
    -- behind the name the bracket opens a call that stands alone
    have hopen : (StmtState.named (b :: rest) callee t.position).step u =
        .shift (.expression (b :: rest) .called (.startCall callee t.position)) := by
      simp only [StmtState.step, Token.kind_of_lexeme hu]
    obtain ⟨values, hvalues, hreads⟩ := reads_arguments
      (fun e he => readsTop_of_isExpression (ha e he)) hvs callee t.position [] [] (fun _ => rfl)
    refine ⟨.call callee values none t.position, ?_, .cons trivial hname (.cons trivial hopen
      ((reads_expression (fun _ => Nat.one_pos) hreads).append (.single trivial ?_)))⟩
    · rw [Node.erase, Node.erase, hvalues]
    · simp only [StmtState.step, stepExpression, stepUse, Token.kind_of_lexeme hw, complete,
        List.reverse_nil, List.nil_append]
  | leave =>
    intro tokens htokens b rest
    obtain ⟨t, more, rfl, ht, hmore⟩ := exists_cons_of_lexemes htokens
    obtain ⟨u, none, rfl, hu, hnone⟩ := exists_cons_of_lexemes hmore
    obtain rfl := List.map_eq_nil_iff.1 hnone
    -- `return` asks for a value, but takes the semicolon as well
    have hreturn : (StmtState.start (b :: rest)).step t =
        .shift (.expression (b :: rest) (.returned t.position) .start) := by
      simp only [StmtState.step, stepStart, Token.kind_of_lexeme ht]
    refine ⟨.exit .absent t.position, rfl, .cons trivial hreturn (.single trivial ?_)⟩
    simp only [StmtState.step, stepExpression, ExprState.start, Token.kind_of_lexeme hu, complete]
  | @answer value place hv =>
    intro tokens htokens b rest
    rw [Node.statementLexemes_answer hv] at htokens
    obtain ⟨t, more, rfl, ht, hmore⟩ := exists_cons_of_lexemes htokens
    obtain ⟨vs, w, rfl, hvs, hw⟩ := exists_concat_of_lexemes hmore
    have hend := Token.kind_of_lexeme hw
    have hreturn : (StmtState.start (b :: rest)).step t =
        .shift (.expression (b :: rest) (.returned t.position) .start) := by
      simp only [StmtState.step, stepStart, Token.kind_of_lexeme ht]
    obtain ⟨value', hvalue, hreads⟩ := reads_use (b :: rest)
      (show ExprUse.returned t.position ≠ .called by simp) hv hvs (Or.inl hend)
    refine ⟨.exit value' t.position, ?_, .cons trivial hreturn (hreads _ ?_)⟩
    · rw [Node.erase, Node.erase, hvalue]
    · simp only [stepUse, hend, complete]
  | @branch condition thens elses thenPlace elsePlace place hc _ _ iht ihe =>
    intro tokens htokens b rest
    rw [Node.statementLexemes, Node.blockLexemes, Node.blockLexemes] at htokens
    -- the condition, the then block, `else` and the else block
    obtain ⟨cs, more, value, start, rfl, hmore, hvalue, hreads⟩ :=
      reads_condition (Or.inl ⟨rfl, rfl⟩) hc htokens (b :: rest)
    obtain ⟨t, more, rfl, ht, hmore⟩ := exists_cons_of_lexemes hmore
    obtain ⟨ts, more, rfl, hts, hmore⟩ := exists_append_of_lexemes hmore
    obtain ⟨u, more, rfl, hu, hmore⟩ := exists_cons_of_lexemes hmore
    obtain ⟨w, more, rfl, hw, hmore⟩ := exists_cons_of_lexemes hmore
    obtain ⟨x, more, rfl, hx, hmore⟩ := exists_cons_of_lexemes hmore
    obtain ⟨es, y, rfl, hes, hy⟩ := exists_concat_of_lexemes hmore
    obtain ⟨thens', hthens, hreadsThen⟩ :=
      reads_block iht hts hu (.thenOf start value) t.position (b :: rest)
    -- the brace of the then block leads to `else`
    have helse : (closeBlock (b :: rest)
        { owner := .thenOf start value, brace := t.position, done := thens'.reverse }).step w =
        .shift (.brace (b :: rest)
          (.elseOf start value (.block thens' t.position) w.position)) := by
      rw [closeBlock, List.reverse_reverse]
      exact if_pos (Token.kind_of_lexeme hw)
    obtain ⟨elses', helses, hreadsElse⟩ := reads_block ihe hes hy
      (.elseOf start value (.block thens' t.position) w.position) x.position (b :: rest)
    -- an empty block has the place of the keyword
    obtain ⟨spot, hspot⟩ := closeBlock_elseOf b rest start value (.block thens' t.position)
      w.position x.position elses'
    rw [hspot] at hreadsElse
    refine ⟨.branch value (.block thens' t.position) (.block elses' spot) start, ?_,
      hreads.append (.cons trivial (step_brace ht _ _) ?_)⟩
    · simp only [Node.erase, hvalue, hthens, helses]
    · have hall := hreadsThen.append (.cons trivial helse (.cons trivial (step_brace hx _ _)
        hreadsElse))
      simpa only [List.append_assoc, List.cons_append, List.nil_append] using hall
  | @loop condition body bodyPlace place hc _ ihb =>
    intro tokens htokens b rest
    rw [Node.statementLexemes, Node.blockLexemes] at htokens
    obtain ⟨cs, more, value, start, rfl, hmore, hvalue, hreads⟩ :=
      reads_condition (Or.inr ⟨rfl, rfl⟩) hc htokens (b :: rest)
    obtain ⟨t, more, rfl, ht, hmore⟩ := exists_cons_of_lexemes hmore
    obtain ⟨ts, u, rfl, hts, hu⟩ := exists_concat_of_lexemes hmore
    obtain ⟨body', hbody, hreadsBody⟩ :=
      reads_block ihb hts hu (.bodyOf start value) t.position (b :: rest)
    refine ⟨.loop value (.block body' t.position) start, ?_,
      hreads.append (.cons trivial (step_brace ht _ _) ?_)⟩
    · simp only [Node.erase, hvalue, hbody]
    · simpa only [closeBlock, List.reverse_reverse, complete] using hreadsBody

end Parser

end Classwright
