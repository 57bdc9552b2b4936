import Classwright.Proofs.Check.Scoping
import Classwright.Proofs.Parser.Bodies
import Classwright.Proofs.Tree.Nodes

/-!
# Trees that stand in the source

The positions in a parsed program are those of tokens.  `Node.StandsAt` says which token a node
stands at, and `Node.PlacedExpression`, `Node.PlacedStatement` and `Node.PlacedBlock` say that
a tree has the shape the grammar gives it and takes all its positions from some tokens.  Derivations
give such trees (`Grammar.Expr.placed`, `Grammar.Block.placed`), so a parsed program is placed
(`Program.placed_of_ofTokens`); resolution keeps it so (`Program.Placed.resolve`), and each node of
a placed tree stands at a token (`Node.PlacedBlock.standsAt`).
-/

namespace Classwright

/-- The position is that of one of the tokens. -/
def Position.IsStart (tokens : List Token) (place : Position) : Prop :=
  ∃ t ∈ tokens, place = t.position

/-! ### Outcomes -/

/-- The cause lies in the text, before it is split into tokens. -/
def Cause.isLexical : Cause → Bool
  | unknownCharacter _ | numberOutOfRange _ | unclosedComment => true
  | _ => false

/-- The error is about tokens, and at one of them. -/
structure CompileError.AtToken (tokens : List Token) (e : CompileError) : Prop where
  position : e.position.IsStart tokens
  cause : e.cause.isLexical = false

section

variable {α β : Type}

/-- What a computation yields has the property `P`, or it fails at one of the tokens. -/
def PlacedOutcome (tokens : List Token) (P : α → Prop) : Except CompileError α → Prop
  | .ok a => P a
  | .error e => e.AtToken tokens

variable {tokens : List Token}

theorem PlacedOutcome.atToken {P : α → Prop} {x : Except CompileError α}
    (hx : PlacedOutcome tokens P x) {e : CompileError} (h : x = .error e) : e.AtToken tokens := by
  rw [h] at hx
  exact hx

theorem PlacedOutcome.bind {P : α → Prop} {Q : β → Prop} {x : Except CompileError α}
    {f : α → Except CompileError β} (hx : PlacedOutcome tokens P x)
    (hf : ∀ a, P a → PlacedOutcome tokens Q (f a)) : PlacedOutcome tokens Q (x >>= f) := by
  cases x with
  | error e => exact hx
  | ok a => exact hf a hx

theorem PlacedOutcome.forM {f : α → Except CompileError Unit} {xs : List α}
    (h : ∀ x ∈ xs, PlacedOutcome tokens (fun _ => True) (f x)) :
    PlacedOutcome tokens (fun _ => True) (xs.forM f) := by
  induction xs with
  | nil => exact trivial
  | cons x xs ih =>
    rw [List.forall_mem_cons] at h
    exact h.1.bind fun _ _ => ih h.2

end

/-! ### Trees -/

namespace Node

/-- Where a block has its brace, or what stands for it: the keyword of an `else` whose block is
empty, or the `if` that has no `else`. -/
def IsBlockStart (tokens : List Token) (place : Position) : Prop :=
  ∃ t ∈ tokens, t.kind ∈ [.leftBrace, .elseWord, .ifWord] ∧ place = t.position

/-- A node stands at the token it begins with. -/
inductive StandsAt (t : Token) : Node → Prop
  | literal (hk : t.kind = .number) : StandsAt t (.literal t.value t.position)
  | name {link : Option DeclId} (hk : t.kind = .identifier) :
      StandsAt t (.name t.content link t.position)
  | call {arguments : List Node} {link : Option DeclId} (hk : t.kind = .identifier) :
      StandsAt t (.call t.content arguments link t.position)
  /-- An operation or assignment stands at the first name or number of its left side. -/
  | binary {op : Operator} {left right : Node} (hk : t.kind = .identifier ∨ t.kind = .number)
      (hleft : StandsAt t left) : StandsAt t (.binary op left right t.position)
  | exit {value : Node} (hk : t.kind = .returnWord) : StandsAt t (.exit value t.position)
  | branch {condition thenBlock elseBlock : Node} (hk : t.kind = .ifWord) :
      StandsAt t (.branch condition thenBlock elseBlock t.position)
  | loop {condition body : Node} (hk : t.kind = .whileWord) :
      StandsAt t (.loop condition body t.position)
  | emptyBlock (hk : t.kind ∈ [.leftBrace, .elseWord, .ifWord]) :
      StandsAt t (.block [] t.position)
  /-- A block stands where its first statement does. -/
  | block {s : Node} {rest : List Node} {place : Position} (hs : StandsAt t s) :
      StandsAt t (.block (s :: rest) place)

theorem StandsAt.position_eq {t : Token} {node : Node} (h : node.StandsAt t) :
    node.position = t.position := by
  induction h with
  | block _ ih => exact ih
  | emptyBlock => exact Eq.refl t.position
  | _ => rfl

/-- The trees of expressions with the positions of some tokens. -/
inductive PlacedExpression (tokens : List Token) : Node → Prop
  | literal {t : Token} (ht : t ∈ tokens) (hk : t.kind = .number) :
      PlacedExpression tokens (.literal t.value t.position)
  | name {t : Token} {link : Option DeclId} (ht : t ∈ tokens) (hk : t.kind = .identifier) :
      PlacedExpression tokens (.name t.content link t.position)
  | call {t : Token} {arguments : List Node} {link : Option DeclId} (ht : t ∈ tokens)
      (hk : t.kind = .identifier) (ha : ∀ a ∈ arguments, PlacedExpression tokens a) :
      PlacedExpression tokens (.call t.content arguments link t.position)
  | binary {op : Operator} {left right : Node} {place : Position} (hop : op ≠ .assign)
      (hplace : left.position = place) (hl : PlacedExpression tokens left)
      (hr : PlacedExpression tokens right) :
      PlacedExpression tokens (.binary op left right place)

/-- The trees of statements with the positions of some tokens. -/
inductive PlacedStatement (tokens : List Token) : Node → Prop
  | assign {t : Token} {link : Option DeclId} {value : Node} (ht : t ∈ tokens)
      (hk : t.kind = .identifier) (hv : PlacedExpression tokens value) :
      PlacedStatement tokens
        (.binary .assign (.name t.content link t.position) value t.position)
  | call {callee : Text} {arguments : List Node} {link : Option DeclId} {place : Position}
      (h : PlacedExpression tokens (.call callee arguments link place)) :
      PlacedStatement tokens (.call callee arguments link place)
  | leave {t : Token} (ht : t ∈ tokens) (hk : t.kind = .returnWord) :
      PlacedStatement tokens (.exit .absent t.position)
  | answer {t : Token} {value : Node} (ht : t ∈ tokens) (hk : t.kind = .returnWord)
      (hv : PlacedExpression tokens value) : PlacedStatement tokens (.exit value t.position)
  | branch {t : Token} {condition : Node} {thens elses : List Node}
      {thenPlace elsePlace : Position} (ht : t ∈ tokens) (hk : t.kind = .ifWord)
      (hc : PlacedExpression tokens condition) (hthens : ∀ s ∈ thens, PlacedStatement tokens s)
      (hthen : IsBlockStart tokens thenPlace) (helses : ∀ s ∈ elses, PlacedStatement tokens s)
      (helse : IsBlockStart tokens elsePlace) :
      PlacedStatement tokens
        (.branch condition (.block thens thenPlace) (.block elses elsePlace) t.position)
  | loop {t : Token} {condition : Node} {body : List Node} {bodyPlace : Position}
      (ht : t ∈ tokens) (hk : t.kind = .whileWord) (hc : PlacedExpression tokens condition)
      (hstatements : ∀ s ∈ body, PlacedStatement tokens s)
      (hbody : IsBlockStart tokens bodyPlace) :
      PlacedStatement tokens (.loop condition (.block body bodyPlace) t.position)

/-- The trees of blocks with the positions of some tokens. -/
inductive PlacedBlock (tokens : List Token) : Node → Prop
  | intro {statements : List Node} {place : Position}
      (hs : ∀ s ∈ statements, PlacedStatement tokens s) (hplace : IsBlockStart tokens place) :
      PlacedBlock tokens (.block statements place)

variable {tokens : List Token}

theorem PlacedStatement.ofBranch {t : Token} {condition thenBlock elseBlock : Node}
    (ht : t ∈ tokens) (hk : t.kind = .ifWord) (hc : condition.PlacedExpression tokens)
    (hthen : thenBlock.PlacedBlock tokens) (helse : elseBlock.PlacedBlock tokens) :
    PlacedStatement tokens (.branch condition thenBlock elseBlock t.position) := by
  cases hthen with
  | intro hthens hthen =>
    cases helse with
    | intro helses helse => exact .branch ht hk hc hthens hthen helses helse

theorem PlacedStatement.ofLoop {t : Token} {condition body : Node} (ht : t ∈ tokens)
    (hk : t.kind = .whileWord) (hc : condition.PlacedExpression tokens)
    (hbody : body.PlacedBlock tokens) :
    PlacedStatement tokens (.loop condition body t.position) := by
  cases hbody with
  | intro hstatements hbody => exact .loop ht hk hc hstatements hbody

/-! ### Where placed trees stand -/

/-- An expression stands at a name or number, the first one in it. -/
theorem PlacedExpression.exists_standsAt {e : Node} (h : e.PlacedExpression tokens) :
    ∃ t ∈ tokens, (t.kind = .identifier ∨ t.kind = .number) ∧ e.StandsAt t := by
  induction h with
  | @literal t ht hk => exact ⟨t, ht, Or.inr hk, .literal hk⟩
  | @name t _ ht hk => exact ⟨t, ht, Or.inl hk, .name hk⟩
  | @call t _ _ ht hk => exact ⟨t, ht, Or.inl hk, .call hk⟩
  | binary hop hplace _ _ ihl =>
    obtain ⟨t, ht, hk, hleft⟩ := ihl
    rw [← hplace, hleft.position_eq]
    exact ⟨t, ht, hk, .binary hk hleft⟩

theorem PlacedExpression.isStart {e : Node} (h : e.PlacedExpression tokens) :
    e.position.IsStart tokens := by
  obtain ⟨t, ht, -, hstands⟩ := h.exists_standsAt
  exact ⟨t, ht, hstands.position_eq⟩

theorem PlacedStatement.exists_standsAt {s : Node} (h : s.PlacedStatement tokens) :
    ∃ t ∈ tokens, s.StandsAt t := by
  cases h with
  | @assign t _ _ ht hk => exact ⟨t, ht, .binary (Or.inl hk) (.name hk)⟩
  | call h =>
    obtain ⟨t, ht, -, hstands⟩ := h.exists_standsAt
    exact ⟨t, ht, hstands⟩
  | @leave t ht hk | @answer t _ ht hk => exact ⟨t, ht, .exit hk⟩
  | @branch t _ _ _ _ _ ht hk => exact ⟨t, ht, .branch hk⟩
  | @loop t _ _ _ ht hk => exact ⟨t, ht, .loop hk⟩

theorem PlacedStatement.isStart {s : Node} (h : s.PlacedStatement tokens) :
    s.position.IsStart tokens := by
  obtain ⟨t, ht, hstands⟩ := h.exists_standsAt
  exact ⟨t, ht, hstands.position_eq⟩

theorem PlacedBlock.exists_standsAt {b : Node} (h : b.PlacedBlock tokens) :
    ∃ t ∈ tokens, b.StandsAt t := by
  cases h with
  | @intro statements place hs hplace =>
    cases statements with
    | nil =>
      obtain ⟨t, ht, hk, rfl⟩ := hplace
      exact ⟨t, ht, .emptyBlock hk⟩
    | cons s rest =>
      obtain ⟨t, ht, hstands⟩ := (hs s List.mem_cons_self).exists_standsAt
      exact ⟨t, ht, .block hstands⟩

/-- **Every node of an expression stands at a token.** -/
theorem PlacedExpression.standsAt {e : Node} (h : e.PlacedExpression tokens) :
    ∀ n ∈ e.nodes, ∃ t ∈ tokens, n.StandsAt t := by
  have hself {e : Node} (h : e.PlacedExpression tokens) : ∃ t ∈ tokens, e.StandsAt t := by
    obtain ⟨t, ht, -, hstands⟩ := h.exists_standsAt
    exact ⟨t, ht, hstands⟩
  induction h with
  | literal ht hk => exact List.forall_mem_singleton.2 (hself (.literal ht hk))
  | name ht hk => exact List.forall_mem_singleton.2 (hself (.name ht hk))
  | call ht hk ha ih =>
    rw [nodes_call, List.forall_mem_cons]
    refine ⟨hself (.call ht hk ha), fun n hn => ?_⟩
    obtain ⟨a, hmem, hn⟩ := List.mem_flatMap.1 hn
    exact ih a hmem n hn
  | binary hop hplace hl hr ihl ihr =>
    rw [nodes_binary, List.forall_mem_cons, List.forall_mem_append]
    exact ⟨hself (.binary hop hplace hl hr), ihl, ihr⟩

/-- So does every node of a block, if those of its statements do. -/
theorem standsAt_block {statements : List Node} {place : Position}
    (hs : ∀ s ∈ statements, s.PlacedStatement tokens) (hplace : IsBlockStart tokens place)
    (h : ∀ s ∈ statements, ∀ n ∈ s.nodes, ∃ t ∈ tokens, n.StandsAt t) :
    ∀ n ∈ (block statements place).nodes, ∃ t ∈ tokens, n.StandsAt t := by
  rw [nodes_block, List.forall_mem_cons]
  refine ⟨(PlacedBlock.intro hs hplace).exists_standsAt, fun n hn => ?_⟩
  obtain ⟨s, hmem, hn⟩ := List.mem_flatMap.1 hn
  exact h s hmem n hn

theorem PlacedStatement.standsAt {s : Node} (h : s.PlacedStatement tokens) :
    ∀ n ∈ s.nodes, ∃ t ∈ tokens, n.StandsAt t := by
  have hself := h.exists_standsAt
  induction h with
  | assign ht hk hv =>
    rw [nodes_binary, List.forall_mem_cons, List.forall_mem_append]
    exact ⟨hself, (PlacedExpression.name ht hk).standsAt, hv.standsAt⟩
  | call h => exact h.standsAt
  | leave => exact List.forall_mem_singleton.2 hself
  | answer _ _ hv =>
    rw [nodes_exit, List.forall_mem_cons]
    exact ⟨hself, hv.standsAt⟩
  | branch _ _ hc hthens hthen helses helse iht ihe =>
    rw [nodes_branch, List.forall_mem_cons, List.forall_mem_append, List.forall_mem_append]
    exact ⟨hself, hc.standsAt,
      standsAt_block hthens hthen fun s hs => iht s hs (hthens s hs).exists_standsAt,
      standsAt_block helses helse fun s hs => ihe s hs (helses s hs).exists_standsAt⟩
  | loop _ _ hc hstatements hbody ih =>
    rw [nodes_loop, List.forall_mem_cons, List.forall_mem_append]
    exact ⟨hself, hc.standsAt,
      standsAt_block hstatements hbody fun s hs => ih s hs (hstatements s hs).exists_standsAt⟩

/-- **Every node of a block stands at a token.** -/
theorem PlacedBlock.standsAt {b : Node} (h : b.PlacedBlock tokens) :
    ∀ n ∈ b.nodes, ∃ t ∈ tokens, n.StandsAt t := by
  cases h with
  | intro hs hplace => exact standsAt_block hs hplace fun s hmem => (hs s hmem).standsAt

/-! ### Resolution -/

mutual

theorem position_unlinked : ∀ node : Node, node.unlinked.position = node.position
  | absent | literal _ _ | name _ _ _ | binary _ _ _ _ | exit _ _ | call _ _ _ _
  | branch _ _ _ _ | loop _ _ _ => rfl
  | block statements place => by
    rw [unlinked, position, position, firstPosition_unlinkedAll statements]

theorem firstPosition_unlinkedAll {place : Position} : ∀ nodes : List Node,
    firstPosition place (unlinkedAll nodes) = firstPosition place nodes
  | [] => rfl
  | node :: _ => by rw [unlinkedAll, firstPosition, firstPosition, position_unlinked node]

end

section

variable {p : Program} {table : Option TableId}

theorem position_resolve (node : Node) : (node.resolve p table).1.position = node.position := by
  rw [← position_unlinked, unlinked_resolve, position_unlinked]

/-- What holds behind an error and without one holds in any case. -/
theorem elim_of {α : Type} {Q : α → Prop} {x y : α} (e : Option CompileError) (hx : Q x)
    (hy : Q y) : Q (e.elim x fun _ => y) := by
  cases e with
  | none => exact hx
  | some e => exact hy

/-- What holds of some trees, and of each when it is resolved, holds when they are resolved up to
the first error. -/
theorem forall_resolveAll {Q : Node → Prop} {nodes : List Node} (h : ∀ x ∈ nodes, Q x)
    (hresolve : ∀ x ∈ nodes, Q (x.resolve p table).1) :
    ∀ x ∈ (resolveAll p table nodes).1, Q x := by
  induction nodes with
  | nil => exact h
  | cons node rest ih =>
    rw [List.forall_mem_cons] at h hresolve
    rw [resolveAll_cons, List.forall_mem_cons]
    exact ⟨hresolve.1, elim_of (Q := fun xs => ∀ x ∈ xs, Q x) _ (ih h.2 hresolve.2) h.2⟩

theorem PlacedExpression.resolve {e : Node} (h : e.PlacedExpression tokens) :
    (e.resolve p table).1.PlacedExpression tokens := by
  induction h with
  | literal ht hk => exact .literal ht hk
  | name ht hk =>
    rw [resolve_name]
    exact .name ht hk
  | call ht hk ha ih =>
    rw [resolve_call]
    exact .call ht hk (forall_resolveAll ha ih)
  | binary hop hplace _ hr ihl ihr =>
    rw [resolve_binary]
    exact .binary hop ((position_resolve _).trans hplace) ihl (elim_of _ ihr hr)

theorem PlacedStatement.resolve {s : Node} (h : s.PlacedStatement tokens) :
    (s.resolve p table).1.PlacedStatement tokens := by
  induction h with
  | assign ht hk hv =>
    rw [resolve_binary, resolve_name]
    exact .assign ht hk (elim_of _ hv.resolve hv)
  | call h =>
    have hcall : ((Node.call _ _ _ _).resolve p table).1.PlacedExpression tokens := h.resolve
    rw [resolve_call] at hcall ⊢
    exact .call hcall
  | leave ht hk => exact .leave ht hk
  | answer ht hk hv => exact .answer ht hk hv.resolve
  | branch ht hk hc hthens hthen helses helse iht ihe =>
    rw [resolve_branch]
    apply PlacedStatement.ofBranch ht hk hc.resolve
    · exact elim_of _ (.intro (forall_resolveAll hthens iht) hthen) (.intro hthens hthen)
    · exact elim_of _ (.intro (forall_resolveAll helses ihe) helse) (.intro helses helse)
  | loop ht hk hc hstatements hbody ih =>
    rw [resolve_loop]
    apply PlacedStatement.ofLoop ht hk hc.resolve
    exact elim_of _ (.intro (forall_resolveAll hstatements ih) hbody) (.intro hstatements hbody)

theorem PlacedBlock.resolve {b : Node} (h : b.PlacedBlock tokens) :
    (b.resolve p table).1.PlacedBlock tokens := by
  cases h with
  | intro hs hplace =>
    exact .intro (forall_resolveAll hs fun s hmem => (hs s hmem).resolve) hplace

end

end Node

/-! ### Derived trees -/

namespace Grammar

variable {tokens : List Token}

theorem operator_ne_assign {t : Token}
    (h : t.kind ∈ comparisons ∨ t.kind ∈ additives ∨ t.kind ∈ multiplicatives) :
    operator t ≠ .assign := by
  rcases h with h | h | h
  · exact Parser.operatorOf?_ne_assign (operatorOf?_comparison h).1
  · exact Parser.operatorOf?_ne_assign (operatorOf?_additive h).1
  · exact Parser.operatorOf?_ne_assign (operatorOf?_multiplicative h).1

/-- Terms are joined to an operation that stands where the first does. -/
theorem Simple.placed_join {left : Node} (hleft : left.PlacedExpression tokens)
    {rest : List (OneOf additives × Term)} (h : ∀ x ∈ rest, x.2.node.PlacedExpression tokens) :
    (Simple.join left rest).PlacedExpression tokens := by
  induction rest generalizing left with
  | nil => exact hleft
  | cons x rest ih =>
    obtain ⟨op, t⟩ := x
    rw [List.forall_mem_cons] at h
    have hop := operator_ne_assign (Or.inr (Or.inl op.2))
    exact ih (.binary hop rfl hleft h.1) h.2

theorem Term.placed_join {left : Node} (hleft : left.PlacedExpression tokens)
    {rest : List (OneOf multiplicatives × Factor)}
    (h : ∀ x ∈ rest, x.2.node.PlacedExpression tokens) :
    (Term.join left rest).PlacedExpression tokens := by
  induction rest generalizing left with
  | nil => exact hleft
  | cons x rest ih =>
    obtain ⟨op, f⟩ := x
    rw [List.forall_mem_cons] at h
    have hop := operator_ne_assign (Or.inr (Or.inr op.2))
    exact ih (.binary hop rfl hleft h.1) h.2

/-- The tokens of a row are those of its phrases and of what stands between them. -/
theorem rowTokens_subset {α : Type} {P : Token → Prop} {phrase : α → List Token} {first : α}
    {rest : List ({ t : Token // P t } × α)} (h : rowTokens phrase (first, rest) ⊆ tokens) :
    phrase first ⊆ tokens ∧ ∀ x ∈ rest, phrase x.2 ⊆ tokens := by
  rw [rowTokens, List.append_subset] at h
  refine ⟨h.1, fun x hx t ht => h.2 ?_⟩
  exact List.mem_flatMap.2 ⟨x, hx, List.mem_cons_of_mem _ ht⟩

theorem Call.restNodes_eq (rest : List (Terminal .comma × Expr)) :
    Call.restNodes rest = rest.map fun x => x.2.node := by
  induction rest with
  | nil => rfl
  | cons x rest ih => rw [Call.restNodes, ih, List.map_cons]

/-- **The tree of an expression is placed**, and so are those of the phrases in it. -/
theorem Expr.inherited_placed (tokens : List Token) : Expr.Inherited
    (fun e => e.tokens ⊆ tokens → e.node.PlacedExpression tokens)
    (fun s => s.tokens ⊆ tokens → s.node.PlacedExpression tokens)
    (fun t => t.tokens ⊆ tokens → t.node.PlacedExpression tokens)
    (fun f => f.tokens ⊆ tokens → f.node.PlacedExpression tokens)
    (fun c => c.tokens ⊆ tokens → c.node.PlacedExpression tokens) where
  simple _ hs := hs
  comparison left op right hleft hright h := by
    rw [Expr.tokens, List.append_subset, List.cons_subset] at h
    exact .binary (operator_ne_assign (Or.inl op.2)) rfl (hleft h.1) (hright h.2.2)
  terms first rest hfirst hrest h := by
    rw [Simple.tokens_row] at h
    obtain ⟨h₁, h₂⟩ := rowTokens_subset h
    exact Simple.placed_join (hfirst h₁) fun x hx => hrest x hx (h₂ x hx)
  factors first rest hfirst hrest h := by
    rw [Term.tokens_row] at h
    obtain ⟨h₁, h₂⟩ := rowTokens_subset h
    exact Term.placed_join (hfirst h₁) fun x hx => hrest x hx (h₂ x hx)
  number t h := .literal (h List.mem_cons_self) t.2
  name t h := .name (h List.mem_cons_self) t.2
  call _ hc := hc
  group leftParen e rightParen he h := by
    rw [Factor.tokens, List.cons_subset, List.append_subset] at h
    exact he h.2.1
  noArguments name leftParen rightParen h :=
    .call (h List.mem_cons_self) name.2 (List.forall_mem_nil _)
  arguments name leftParen first rest rightParen hfirst hrest h := by
    rw [Call.tokens_some, List.cons_subset, List.cons_subset, List.append_subset] at h
    obtain ⟨h₁, h₂⟩ := rowTokens_subset h.2.2.1
    refine .call h.1 name.2 (List.forall_mem_cons.2 ⟨hfirst h₁, ?_⟩)
    rw [Call.restNodes_eq, List.forall_mem_map]
    exact fun x hx => hrest x hx (h₂ x hx)

theorem Expr.placed (e : Expr) (h : e.tokens ⊆ tokens) : e.node.PlacedExpression tokens :=
  (Expr.inherited_placed tokens).expr e h

theorem Condition.placed {c : Condition} (h : c.tokens ⊆ tokens) :
    c.value.node.PlacedExpression tokens := by
  rw [Condition.tokens, List.cons_subset, List.append_subset] at h
  exact c.value.placed h.2.1

theorem Stmt.placed_nodes {statements : List Stmt} (h : Stmt.allTokens statements ⊆ tokens)
    (hs : ∀ s ∈ statements, s.tokens ⊆ tokens → s.node.PlacedStatement tokens) :
    ∀ node ∈ Stmt.nodes statements, node.PlacedStatement tokens := by
  rw [Stmt.nodes_eq, List.forall_mem_map]
  intro s hmem
  apply hs s hmem
  intro t ht
  apply h
  rw [Stmt.allTokens_eq]
  exact List.mem_flatMap.2 ⟨s, hmem, ht⟩

/-- A block behind `else` stands at its keyword if it is empty. -/
theorem Block.placed_elseNode {b : Block} {t : Token} (ht : t ∈ tokens) (hk : t.kind = .elseWord)
    (hb : b.node.PlacedBlock tokens) : (b.elseNode t.position).PlacedBlock tokens := by
  obtain ⟨leftBrace, statements, rightBrace⟩ := b
  cases statements with
  | nil => exact .intro (List.forall_mem_nil _) ⟨t, ht, by simp [hk], rfl⟩
  | cons s rest => exact hb

/-- **The tree of a statement is placed**, and so is that of a block. -/
theorem Stmt.inherited_placed (tokens : List Token) : Stmt.Inherited
    (fun s => s.tokens ⊆ tokens → s.node.PlacedStatement tokens)
    (fun b => b.tokens ⊆ tokens → b.node.PlacedBlock tokens) where
  assign name sign value semicolon h := by
    rw [Stmt.tokens, List.cons_subset, List.cons_subset, List.append_subset] at h
    exact .assign h.1 name.2 (value.placed h.2.2.1)
  call c semicolon h := by
    rw [Stmt.tokens, List.append_subset] at h
    have hc := (Expr.inherited_placed tokens).invocation c h.1
    obtain ⟨name, leftParen, arguments, rightParen⟩ := c
    cases arguments <;> exact .call hc
  exit word value semicolon h := by
    cases value with
    | none => exact .leave (h List.mem_cons_self) word.2
    | some value =>
      rw [Stmt.tokens, List.cons_subset, List.append_subset] at h
      exact .answer h.1 word.2 (value.placed h.2.1)
  branch word condition thens hthens h := by
    rw [Stmt.tokens, List.cons_subset, List.append_subset] at h
    refine .ofBranch h.1 word.2 (Condition.placed h.2.1) (hthens h.2.2) ?_
    -- The missing block stands where the statement does.
    exact .intro (List.forall_mem_nil _) ⟨word.1, h.1, by simp [word.2], rfl⟩
  branchElse word condition thens elseWord elses hthens helses h := by
    rw [Stmt.tokens, List.cons_subset, List.append_subset, List.append_subset,
      List.cons_subset] at h
    obtain ⟨hword, hcondition, hthen, helseWord, helse⟩ := h
    exact .ofBranch hword word.2 (Condition.placed hcondition) (hthens hthen)
      (Block.placed_elseNode helseWord elseWord.2 (helses helse))
  loop word condition body hbody h := by
    rw [Stmt.tokens, List.cons_subset, List.append_subset] at h
    exact .ofLoop h.1 word.2 (Condition.placed h.2.1) (hbody h.2.2)
  block leftBrace statements rightBrace hs h := by
    rw [Block.tokens, List.cons_subset, List.append_subset] at h
    exact .intro (Stmt.placed_nodes h.2.1 hs) ⟨leftBrace.1, h.1, by simp [leftBrace.2], rfl⟩

theorem Method.placed_body {m : Method} (h : m.tokens ⊆ tokens) : m.body.PlacedBlock tokens := by
  simp only [Method.tokens, List.cons_subset, List.append_subset] at h
  -- Behind the head come the brace, the variables, the statements and the other brace.
  obtain ⟨-, -, -, -, -, -, hbrace, -, hstatements, -⟩ := h
  refine .intro (Stmt.placed_nodes hstatements fun s _ => ?_)
    ⟨m.leftBrace.1, hbrace, by simp [m.leftBrace.2], rfl⟩
  exact (Stmt.inherited_placed tokens).stmt s

end Grammar

/-! ### Programs -/

/-- A program with the positions of some tokens. -/
structure Program.Placed (tokens : List Token) (p : Program) : Prop where
  /-- The name of the class is one of the tokens. -/
  position : p.position.IsStart tokens
  /-- So is the name of each declaration. -/
  declared : ∀ id d, p.decl? id = some d → d.position.IsStart tokens
  /-- The bodies of procedures are placed. -/
  bodies : ∀ id d, p.decl? id = some d → d.kind = .procedure → d.body.PlacedBlock tokens

namespace Grammar

variable {tokens : List Token}

/-- A declaration with the positions of some tokens. -/
def PlacedDeclaration (tokens : List Token) (d : Declaration) : Prop :=
  d.position.IsStart tokens ∧ (d.kind = .procedure → d.body.PlacedBlock tokens)

theorem placed_variables {vs : List Variable} (table : TableId)
    (h : vs.flatMap Variable.tokens ⊆ tokens) :
    ∀ d ∈ vs.map (Variable.declaration table), PlacedDeclaration tokens d := by
  rw [List.forall_mem_map]
  intro v hv
  have hname : v.name.1 ∈ v.tokens := by simp [Variable.tokens]
  exact ⟨⟨v.name.1, h (List.mem_flatMap.2 ⟨v, hv, hname⟩), rfl⟩, fun hk => by cases hk⟩

theorem Param.mem_paramTokens {params : Option (Param × List (Terminal .comma × Param))}
    {x : Param} (hx : x ∈ Param.listOf params) : x.name.1 ∈ Method.paramTokens params := by
  have hname (x : Param) : x.name.1 ∈ x.tokens := by simp [Param.tokens]
  cases params with
  | none => cases hx
  | some row =>
    obtain ⟨first, rest⟩ := row
    rw [Method.paramTokens, rowTokens, List.mem_append, List.mem_flatMap]
    rcases List.mem_cons.1 hx with rfl | hx
    · exact Or.inl (hname x)
    · obtain ⟨y, hy, rfl⟩ := List.mem_map.1 hx
      exact Or.inr ⟨y, hy, List.mem_cons_of_mem _ (hname y.2)⟩

theorem Method.placed_declarations {m : Method} (h : m.tokens ⊆ tokens) (id : DeclId)
    (table : TableId) : ∀ d ∈ m.declarations id table, PlacedDeclaration tokens d := by
  have hbody := Method.placed_body h
  simp only [Method.tokens, List.cons_subset, List.append_subset] at h
  obtain ⟨-, -, hname, -, hparams, -, -, hlocals, -⟩ := h
  rw [Method.declarations, List.forall_mem_cons, List.forall_mem_append, List.forall_mem_map]
  refine ⟨⟨⟨m.name.1, hname, rfl⟩, fun _ => hbody⟩, fun x hx => ?_, placed_variables _ hlocals⟩
  exact ⟨⟨x.name.1, hparams (Param.mem_paramTokens hx), rfl⟩, fun hk => by cases hk⟩

theorem Method.placed_allDeclarations {ms : List Method} (h : ms.flatMap Method.tokens ⊆ tokens)
    (id : DeclId) (table : TableId) :
    ∀ d ∈ Method.allDeclarations id table ms, PlacedDeclaration tokens d := by
  induction ms generalizing id table with
  | nil => exact List.forall_mem_nil _
  | cons m ms ih =>
    rw [List.flatMap_cons, List.append_subset] at h
    rw [Method.allDeclarations, List.forall_mem_append]
    exact ⟨Method.placed_declarations h.1 id table, ih h.2 _ _⟩

theorem Class.placed_declarations {c : Class} (h : c.tokens ⊆ tokens) :
    ∀ d ∈ c.declarations, PlacedDeclaration tokens d := by
  simp only [Class.tokens, List.cons_subset, List.append_subset] at h
  obtain ⟨-, -, -, hconstants, hfields, hmethods, -⟩ := h
  rw [Class.declarations, List.forall_mem_append, List.forall_mem_append, List.forall_mem_map]
  refine ⟨⟨fun x hx => ?_, placed_variables _ hfields⟩, Method.placed_allDeclarations hmethods _ _⟩
  have hname : x.name.1 ∈ x.tokens := by simp [Constant.tokens]
  exact ⟨⟨x.name.1, hconstants (List.mem_flatMap.2 ⟨x, hx, hname⟩), rfl⟩, fun hk => by cases hk⟩

/-- **A class is placed at its tokens.** -/
theorem Class.placed (c : Class) : c.program.Placed c.tokens := by
  have hmem {id : DeclId} {d : Declaration} (hd : c.program.decl? id = some d) :
      PlacedDeclaration c.tokens d := by
    apply Class.placed_declarations (List.Subset.refl _)
    rw [← c.decls_program, Array.mem_toList_iff]
    exact Array.mem_of_getElem? hd
  constructor
  case position => exact ⟨c.name.1, by simp [Class.tokens], rfl⟩
  case declared => exact fun id d hd => (hmem hd).1
  case bodies => exact fun id d hd => (hmem hd).2

end Grammar

namespace Program

variable {tokens : List Token} {p : Program}

/-- **A program that has been parsed takes its positions from its tokens.** -/
theorem placed_of_ofTokens (h : ofTokens tokens = .ok p) : p.Placed tokens := by
  obtain ⟨c, rfl, rfl⟩ := exists_class h
  exact c.placed

/-- The procedures of the class are placed. -/
theorem Placed.of_mem_procedures (hp : p.Placed tokens) {d : Declaration}
    (hd : d ∈ p.procedures.filterMap p.decl?) :
    d.position.IsStart tokens ∧ d.body.PlacedBlock tokens := by
  obtain ⟨id, hid, hd⟩ := List.mem_filterMap.1 hd
  have hk : d.kind = .procedure := by
    have hkind := (List.mem_filter.1 hid).2
    rw [hasKind, hd] at hkind
    exact beq_iff_eq.1 hkind
  exact ⟨hp.declared id d hd, hp.bodies id d hd hk⟩

theorem Placed.update_body (hp : p.Placed tokens) (id : DeclId) {body : Node}
    (h : ∀ d, p.decl? id = some d → d.kind = .procedure → body.PlacedBlock tokens) :
    (p.update id fun d => { d with body }).Placed tokens := by
  have hdecl {j : DeclId} {d : Declaration}
      (hd : (p.update id fun d => { d with body }).decl? j = some d) :
      p.decl? j = some d ∨ ∃ e, p.decl? j = some e ∧ id = j ∧ d = { e with body } := by
    rw [decl?_update] at hd
    split at hd
    · rename_i hj
      obtain ⟨e, he, rfl⟩ := Option.map_eq_some_iff.1 hd
      exact Or.inr ⟨e, he, hj, rfl⟩
    · exact Or.inl hd
  constructor
  case position => exact hp.position
  case declared =>
    intro j d hd
    rcases hdecl hd with hd | ⟨e, he, -, rfl⟩
    · exact hp.declared j d hd
    · exact hp.declared j e he
  case bodies =>
    intro j d hd hk
    rcases hdecl hd with hd | ⟨e, he, rfl, rfl⟩
    · exact hp.bodies j d hd hk
    · exact h e he hk

theorem Placed.resolveProcedures (hp : p.Placed tokens) (ids : List DeclId) :
    (p.resolveProcedures ids).1.Placed tokens := by
  induction ids generalizing p with
  | nil => exact hp
  | cons id rest ih =>
    cases hd : p.decl? id with
    | none =>
      rw [resolveProcedures_cons_of_none hd]
      exact ih hp
    | some d =>
      have hupdate : (p.update id fun e =>
          { e with body := (d.body.resolve p d.locals).1 }).Placed tokens := by
        refine hp.update_body id fun e he hk => ?_
        obtain rfl := Option.some.inj (hd.symm.trans he)
        exact (hp.bodies id d hd hk).resolve
      rw [resolveProcedures_cons hd]
      cases (d.body.resolve p d.locals).2 with
      | none => exact ih hupdate
      | some e => exact hupdate

/-- Resolution changes no positions. -/
theorem Placed.resolve (hp : p.Placed tokens) : p.resolve.1.Placed tokens :=
  hp.resolveProcedures p.procedures

end Program

end Classwright
