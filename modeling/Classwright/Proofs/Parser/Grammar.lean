import Classwright.Parser.Program

/-!
# The grammar

    class    = "class" name "{" {constant} {variable} {method} "}"
    constant = "final" "int" name "=" expr ";"
    variable = "int" name ";"
    method   = "public" ("void"|"int") name "(" [param {"," param}] ")" "{" {variable} {stmt} "}"
    param    = "int" name
    stmt     = name "=" expr ";" | call ";" | "return" [expr] ";"
             | "if" cond block ["else" block] | "while" cond block
    cond     = "(" expr ")"
    block    = "{" {stmt} "}"
    expr     = simple [("=="|"<"|"<="|">"|">=") simple]
    simple   = term {("+"|"-") term}
    term     = factor {("*"|"/") factor}
    factor   = number | name | call | "(" expr ")"
    call     = name "(" [expr {"," expr}] ")"

The derivations of this grammar are data: a type for each phrase, with a constructor for each form
the phrase can take, `List` for what may be repeated and `Option` for what may be missing.  The
leaves are tokens of the kinds that the grammar asks for.  A derivation has its tokens, from left
to right (`tokens`), and the tree it stands for (`node`).

What holds of all expressions or all statements is proved form by form (`Expr.Inherited`,
`Stmt.Inherited`).
-/

namespace Classwright

namespace Grammar

/-! ### Tokens -/

/-- A token of a given kind. -/
abbrev Terminal (k : TokenKind) : Type := { t : Token // t.kind = k }

/-- A token of one of some kinds. -/
abbrev OneOf (kinds : List TokenKind) : Type := { t : Token // t.kind ∈ kinds }

/-- The comparisons. -/
def comparisons : List TokenKind := [.equal, .less, .lessEqual, .greater, .greaterEqual]

/-- The operators between terms. -/
def additives : List TokenKind := [.plus, .minus]

/-- The operators between factors. -/
def multiplicatives : List TokenKind := [.times, .divide]

/-- The operator a token stands for. -/
def operator (t : Token) : Operator :=
  (Parser.operatorOf? t.kind).getD .assign

theorem operatorOf?_comparison {t : Token} (h : t.kind ∈ comparisons) :
    Parser.operatorOf? t.kind = some (operator t) ∧ (operator t).priority = 1 ∧
      (operator t).isComparison = true := by
  simp only [comparisons, List.mem_cons, List.not_mem_nil, or_false] at h
  rcases h with h | h | h | h | h <;> simp only [operator, h] <;> exact ⟨rfl, rfl, rfl⟩

theorem operatorOf?_additive {t : Token} (h : t.kind ∈ additives) :
    Parser.operatorOf? t.kind = some (operator t) ∧ (operator t).priority = 2 ∧
      (operator t).isComparison = false := by
  simp only [additives, List.mem_cons, List.not_mem_nil, or_false] at h
  rcases h with h | h <;> simp only [operator, h] <;> exact ⟨rfl, rfl, rfl⟩

theorem operatorOf?_multiplicative {t : Token} (h : t.kind ∈ multiplicatives) :
    Parser.operatorOf? t.kind = some (operator t) ∧ (operator t).priority = 3 ∧
      (operator t).isComparison = false := by
  simp only [multiplicatives, List.mem_cons, List.not_mem_nil, or_false] at h
  rcases h with h | h <;> simp only [operator, h] <;> exact ⟨rfl, rfl, rfl⟩

/-- The operators of expressions are the comparisons and those between terms and factors. -/
theorem mem_of_operatorOf? {t : Token} {op : Operator} (h : Parser.operatorOf? t.kind = some op) :
    op = operator t ∧
      (t.kind ∈ comparisons ∨ t.kind ∈ additives ∨ t.kind ∈ multiplicatives) := by
  refine ⟨by rw [operator, h, Option.getD_some], ?_⟩
  revert h
  cases t.kind <;> simp [Parser.operatorOf?, comparisons, additives, multiplicatives]

/-- The tokens of a row of phrases with a token between each two. -/
def rowTokens {α : Type} {P : Token → Prop} (tokens : α → List Token)
    (row : α × List ({ t : Token // P t } × α)) : List Token :=
  tokens row.1 ++ row.2.flatMap fun x => x.1.1 :: tokens x.2

/-! ### Expressions -/

mutual

/-- An expression: `simple [("=="|"<"|"<="|">"|">=") simple]`. -/
inductive Expr where
  | simple (s : Simple)
  | comparison (left : Simple) (op : OneOf comparisons) (right : Simple)

/-- A row of terms: `term {("+"|"-") term}`. -/
inductive Simple where
  | row (first : Term) (rest : List (OneOf additives × Term))

/-- A row of factors: `factor {("*"|"/") factor}`. -/
inductive Term where
  | row (first : Factor) (rest : List (OneOf multiplicatives × Factor))

/-- A factor: `number | name | call | "(" expr ")"`. -/
inductive Factor where
  | number (t : Terminal .number)
  | name (t : Terminal .identifier)
  | call (c : Call)
  | group (leftParen : Terminal .leftParen) (e : Expr) (rightParen : Terminal .rightParen)

/-- A call: `name "(" [expr {"," expr}] ")"`. -/
inductive Call where
  | intro (name : Terminal .identifier) (leftParen : Terminal .leftParen)
      (arguments : Option (Expr × List (Terminal .comma × Expr)))
      (rightParen : Terminal .rightParen)

end

mutual

/-- The tokens of an expression. -/
def Expr.tokens : Expr → List Token
  | .simple s => s.tokens
  | .comparison left op right => left.tokens ++ op.1 :: right.tokens

/-- The tokens of a row of terms. -/
def Simple.tokens : Simple → List Token
  | .row first rest => first.tokens ++ Simple.restTokens rest

/-- The tokens of the terms behind the first. -/
def Simple.restTokens : List (OneOf additives × Term) → List Token
  | [] => []
  | (op, t) :: rest => op.1 :: (t.tokens ++ Simple.restTokens rest)

/-- The tokens of a row of factors. -/
def Term.tokens : Term → List Token
  | .row first rest => first.tokens ++ Term.restTokens rest

/-- The tokens of the factors behind the first. -/
def Term.restTokens : List (OneOf multiplicatives × Factor) → List Token
  | [] => []
  | (op, f) :: rest => op.1 :: (f.tokens ++ Term.restTokens rest)

/-- The tokens of a factor. -/
def Factor.tokens : Factor → List Token
  | .number t => [t.1]
  | .name t => [t.1]
  | .call c => c.tokens
  | .group leftParen e rightParen => leftParen.1 :: (e.tokens ++ [rightParen.1])

/-- The tokens of a call. -/
def Call.tokens : Call → List Token
  | .intro name leftParen none rightParen => [name.1, leftParen.1, rightParen.1]
  | .intro name leftParen (some (first, rest)) rightParen =>
    name.1 :: leftParen.1 :: (first.tokens ++ (Call.restTokens rest ++ [rightParen.1]))

/-- The tokens of the arguments behind the first. -/
def Call.restTokens : List (Terminal .comma × Expr) → List Token
  | [] => []
  | (comma, e) :: rest => comma.1 :: (e.tokens ++ Call.restTokens rest)

end

theorem Simple.tokens_row (first : Term) (rest : List (OneOf additives × Term)) :
    (Simple.row first rest).tokens = rowTokens Term.tokens (first, rest) := by
  have hrest : Simple.restTokens rest = rest.flatMap fun x => x.1.1 :: x.2.tokens := by
    induction rest with
    | nil => rfl
    | cons x rest ih => rw [Simple.restTokens, ih, List.flatMap_cons, List.cons_append]
  rw [Simple.tokens, hrest, rowTokens]

theorem Term.tokens_row (first : Factor) (rest : List (OneOf multiplicatives × Factor)) :
    (Term.row first rest).tokens = rowTokens Factor.tokens (first, rest) := by
  have hrest : Term.restTokens rest = rest.flatMap fun x => x.1.1 :: x.2.tokens := by
    induction rest with
    | nil => rfl
    | cons x rest ih => rw [Term.restTokens, ih, List.flatMap_cons, List.cons_append]
  rw [Term.tokens, hrest, rowTokens]

theorem Call.restTokens_eq (rest : List (Terminal .comma × Expr)) :
    Call.restTokens rest = rest.flatMap fun x => x.1.1 :: x.2.tokens := by
  induction rest with
  | nil => rfl
  | cons x rest ih => rw [Call.restTokens, ih, List.flatMap_cons, List.cons_append]

theorem Call.tokens_some (name : Terminal .identifier) (leftParen : Terminal .leftParen)
    (arguments : Expr × List (Terminal .comma × Expr)) (rightParen : Terminal .rightParen) :
    (Call.intro name leftParen (some arguments) rightParen).tokens =
      name.1 :: leftParen.1 :: (rowTokens Expr.tokens arguments ++ [rightParen.1]) := by
  obtain ⟨first, rest⟩ := arguments
  rw [Call.tokens, Call.restTokens_eq, rowTokens, List.append_assoc]

/-- A call starts with a name and a parenthesis. -/
theorem Call.exists_tokens (c : Call) : ∃ (name : Terminal .identifier)
    (leftParen : Terminal .leftParen) (rest : List Token),
      c.tokens = name.1 :: leftParen.1 :: rest := by
  rcases c with ⟨name, leftParen, arguments, rightParen⟩
  cases arguments with
  | none => exact ⟨name, leftParen, _, rfl⟩
  | some arguments => exact ⟨name, leftParen, _, Call.tokens_some name leftParen _ _⟩

/-- An operation stands where its left side does. -/
def operation (left : Node) (op : Operator) (right : Node) : Node :=
  .binary op left right left.position

mutual

/-- The tree of an expression. -/
def Expr.node : Expr → Node
  | .simple s => s.node
  | .comparison left op right => operation left.node (operator op.1) right.node

/-- The tree of a row of terms, which are joined from left to right. -/
def Simple.node : Simple → Node
  | .row first rest => Simple.join first.node rest

/-- Joins the terms behind the first to the tree of those in front of them. -/
def Simple.join : Node → List (OneOf additives × Term) → Node
  | left, [] => left
  | left, (op, t) :: rest => Simple.join (operation left (operator op.1) t.node) rest

/-- The tree of a row of factors, which are joined from left to right. -/
def Term.node : Term → Node
  | .row first rest => Term.join first.node rest

/-- Joins the factors behind the first to the tree of those in front of them. -/
def Term.join : Node → List (OneOf multiplicatives × Factor) → Node
  | left, [] => left
  | left, (op, f) :: rest => Term.join (operation left (operator op.1) f.node) rest

/-- The tree of a factor. -/
def Factor.node : Factor → Node
  | .number t => .literal t.1.value t.1.position
  | .name t => .name t.1.content none t.1.position
  | .call c => c.node
  | .group _ e _ => e.node

/-- The tree of a call. -/
def Call.node : Call → Node
  | .intro name _ none _ => .call name.1.content [] none name.1.position
  | .intro name _ (some (first, rest)) _ =>
    .call name.1.content (first.node :: Call.restNodes rest) none name.1.position

/-- The trees of the arguments behind the first. -/
def Call.restNodes : List (Terminal .comma × Expr) → List Node
  | [] => []
  | (_, e) :: rest => e.node :: Call.restNodes rest

end

/-- Properties that every form of an expression inherits from its parts. -/
structure Expr.Inherited (E : Expr → Prop) (S : Simple → Prop) (T : Term → Prop) (F : Factor → Prop)
    (C : Call → Prop) : Prop where
  simple : ∀ s, S s → E (.simple s)
  comparison : ∀ left op right, S left → S right → E (.comparison left op right)
  terms : ∀ first rest, T first → (∀ x ∈ rest, T x.2) → S (.row first rest)
  factors : ∀ first rest, F first → (∀ x ∈ rest, F x.2) → T (.row first rest)
  number : ∀ t, F (.number t)
  name : ∀ t, F (.name t)
  call : ∀ c, C c → F (.call c)
  group : ∀ leftParen e rightParen, E e → F (.group leftParen e rightParen)
  noArguments : ∀ name leftParen rightParen, C (.intro name leftParen none rightParen)
  arguments : ∀ name leftParen first rest rightParen, E first → (∀ x ∈ rest, E x.2) →
    C (.intro name leftParen (some (first, rest)) rightParen)

namespace Expr.Inherited

variable {E : Expr → Prop} {S : Simple → Prop} {T : Term → Prop} {F : Factor → Prop}
  {C : Call → Prop}

mutual

theorem expr (h : Expr.Inherited E S T F C) : ∀ e, E e
  | .simple s => h.simple s (h.sum s)
  | .comparison left op right => h.comparison left op right (h.sum left) (h.sum right)

theorem sum (h : Expr.Inherited E S T F C) : ∀ s, S s
  | .row first rest => h.terms first rest (h.product first) (h.restTerms rest)

theorem restTerms (h : Expr.Inherited E S T F C) :
    ∀ (rest : List (OneOf additives × Term)), ∀ x ∈ rest, T x.2
  | [] => List.forall_mem_nil _
  | (_, t) :: rest => List.forall_mem_cons.2 ⟨h.product t, h.restTerms rest⟩

theorem product (h : Expr.Inherited E S T F C) : ∀ t, T t
  | .row first rest => h.factors first rest (h.factor first) (h.restFactors rest)

theorem restFactors (h : Expr.Inherited E S T F C) :
    ∀ (rest : List (OneOf multiplicatives × Factor)), ∀ x ∈ rest, F x.2
  | [] => List.forall_mem_nil _
  | (_, f) :: rest => List.forall_mem_cons.2 ⟨h.factor f, h.restFactors rest⟩

theorem factor (h : Expr.Inherited E S T F C) : ∀ f, F f
  | .number t => h.number t
  | .name t => h.name t
  | .call c => h.call c (h.invocation c)
  | .group leftParen e rightParen => h.group leftParen e rightParen (h.expr e)

theorem invocation (h : Expr.Inherited E S T F C) : ∀ c, C c
  | .intro name leftParen none rightParen => h.noArguments name leftParen rightParen
  | .intro name leftParen (some (first, rest)) rightParen =>
    h.arguments name leftParen first rest rightParen (h.expr first) (h.restArguments rest)

theorem restArguments (h : Expr.Inherited E S T F C) :
    ∀ (rest : List (Terminal .comma × Expr)), ∀ x ∈ rest, E x.2
  | [] => List.forall_mem_nil _
  | (_, e) :: rest => List.forall_mem_cons.2 ⟨h.expr e, h.restArguments rest⟩

end

end Expr.Inherited

/-! ### Statements -/

/-- A condition: `"(" expr ")"`. -/
structure Condition where
  leftParen : Terminal .leftParen
  value : Expr
  rightParen : Terminal .rightParen

/-- The tokens of a condition. -/
def Condition.tokens (c : Condition) : List Token :=
  c.leftParen.1 :: (c.value.tokens ++ [c.rightParen.1])

mutual

/-- A statement: `name "=" expr ";" | call ";" | "return" [expr] ";"
| "if" cond block ["else" block] | "while" cond block`. -/
inductive Stmt where
  | assign (name : Terminal .identifier) (sign : Terminal .assign) (value : Expr)
      (semicolon : Terminal .semicolon)
  | call (c : Call) (semicolon : Terminal .semicolon)
  | exit (word : Terminal .returnWord) (value : Option Expr) (semicolon : Terminal .semicolon)
  | branch (word : Terminal .ifWord) (condition : Condition) (thens : Block)
      (elses : Option (Terminal .elseWord × Block))
  | loop (word : Terminal .whileWord) (condition : Condition) (body : Block)

/-- A block: `"{" {stmt} "}"`. -/
inductive Block where
  | intro (leftBrace : Terminal .leftBrace) (statements : List Stmt)
      (rightBrace : Terminal .rightBrace)

end

mutual

/-- The tokens of a statement. -/
def Stmt.tokens : Stmt → List Token
  | .assign name sign value semicolon => name.1 :: sign.1 :: (value.tokens ++ [semicolon.1])
  | .call c semicolon => c.tokens ++ [semicolon.1]
  | .exit word none semicolon => [word.1, semicolon.1]
  | .exit word (some value) semicolon => word.1 :: (value.tokens ++ [semicolon.1])
  | .branch word condition thens none => word.1 :: (condition.tokens ++ thens.tokens)
  | .branch word condition thens (some (elseWord, elses)) =>
    word.1 :: (condition.tokens ++ (thens.tokens ++ elseWord.1 :: elses.tokens))
  | .loop word condition body => word.1 :: (condition.tokens ++ body.tokens)

/-- The tokens of a block. -/
def Block.tokens : Block → List Token
  | .intro leftBrace statements rightBrace =>
    leftBrace.1 :: (Stmt.allTokens statements ++ [rightBrace.1])

/-- The tokens of statements one after the other. -/
def Stmt.allTokens : List Stmt → List Token
  | [] => []
  | s :: rest => s.tokens ++ Stmt.allTokens rest

end

theorem Stmt.allTokens_eq (statements : List Stmt) :
    Stmt.allTokens statements = statements.flatMap Stmt.tokens := by
  induction statements with
  | nil => rfl
  | cons s rest ih => rw [Stmt.allTokens, ih, List.flatMap_cons]

/-- The kind of the first token of a statement. -/
def Stmt.start : Stmt → TokenKind
  | .assign _ _ _ _ | .call _ _ => .identifier
  | .exit _ _ _ => .returnWord
  | .branch _ _ _ _ => .ifWord
  | .loop _ _ _ => .whileWord

theorem Stmt.exists_tokens (s : Stmt) : ∃ t rest, s.tokens = t :: rest ∧ t.kind = s.start := by
  cases s with
  | assign name sign value semicolon => exact ⟨name.1, _, rfl, name.2⟩
  | call c semicolon =>
    obtain ⟨name, leftParen, rest, hc⟩ := c.exists_tokens
    exact ⟨name.1, _, by rw [Stmt.tokens, hc, List.cons_append], name.2⟩
  | exit word value semicolon => cases value <;> exact ⟨word.1, _, rfl, word.2⟩
  | branch word condition thens elses =>
    cases elses <;> exact ⟨word.1, _, rfl, word.2⟩
  | loop word condition body => exact ⟨word.1, _, rfl, word.2⟩

mutual

/-- The tree of a statement.  An `if` without `else` has an empty second block, which stands where
the statement does. -/
def Stmt.node : Stmt → Node
  | .assign name _ value _ =>
    .binary .assign (.name name.1.content none name.1.position) value.node name.1.position
  | .call c _ => c.node
  | .exit word none _ => .exit .absent word.1.position
  | .exit word (some value) _ => .exit value.node word.1.position
  | .branch word condition thens none =>
    .branch condition.value.node thens.node (.block [] word.1.position) word.1.position
  | .branch word condition thens (some (elseWord, elses)) =>
    .branch condition.value.node thens.node (elses.elseNode elseWord.1.position) word.1.position
  | .loop word condition body => .loop condition.value.node body.node word.1.position

/-- The tree of a block. -/
def Block.node : Block → Node
  | .intro leftBrace statements _ => .block (Stmt.nodes statements) leftBrace.1.position

/-- The tree of a block behind `else`, which stands where the keyword does if it is empty. -/
def Block.elseNode : Block → Position → Node
  | .intro _ [] _, place => .block [] place
  | .intro leftBrace (s :: rest) _, _ => .block (s.node :: Stmt.nodes rest) leftBrace.1.position

/-- The trees of statements one after the other. -/
def Stmt.nodes : List Stmt → List Node
  | [] => []
  | s :: rest => s.node :: Stmt.nodes rest

end

theorem Stmt.nodes_eq (statements : List Stmt) :
    Stmt.nodes statements = statements.map Stmt.node := by
  induction statements with
  | nil => rfl
  | cons s rest ih => rw [Stmt.nodes, ih, List.map_cons]

/-- Properties that every form of a statement inherits from the blocks in it, and every block from
its statements. -/
structure Stmt.Inherited (P : Stmt → Prop) (B : Block → Prop) : Prop where
  assign : ∀ name sign value semicolon, P (.assign name sign value semicolon)
  call : ∀ c semicolon, P (.call c semicolon)
  exit : ∀ word value semicolon, P (.exit word value semicolon)
  branch : ∀ word condition thens, B thens → P (.branch word condition thens none)
  branchElse : ∀ word condition thens elseWord elses, B thens → B elses →
    P (.branch word condition thens (some (elseWord, elses)))
  loop : ∀ word condition body, B body → P (.loop word condition body)
  block : ∀ leftBrace statements rightBrace, (∀ s ∈ statements, P s) →
    B (.intro leftBrace statements rightBrace)

namespace Stmt.Inherited

variable {P : Stmt → Prop} {B : Block → Prop}

mutual

theorem stmt (h : Stmt.Inherited P B) : ∀ s, P s
  | .assign name sign value semicolon => h.assign name sign value semicolon
  | .call c semicolon => h.call c semicolon
  | .exit word value semicolon => h.exit word value semicolon
  | .branch word condition thens none => h.branch word condition thens (h.blocks thens)
  | .branch word condition thens (some (elseWord, elses)) =>
    h.branchElse word condition thens elseWord elses (h.blocks thens) (h.blocks elses)
  | .loop word condition body => h.loop word condition body (h.blocks body)

theorem blocks (h : Stmt.Inherited P B) : ∀ b, B b
  | .intro leftBrace statements rightBrace =>
    h.block leftBrace statements rightBrace (h.statements statements)

theorem statements (h : Stmt.Inherited P B) : ∀ (ss : List Stmt), ∀ s ∈ ss, P s
  | [] => List.forall_mem_nil _
  | s :: rest => List.forall_mem_cons.2 ⟨h.stmt s, h.statements rest⟩

end

end Stmt.Inherited

/-! ### Classes -/

/-- A constant: `"final" "int" name "=" expr ";"`. -/
structure Constant where
  finalWord : Terminal .finalWord
  intWord : Terminal .intWord
  name : Terminal .identifier
  sign : Terminal .assign
  value : Expr
  semicolon : Terminal .semicolon

/-- A variable: `"int" name ";"`. -/
structure Variable where
  intWord : Terminal .intWord
  name : Terminal .identifier
  semicolon : Terminal .semicolon

/-- A parameter: `"int" name`. -/
structure Param where
  intWord : Terminal .intWord
  name : Terminal .identifier

/-- A method:
`"public" ("void"|"int") name "(" [param {"," param}] ")" "{" {variable} {stmt} "}"`. -/
structure Method where
  publicWord : Terminal .publicWord
  type : OneOf [.voidWord, .intWord]
  name : Terminal .identifier
  leftParen : Terminal .leftParen
  params : Option (Param × List (Terminal .comma × Param))
  rightParen : Terminal .rightParen
  leftBrace : Terminal .leftBrace
  locals : List Variable
  statements : List Stmt
  rightBrace : Terminal .rightBrace

/-- A class: `"class" name "{" {constant} {variable} {method} "}"`. -/
structure Class where
  classWord : Terminal .classWord
  name : Terminal .identifier
  leftBrace : Terminal .leftBrace
  constants : List Constant
  fields : List Variable
  methods : List Method
  rightBrace : Terminal .rightBrace

/-- The tokens of a constant. -/
def Constant.tokens (c : Constant) : List Token :=
  c.finalWord.1 :: c.intWord.1 :: c.name.1 :: c.sign.1 :: (c.value.tokens ++ [c.semicolon.1])

/-- The tokens of a variable. -/
def Variable.tokens (v : Variable) : List Token :=
  [v.intWord.1, v.name.1, v.semicolon.1]

/-- The tokens of a parameter. -/
def Param.tokens (x : Param) : List Token :=
  [x.intWord.1, x.name.1]

/-- The parameters between two parentheses. -/
def Param.listOf : Option (Param × List (Terminal .comma × Param)) → List Param
  | none => []
  | some (first, rest) => first :: rest.map Prod.snd

/-- The parameters of a method. -/
def Method.paramList (m : Method) : List Param :=
  Param.listOf m.params

/-- The tokens of the parameters of a method. -/
def Method.paramTokens : Option (Param × List (Terminal .comma × Param)) → List Token
  | none => []
  | some row => rowTokens Param.tokens row

/-- The tokens of a method. -/
def Method.tokens (m : Method) : List Token :=
  m.publicWord.1 :: m.type.1 :: m.name.1 :: m.leftParen.1 ::
    (Method.paramTokens m.params ++ m.rightParen.1 :: m.leftBrace.1 ::
      (m.locals.flatMap Variable.tokens ++ (Stmt.allTokens m.statements ++ [m.rightBrace.1])))

/-- The tokens of a class. -/
def Class.tokens (c : Class) : List Token :=
  c.classWord.1 :: c.name.1 :: c.leftBrace.1 ::
    (c.constants.flatMap Constant.tokens ++ (c.fields.flatMap Variable.tokens ++
      (c.methods.flatMap Method.tokens ++ [c.rightBrace.1])))

end Grammar

end Classwright
