import Classwright.Program.Printer
import Classwright.Proofs.Parser.Trees
import Classwright.Proofs.Printer.Lexemes
import Classwright.Proofs.Program.WellFormed

/-!
# The lexemes of printed programs

Which lexemes the text of a tree or a program is made of.  The text of a built program is laid out
with the lexemes of the program (`Program.laid_print`).
-/

namespace Classwright

open TokenKind (leftBrace rightBrace leftParen rightParen comma semicolon)

/-! ### Expressions -/

namespace Node

mutual

/-- The lexemes of an expression; `nested` asks for parentheses around an operation. -/
def exprLexemes : (nested : Bool) → Node → List Lexeme
  | _, literal v _ => [.number v.toInt.toNat]
  | _, name id _ _ => [.identifier id]
  | _, call callee arguments _ _ =>
    .identifier callee :: leftParen.lexeme ::
      (argumentLexemes arguments ++ [rightParen.lexeme])
  | true, binary op left right _ =>
    leftParen.lexeme :: (exprLexemes true left ++ op.token.lexeme ::
      (exprLexemes true right ++ [rightParen.lexeme]))
  | false, binary op left right _ =>
    exprLexemes true left ++ op.token.lexeme :: exprLexemes true right
  | _, _ => []

/-- The lexemes of the arguments of a call. -/
def argumentLexemes : List Node → List Lexeme
  | [] => []
  | [e] => exprLexemes false e
  | e :: others => exprLexemes false e ++ comma.lexeme :: argumentLexemes others

end

mutual

theorem exprOnto_append (nested : Bool) (node : Node) (s t : Text) :
    exprOnto nested node (s ++ t) = exprOnto nested node s ++ t := by
  cases node with
  | literal | name => cases nested <;> simp [exprOnto]
  | call callee arguments link place =>
    cases nested <;>
    · rw [exprOnto, exprOnto]
      simp only [List.append_assoc, ← argumentsOnto_append arguments]
  | binary op left right place =>
    cases nested <;>
    · simp only [exprOnto, List.append_assoc, ← exprOnto_append true left,
        ← exprOnto_append true right]
  | absent | exit | branch | loop | block => cases nested <;> rfl

theorem argumentsOnto_append (nodes : List Node) (s t : Text) :
    argumentsOnto nodes (s ++ t) = argumentsOnto nodes s ++ t := by
  match nodes with
  | [] => rfl
  | [e] => exact exprOnto_append false e s t
  | e :: e' :: others =>
    have hothers := argumentsOnto_append (e' :: others) s t
    simp only [argumentsOnto] at hothers ⊢
    rw [hothers, ← List.append_assoc, exprOnto_append false e]

end

end Node

theorem Text.stops_cons {b : UInt8} (hb : Character.isWordPart b = false) (text : Text) :
    Text.Stops (b :: text) := by
  intro c hc
  obtain rfl := Option.some.inj hc
  exact hb

namespace Laid

variable {rest : Text} {ls : List Lexeme}

/-- A number that is not negative is printed as its digits. -/
theorem literal {v : Int32} (hv : 0 ≤ v) (nested : Bool) (hstop : rest.Stops)
    (h : Laid rest ls) :
    Laid (literalText v nested ++ rest) (.number v.toInt.toNat :: ls) := by
  have hnonneg : 0 ≤ v.toInt := by simpa [Int32.le_iff_toInt_le] using hv
  have hlt := v.toInt_lt
  obtain ⟨n, hn⟩ := Int.eq_ofNat_of_zero_le hnonneg
  have htext : literalText v nested = Text.ofString (toString n) := by
    rw [literalText, if_pos hv, hn]
    rfl
  rw [htext, hn, Int.toNat_natCast]
  refine number ?_ hstop h
  rw [Scanner.maxNumber]
  omega

theorem symbol (op : Operator) (h : Laid rest ls) :
    Laid (Text.ofString s!" {op.symbol} " ++ rest) (op.token.lexeme :: ls) := by
  have htext : Text.ofString s!" {op.symbol} " = 0x20 :: (op.token.spelling ++ [0x20]) := by
    cases op <;> rfl
  rw [htext, List.cons_append, List.append_assoc]
  exact .blank rfl (operator op h)

theorem openParen (h : Laid rest ls) :
    Laid (Text.ofString "(" ++ rest) (leftParen.lexeme :: ls) :=
  mark (show leftParen ∈ marks by decide) h

theorem closeParen (h : Laid rest ls) :
    Laid (Text.ofString ")" ++ rest) (rightParen.lexeme :: ls) :=
  mark (show rightParen ∈ marks by decide) h

theorem separator (h : Laid rest ls) :
    Laid (Text.ofString ", " ++ rest) (comma.lexeme :: ls) :=
  mark (show comma ∈ marks by decide) (.blank (show Character.isBlank 0x20 = true by rfl) h)

theorem arguments {nodes : List Node}
    (he : ∀ e ∈ nodes, ∀ (nested : Bool) (rest : Text) (ls : List Lexeme), rest.Stops →
      Laid rest ls → Laid (e.exprOnto nested rest) (e.exprLexemes nested ++ ls))
    (hstop : rest.Stops) (h : Laid rest ls) :
    Laid (Node.argumentsOnto nodes rest) (Node.argumentLexemes nodes ++ ls) := by
  induction nodes with
  | nil => exact h
  | cons e others ih =>
    rw [List.forall_mem_cons] at he
    cases others with
    | nil => exact he.1 false rest ls hstop h
    | cons e' others =>
      rw [Node.argumentsOnto, Node.argumentLexemes, List.append_assoc, List.cons_append]
      · exact he.1 false _ _ (Text.stops_cons (by decide) _) (separator (ih he.2))
      · simp
      · simp

/-- An operation is printed with its operator between the operands, in parentheses if it is
nested. -/
theorem operation (op : Operator) (place : Position) {left right : Node}
    {lefts rights : List Lexeme}
    (hl : ∀ (rest : Text) (ls : List Lexeme), rest.Stops → Laid rest ls →
      Laid (left.exprOnto true rest) (lefts ++ ls))
    (hr : ∀ (rest : Text) (ls : List Lexeme), rest.Stops → Laid rest ls →
      Laid (right.exprOnto true rest) (rights ++ ls))
    (nested : Bool) (hstop : rest.Stops) (h : Laid rest ls) :
    Laid ((Node.binary op left right place).exprOnto nested rest)
      ((if nested then leftParen.lexeme :: (lefts ++ op.token.lexeme ::
        (rights ++ [rightParen.lexeme])) else lefts ++ op.token.lexeme :: rights) ++ ls) := by
  have hsymbol (text : Text) : Text.Stops (Text.ofString s!" {op.symbol} " ++ text) := by
    cases op <;> exact Text.stops_cons (by decide) _
  cases nested with
  | false =>
    simp only [Node.exprOnto, Bool.false_eq_true, if_false, List.append_assoc, List.cons_append]
    exact hl _ _ (hsymbol _) (symbol op (hr _ _ hstop h))
  | true =>
    simp only [Node.exprOnto, if_true, List.append_assoc, List.cons_append, List.nil_append]
    exact openParen (hl _ _ (hsymbol _) (symbol op
      (hr _ _ (Text.stops_cons (by decide) _) (closeParen h))))

/-- The text of an expression is laid out with its lexemes. -/
theorem expression {e : Node} (he : e.IsExpression) (nested : Bool) (rest : Text)
    (ls : List Lexeme) (hstop : rest.Stops) (h : Laid rest ls) :
    Laid (e.exprOnto nested rest) (e.exprLexemes nested ++ ls) := by
  induction he generalizing nested rest ls with
  | literal hv => cases nested <;> exact literal hv _ hstop h
  | name hid => cases nested <;> exact identifier hid hstop h
  | call hcallee _ ih =>
    have hclose : Text.Stops (Text.ofString ")" ++ rest) := Text.stops_cons (by decide) _
    have hopen (text : Text) : Text.Stops (Text.ofString "(" ++ text) :=
      Text.stops_cons (by decide) _
    have hcall := identifier hcallee (hopen _) (openParen (arguments ih hclose (closeParen h)))
    cases nested <;>
    · simpa only [Node.exprOnto, Node.exprLexemes, List.cons_append, List.append_assoc,
        List.nil_append] using hcall
  | @binary op left right place _ _ _ ihl ihr =>
    have hoperation := operation op place (ihl true) (ihr true) nested hstop h
    cases nested <;> exact hoperation

end Laid

/-! ### Statements -/

namespace Node

mutual

/-- The lexemes of a statement. -/
def statementLexemes : Node → List Lexeme
  | binary _ left right _ =>
    exprLexemes false left ++ Operator.assign.token.lexeme ::
      (exprLexemes false right ++ [semicolon.lexeme])
  | call callee arguments link p =>
    exprLexemes false (call callee arguments link p) ++ [semicolon.lexeme]
  | exit absent _ => [TokenKind.returnWord.lexeme, semicolon.lexeme]
  | exit value _ => TokenKind.returnWord.lexeme :: (exprLexemes false value ++ [semicolon.lexeme])
  | branch condition thenBlock elseBlock _ =>
    TokenKind.ifWord.lexeme :: leftParen.lexeme :: (exprLexemes false condition ++
      rightParen.lexeme :: leftBrace.lexeme :: (blockLexemes thenBlock ++
        rightBrace.lexeme :: TokenKind.elseWord.lexeme :: leftBrace.lexeme ::
          (blockLexemes elseBlock ++ [rightBrace.lexeme])))
  | loop condition body _ =>
    TokenKind.whileWord.lexeme :: leftParen.lexeme :: (exprLexemes false condition ++
      rightParen.lexeme :: leftBrace.lexeme :: (blockLexemes body ++ [rightBrace.lexeme]))
  | _ => []

/-- The lexemes inside a block. -/
def blockLexemes : Node → List Lexeme
  | block statements _ => statementsLexemes statements
  | _ => []

/-- The lexemes of several statements. -/
def statementsLexemes : List Node → List Lexeme
  | [] => []
  | s :: others => statementLexemes s ++ statementsLexemes others

end

theorem lineOnto_append (depth : Nat) (text s t : Text) :
    lineOnto depth text (s ++ t) = lineOnto depth text s ++ t := by
  simp [lineOnto]

mutual

theorem statementOnto_append (depth : Nat) (node : Node) (s t : Text) :
    statementOnto depth node (s ++ t) = statementOnto depth node s ++ t := by
  cases node with
  | absent | literal | name => rfl
  | binary | call => exact lineOnto_append _ _ s t
  | exit value place => cases value <;> exact lineOnto_append _ _ s t
  | branch condition thenBlock elseBlock place =>
    simp only [statementOnto, lineOnto_append, blockOnto_append (depth + 1) elseBlock,
      blockOnto_append (depth + 1) thenBlock]
  | loop condition body place =>
    simp only [statementOnto, lineOnto_append, blockOnto_append (depth + 1) body]
  | block statements place => exact statementsOnto_append depth statements s t

theorem blockOnto_append (depth : Nat) (node : Node) (s t : Text) :
    blockOnto depth node (s ++ t) = blockOnto depth node s ++ t := by
  cases node with
  | block statements place => exact statementsOnto_append depth statements s t
  | _ => rfl

theorem statementsOnto_append (depth : Nat) (nodes : List Node) (s t : Text) :
    statementsOnto depth nodes (s ++ t) = statementsOnto depth nodes s ++ t := by
  cases nodes with
  | nil => rfl
  | cons node others =>
    rw [statementsOnto, statementsOnto_append depth others, statementOnto_append depth node]
    rfl

end

theorem statementLexemes_answer {value : Node} (h : value.IsExpression) (place : Position) :
    statementLexemes (.exit value place) =
      TokenKind.returnWord.lexeme :: (exprLexemes false value ++ [semicolon.lexeme]) := by
  cases h <;> rfl

theorem statementOnto_answer {value : Node} (h : value.IsExpression) (depth : Nat)
    (place : Position) (rest : Text) : statementOnto depth (.exit value place) rest =
      lineOnto depth (Text.ofString "return " ++ exprOnto false value (Text.ofString ";")) rest := by
  cases h <;> rfl

end Node

namespace Laid

variable {rest : Text} {ls : List Lexeme}

theorem line {depth : Nat} {t : Text} (h : Laid (t ++ 0x0A :: rest) ls) :
    Laid (Node.lineOnto depth t rest) ls := by
  rw [Node.lineOnto]
  induction depth with
  | zero => exact h
  | succ depth ih =>
    rw [List.replicate_succ, List.cons_append]
    exact .blank rfl ih

theorem lineEnd (h : Laid rest ls) : Laid (Text.ofString ";" ++ 0x0A :: rest)
    (semicolon.lexeme :: ls) :=
  mark (show semicolon ∈ marks by decide) (.blank (show Character.isBlank 0x0A = true by rfl) h)

theorem closeBrace (h : Laid rest ls) : Laid (Text.ofString "\x7d" ++ 0x0A :: rest)
    (rightBrace.lexeme :: ls) :=
  mark (show rightBrace ∈ marks by decide) (.blank (show Character.isBlank 0x0A = true by rfl) h)

theorem openBlock (h : Laid rest ls) : Laid (Text.ofString ") \x7b" ++ 0x0A :: rest)
    (rightParen.lexeme :: leftBrace.lexeme :: ls) :=
  mark (show rightParen ∈ marks by decide) (.blank (show Character.isBlank 0x20 = true by rfl)
    (mark (show leftBrace ∈ marks by decide)
      (.blank (show Character.isBlank 0x0A = true by rfl) h)))

theorem elseBlock (h : Laid rest ls) : Laid (Text.ofString "\x7d else \x7b" ++ 0x0A :: rest)
    (rightBrace.lexeme :: TokenKind.elseWord.lexeme :: leftBrace.lexeme :: ls) :=
  mark (show rightBrace ∈ marks by decide) (.blank (show Character.isBlank 0x20 = true by rfl)
    (keyword (show TokenKind.elseWord ∈ TokenKind.keywords by decide)
      (Text.stops_cons (show Character.isWordPart 0x20 = false by decide) _)
      (.blank (show Character.isBlank 0x20 = true by rfl) (mark (show leftBrace ∈ marks by decide)
        (.blank (show Character.isBlank 0x0A = true by rfl) h)))))

/-- A keyword with a blank behind it. -/
theorem spaced {k : TokenKind} (hk : k ∈ TokenKind.keywords) (h : Laid rest ls) :
    Laid (k.spelling ++ 0x20 :: rest) (k.lexeme :: ls) :=
  keyword hk (Text.stops_cons (by decide) rest) (.blank rfl h)

/-- The head of a statement with a condition, around which its block stands. -/
theorem condition {k : TokenKind} (hk : k ∈ TokenKind.keywords) {e : Node} (he : e.IsExpression)
    {depth : Nat} (h : Laid rest ls) :
    Laid (Node.lineOnto depth (k.spelling ++ 0x20 :: (Text.ofString "(" ++
        e.exprOnto false (Text.ofString ") \x7b"))) rest)
      (k.lexeme :: leftParen.lexeme :: (e.exprLexemes false ++
        rightParen.lexeme :: leftBrace.lexeme :: ls)) := by
  apply line
  rw [List.append_assoc, List.cons_append, List.append_assoc, ← Node.exprOnto_append]
  exact spaced hk (openParen (expression he false _ _ (Text.stops_cons (by decide) _)
    (openBlock h)))

theorem statements {nodes : List Node} {depth : Nat}
    (hs : ∀ s ∈ nodes, ∀ (depth : Nat) (rest : Text) (ls : List Lexeme), Laid rest ls →
      Laid (s.statementOnto depth rest) (s.statementLexemes ++ ls)) (h : Laid rest ls) :
    Laid (Node.statementsOnto depth nodes rest) (Node.statementsLexemes nodes ++ ls) := by
  induction nodes with
  | nil => exact h
  | cons s others ih =>
    rw [List.forall_mem_cons] at hs
    rw [Node.statementsOnto, Node.statementsLexemes, List.append_assoc]
    exact hs.1 depth _ _ (ih hs.2)

/-- The lines of a statement are laid out with its lexemes. -/
theorem statement {s : Node} (hs : s.IsStatement) (depth : Nat) (rest : Text) (ls : List Lexeme)
    (h : Laid rest ls) : Laid (s.statementOnto depth rest) (s.statementLexemes ++ ls) := by
  have hsemicolon (text : Text) : Text.Stops (Text.ofString ";" ++ text) :=
    Text.stops_cons (by decide) _
  induction hs generalizing depth rest ls with
  | @assign id value spot place hid hv =>
    rw [Node.statementOnto, Node.statementLexemes]
    apply line
    simp only [← Node.exprOnto_append, List.append_assoc, List.cons_append, List.nil_append]
    exact expression (.name hid) false _ _ (Text.stops_cons (by decide) _)
      (symbol .assign (expression hv false _ _ (hsemicolon _) (lineEnd h)))
  | call hcallee ha =>
    rw [Node.statementOnto, Node.statementLexemes]
    apply line
    simp only [← Node.exprOnto_append, List.append_assoc, List.cons_append, List.nil_append]
    exact expression (.call hcallee ha) false _ _ (hsemicolon _) (lineEnd h)
  | leave =>
    exact line (keyword (show TokenKind.returnWord ∈ TokenKind.keywords by decide) (hsemicolon _)
      (lineEnd h))
  | @answer value place hv =>
    rw [Node.statementOnto_answer hv, Node.statementLexemes_answer hv]
    apply line
    simp only [← Node.exprOnto_append, List.append_assoc, List.cons_append, List.nil_append]
    exact spaced (show TokenKind.returnWord ∈ TokenKind.keywords by decide)
      (expression hv false _ _ (hsemicolon _) (lineEnd h))
  | branch hc _ _ iht ihe =>
    simp only [Node.statementOnto, Node.statementLexemes, Node.blockOnto, Node.blockLexemes,
      List.append_assoc, List.cons_append, List.nil_append]
    exact condition (show TokenKind.ifWord ∈ TokenKind.keywords by decide) hc
      (statements iht (line (elseBlock (statements ihe (line (closeBrace h))))))
  | loop hc _ ihb =>
    simp only [Node.statementOnto, Node.statementLexemes, Node.blockOnto, Node.blockLexemes,
      List.append_assoc, List.cons_append, List.nil_append]
    exact condition (show TokenKind.whileWord ∈ TokenKind.keywords by decide) hc
      (statements ihb (line (closeBrace h)))

theorem block {b : Node} (hb : b.IsBlock) {depth : Nat} (h : Laid rest ls) :
    Laid (b.blockOnto depth rest) (b.blockLexemes ++ ls) := by
  cases hb with
  | intro hs => exact statements (fun s hmem => statement (hs s hmem)) h

end Laid

/-! ### Programs -/

/-- The lexemes of the value of a constant. -/
def valueLexemes (v : Int32) : List Lexeme :=
  if 0 ≤ v then [.number v.toInt.toNat]
  else if v = Int32.minValue then
    [.number 0, TokenKind.minus.lexeme, .number 2147483647, TokenKind.minus.lexeme, .number 1]
  else
    [.number 0, TokenKind.minus.lexeme, .number (-v.toInt).toNat]

/-- The lexemes of the declaration of a variable. -/
def variableLexemes (name : Text) : List Lexeme :=
  [TokenKind.intWord.lexeme, .identifier name, semicolon.lexeme]

/-- The lexemes of parameters with given names. -/
def paramLexemes : List Text → List Lexeme
  | [] => []
  | [name] => [TokenKind.intWord.lexeme, .identifier name]
  | name :: others =>
    TokenKind.intWord.lexeme :: .identifier name :: comma.lexeme :: paramLexemes others

/-- The keyword of a type. -/
def ValueType.token : ValueType → TokenKind
  | void => .voidWord
  | int => .intWord

/-- The lexemes of a constant or variable of the class. -/
def Declaration.fieldLexemes (d : Declaration) : List Lexeme :=
  match d.kind with
  | .constant =>
    TokenKind.finalWord.lexeme :: TokenKind.intWord.lexeme :: .identifier d.name ::
      Operator.assign.token.lexeme :: (valueLexemes d.value ++ [semicolon.lexeme])
  | .var => variableLexemes d.name
  | _ => []

namespace Program

/-- The names of the parameters of a procedure. -/
def paramNames (p : Program) (d : Declaration) : List Text :=
  d.params.map fun id => (id.map p.nameOf).getD []

/-- The lexemes of the head of a procedure. -/
def headLexemes (p : Program) (d : Declaration) : List Lexeme :=
  TokenKind.publicWord.lexeme :: d.type.token.lexeme :: .identifier d.name :: leftParen.lexeme ::
    (paramLexemes (p.paramNames d) ++ [rightParen.lexeme, leftBrace.lexeme])

/-- The lexemes of a procedure. -/
def procedureLexemes (p : Program) (d : Declaration) : List Lexeme :=
  p.headLexemes d ++ ((p.localVariables d).flatMap (fun id => variableLexemes (p.nameOf id)) ++
    (d.body.blockLexemes ++ [rightBrace.lexeme]))

/-- The lexemes of the declarations of the class. -/
def memberLexemes (p : Program) : List Lexeme :=
  (p.members.filterMap p.decl?).flatMap Declaration.fieldLexemes ++
    (p.procedures.filterMap p.decl?).flatMap p.procedureLexemes

/-- The lexemes of a program. -/
def lexemes (p : Program) : List Lexeme :=
  TokenKind.classWord.lexeme :: .identifier p.name :: leftBrace.lexeme ::
    (p.memberLexemes ++ [rightBrace.lexeme])

end Program

namespace Laid

variable {rest : Text} {ls : List Lexeme}

/-- The value of a constant is printed with its lexemes. -/
theorem value (v : Int32) (hstop : rest.Stops) (h : Laid rest ls) :
    Laid (literalText v false ++ rest) (valueLexemes v ++ ls) := by
  have hblank (text : Text) : Text.Stops (0x20 :: text) := Text.stops_cons (by decide) text
  by_cases hv : 0 ≤ v
  · rw [valueLexemes, if_pos hv]
    exact literal hv false hstop h
  · rw [valueLexemes, if_neg hv]
    by_cases hmin : v = Int32.minValue
    · have htext : literalText v false = Text.ofString (toString 0) ++ 0x20 ::
          (Operator.subtract.token.spelling ++ 0x20 :: (Text.ofString (toString 2147483647) ++
            0x20 :: (Operator.subtract.token.spelling ++ 0x20 :: Text.ofString (toString 1)))) := by
        subst hmin
        decide
      rw [if_pos hmin, htext]
      simp only [List.append_assoc, List.cons_append]
      exact number (by decide) (hblank _) (.blank rfl (operator .subtract
        (number (by decide) (hblank _) (.blank rfl (operator .subtract
          (number (by decide) hstop h))))))
    · have hneg : v.toInt < 0 := by simpa [Int32.le_iff_toInt_le] using hv
      have hle := v.le_toInt
      have hne : v.toInt ≠ -2147483648 := fun heq => hmin (Int32.toInt_inj.1 heq)
      obtain ⟨n, hn⟩ := Int.eq_ofNat_of_zero_le (show 0 ≤ -v.toInt by omega)
      have htext : literalText v false = Text.ofString (toString 0) ++ 0x20 ::
          (Operator.subtract.token.spelling ++ 0x20 :: Text.ofString (toString n)) := by
        rw [literalText]
        simp only [if_neg hv, if_neg hmin, hn, Bool.false_eq_true, if_false]
        exact (Text.ofString_append "0 - " (toString n)).trans rfl
      rw [if_neg hmin, htext, hn, Int.toNat_natCast]
      simp only [List.append_assoc, List.cons_append]
      refine number (by decide) (hblank _) (.blank rfl (operator .subtract (number ?_ hstop h)))
      rw [Scanner.maxNumber]
      omega

theorem line_append (depth : Nat) (t rest : Text) :
    Node.line depth t ++ rest = Node.lineOnto depth t rest := by
  simp [Node.line, Node.lineOnto]

theorem semicolon_stops (text : Text) : Text.Stops (Text.ofString ";" ++ text) :=
  Text.stops_cons (by decide) _

theorem declaredVariable {name : Text} (hname : name.IsIdentifier) (depth : Nat)
    (h : Laid rest ls) :
    Laid (Node.line depth (Text.ofString "int " ++ name ++ Text.ofString ";") ++ rest)
      (variableLexemes name ++ ls) := by
  rw [line_append]
  apply line
  rw [List.append_assoc, List.append_assoc]
  exact spaced (show TokenKind.intWord ∈ TokenKind.keywords by decide)
    (identifier hname (semicolon_stops _) (lineEnd h))

/-- The line of a constant or variable of the class. -/
theorem field {d : Declaration} (hname : d.name.IsIdentifier) (h : Laid rest ls) :
    Laid (Program.fieldText d ++ rest) (d.fieldLexemes ++ ls) := by
  unfold Program.fieldText Declaration.fieldLexemes
  cases d.kind with
  | constant =>
    rw [line_append]
    apply line
    simp only [List.append_assoc, List.cons_append, List.nil_append]
    exact spaced (show TokenKind.finalWord ∈ TokenKind.keywords by decide)
      (spaced (show TokenKind.intWord ∈ TokenKind.keywords by decide)
        (identifier hname (Text.stops_cons (by decide) _) (symbol .assign
          (value d.value (semicolon_stops _) (lineEnd h)))))
  | var => exact declaredVariable hname 1 h
  | parameter | procedure => exact h

theorem params {names : List Text} (hnames : ∀ name ∈ names, name.IsIdentifier)
    (hstop : rest.Stops) (h : Laid rest ls) :
    Laid (Node.joinTexts (Text.ofString ", ") (names.map (Text.ofString "int " ++ ·)) ++ rest)
      (paramLexemes names ++ ls) := by
  induction names with
  | nil => exact h
  | cons name others ih =>
    rw [List.forall_mem_cons] at hnames
    cases others with
    | nil =>
      exact spaced (show TokenKind.intWord ∈ TokenKind.keywords by decide)
        (identifier hnames.1 hstop h)
    | cons name' others =>
      have hothers := ih hnames.2
      simp only [List.map_cons, Node.joinTexts, paramLexemes, List.append_assoc,
        List.cons_append] at hothers ⊢
      exact spaced (show TokenKind.intWord ∈ TokenKind.keywords by decide)
        (identifier hnames.1 (Text.stops_cons (by decide) _) (separator hothers))

/-- The lines of several things, each of which is laid out with its lexemes. -/
theorem flatMap {α : Type} {xs : List α} {text : α → Text} {lexemes : α → List Lexeme}
    (hx : ∀ x ∈ xs, ∀ (rest : Text) (ls : List Lexeme), Laid rest ls →
      Laid (text x ++ rest) (lexemes x ++ ls)) (h : Laid rest ls) :
    Laid (xs.flatMap text ++ rest) (xs.flatMap lexemes ++ ls) := by
  induction xs with
  | nil => exact h
  | cons x xs ih =>
    rw [List.forall_mem_cons] at hx
    rw [List.flatMap_cons, List.flatMap_cons, List.append_assoc, List.append_assoc]
    exact hx.1 _ _ (ih hx.2)

/-- The lines of a procedure. -/
theorem procedure {p : Program} (hp : p.WellFormed) {id : DeclId} {d : Declaration}
    (hd : p.decl? id = some d) (hk : d.kind = .procedure) (hbody : d.body.IsBlock)
    (h : Laid rest ls) : Laid (p.procedureText d ++ rest) (p.procedureLexemes d ++ ls) := by
  obtain ⟨t, ids, vars, ht⟩ := hp.procedure id d hd hk
  -- every name is an identifier, so it is read as one lexeme
  have hname {kind : DeclKind} {id : DeclId} (h : p.hasKind kind id = true) :
      (p.nameOf id).IsIdentifier := by
    unfold Program.hasKind at h
    unfold Program.nameOf
    cases hid : p.decl? id with
    | none => simp [hid] at h
    | some e => exact hp.decl_name id e hid
  have hparams : ∀ name ∈ p.paramNames d, name.IsIdentifier := by
    intro name hmem
    rw [Program.paramNames, ht.params_eq, List.map_map, List.mem_map] at hmem
    obtain ⟨id, hid, rfl⟩ := hmem
    exact hname (ht.params_kind id hid)
  have hvars : ∀ id ∈ p.localVariables d, (p.nameOf id).IsIdentifier :=
    fun id hid => hname (List.mem_filter.1 hid).2
  -- the words of the head with the blanks between them
  have htype (text : Text) : Text.ofString s!"public {d.type.word} " ++ text =
      TokenKind.publicWord.spelling ++ 0x20 :: (d.type.token.spelling ++ 0x20 :: text) := by
    cases d.type <;> rfl
  have hkeyword : d.type.token ∈ TokenKind.keywords := by cases d.type <;> decide
  have hnames : (d.params.map fun id => Text.ofString "int " ++ (id.map p.nameOf).getD []) =
      (p.paramNames d).map (Text.ofString "int " ++ ·) := by
    rw [Program.paramNames, List.map_map]
    rfl
  -- the lines from the last one on: the body, the variables, the head
  have hlines : Laid (Node.blockOnto 2 d.body (Node.line 1 (Text.ofString "\x7d")) ++ rest)
      (d.body.blockLexemes ++ rightBrace.lexeme :: ls) := by
    rw [← Node.blockOnto_append, line_append]
    exact block hbody (line (closeBrace h))
  have hvariables := flatMap (fun id hid rest ls h => declaredVariable (hvars id hid) 2 h) hlines
  simp only [Program.procedureText, Program.procedureLexemes, Program.headLexemes, hnames,
    List.append_assoc, line_append, List.cons_append, List.nil_append] at hvariables ⊢
  rw [← Node.lineOnto_append]
  apply line
  simp only [List.append_assoc, htype, List.cons_append]
  have hopen (text : Text) : Text.Stops (Text.ofString "(" ++ text) :=
    Text.stops_cons (by decide) _
  have hclose (text : Text) : Text.Stops (Text.ofString ") \x7b" ++ text) :=
    Text.stops_cons (by decide) _
  have hhead := openParen (params hparams (hclose _) (openBlock hvariables))
  exact spaced (show TokenKind.publicWord ∈ TokenKind.keywords by decide)
    (spaced hkeyword (identifier (hp.decl_name id d hd) (hopen _) hhead))

end Laid

/-- The text of a built program is laid out with its lexemes. -/
theorem Program.laid_print {p : Program} (hp : p.WellFormed)
    (hbody : ∀ id d, p.decl? id = some d → d.kind = .procedure → d.body.IsBlock) :
    Laid p.print p.lexemes := by
  have hend : Laid (Text.ofString "\x7d\n") [rightBrace.lexeme] :=
    Laid.mark (show rightBrace ∈ Laid.marks by decide) (.blank rfl .nil)
  have hprocedure : ∀ d ∈ p.procedures.filterMap p.decl?, ∀ rest ls, Laid rest ls →
      Laid (p.procedureText d ++ rest) (p.procedureLexemes d ++ ls) := by
    intro d hd rest ls h
    obtain ⟨id, hid, hd⟩ := List.mem_filterMap.1 hd
    obtain ⟨d', hd', hk⟩ := hp.mem_procedures.1 hid
    obtain rfl := Option.some.inj (hd'.symm.trans hd)
    exact Laid.procedure hp hd hk (hbody id d' hd hk) h
  have hfield : ∀ d ∈ p.members.filterMap p.decl?, ∀ rest ls, Laid rest ls →
      Laid (fieldText d ++ rest) (d.fieldLexemes ++ ls) := by
    intro d hd rest ls h
    obtain ⟨id, -, hd⟩ := List.mem_filterMap.1 hd
    exact Laid.field (hp.decl_name id d hd) h
  have hmembers := Laid.flatMap hfield (Laid.flatMap hprocedure hend)
  have hopen : Text.ofString "class " ++ p.name ++ Text.ofString " \x7b\n" =
      TokenKind.classWord.spelling ++ 0x20 :: (p.name ++ 0x20 :: (leftBrace.spelling ++ [0x0A])) := by
    rw [List.append_assoc]
    rfl
  rw [print, hopen, lexemes, memberLexemes]
  simp only [List.append_assoc, List.cons_append, List.nil_append] at hmembers ⊢
  exact Laid.spaced (by decide) (Laid.identifier hp.name (Text.stops_cons (by decide) _)
    (.blank rfl (Laid.mark (by decide) (.blank rfl hmembers))))

end Classwright
