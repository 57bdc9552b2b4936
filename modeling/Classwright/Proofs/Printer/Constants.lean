import Classwright.Parser.Expression
import Classwright.Proofs.Printer.Reading
import Classwright.Proofs.Tree.Constants

/-!
# Printed constant expressions

The text of a tree of numbers and operators is read as an expression with the same value, or one
that divides by zero as well (`Node.exprText_keeps_constant`).  It is not read as the same tree: a
negative number has no text of its own, so what stands for it are subtractions
(`Node.arithmeticLexemes`), which parentheses keep together in front of and behind any operator.
-/

namespace Classwright

open TokenKind (leftParen rightParen)

/-! ### The lexemes of a tree of numbers -/

namespace Node

/-- The lexemes of a tree of numbers and operators; `nested` asks for parentheses around what is
not a single lexeme. -/
def arithmeticLexemes : (nested : Bool) → Node → List Lexeme
  | true, literal v _ =>
    if 0 ≤ v then valueLexemes v
    else leftParen.lexeme :: (valueLexemes v ++ [rightParen.lexeme])
  | false, literal v _ => valueLexemes v
  | true, binary op left right _ =>
    leftParen.lexeme :: (arithmeticLexemes true left ++ op.token.lexeme ::
      (arithmeticLexemes true right ++ [rightParen.lexeme]))
  | false, binary op left right _ =>
    arithmeticLexemes true left ++ op.token.lexeme :: arithmeticLexemes true right
  | _, _ => []

/-- Parentheses stand around a negative number that is an operand. -/
theorem literalText_nested {v : Int32} (hv : ¬ 0 ≤ v) :
    literalText v true = Text.ofString "(" ++ (literalText v false ++ Text.ofString ")") := by
  have hwrap (s : String) : Text.ofString s!"({s})" =
      Text.ofString "(" ++ (Text.ofString s ++ Text.ofString ")") := by
    rw [← Text.ofString_append, ← Text.ofString_append, ← String.append_assoc]
    rfl
  simp only [literalText, if_neg hv, if_true, Bool.false_eq_true, if_false]
  split
  · exact hwrap _
  · exact hwrap _

end Node

/-- The text of a tree of numbers is laid out with its lexemes. -/
theorem Laid.arithmetic {e : Node} (he : e.IsArithmetic) (nested : Bool) (rest : Text)
    (ls : List Lexeme) (hstop : rest.Stops) (h : Laid rest ls) :
    Laid (e.exprOnto nested rest) (e.arithmeticLexemes nested ++ ls) := by
  induction he generalizing nested rest ls with
  | literal v place =>
    cases nested with
    | false => exact value v hstop h
    | true =>
      rw [Node.exprOnto, Node.arithmeticLexemes]
      split
      · rename_i hv
        rw [valueLexemes, if_pos hv]
        exact literal hv true hstop h
      · rename_i hv
        simp only [Node.literalText_nested hv, List.append_assoc, List.cons_append, List.nil_append]
        exact openParen (value v (Text.stops_cons (by decide) _) (closeParen h))
  | @binary op left right _ _ _ place ihl ihr =>
    have hoperation := operation op place (ihl true) (ihr true) nested hstop h
    cases nested <;> exact hoperation

/-! ### Reading them -/

namespace Node

/-- A tree of numbers means the same as another one: it has the same value or none either. -/
structure Reproduces (e tree : Node) : Prop where
  /-- It is made of numbers and operators. -/
  isArithmetic : tree.IsArithmetic
  /-- The values are the same. -/
  constant?_eq : tree.constant? = e.constant?

/-- Operations on trees that mean the same mean the same. -/
theorem Reproduces.binary {op : Operator} (hop : op ≠ .assign) {left right left' right' : Node}
    (hl : left.Reproduces left') (hr : right.Reproduces right') (place place' : Position) :
    (Node.binary op left right place).Reproduces (.binary op left' right' place') := by
  refine ⟨.binary hop hl.isArithmetic hr.isArithmetic place', ?_⟩
  rw [constant?_binary hop, constant?_binary hop, hl.constant?_eq, hr.constant?_eq]

/-- What reproduces a tree has its value, unless both divide by zero. -/
theorem Reproduces.same_outcome {e tree : Node} (h : e.Reproduces tree) (he : e.IsArithmetic) :
    (∃ v, tree.constantValue = .ok v ∧ e.constantValue = .ok v) ∨
      ∃ err err', tree.constantValue = .error err ∧ e.constantValue = .error err' ∧
        err.kind = .constantDivisionByZero ∧ err'.kind = .constantDivisionByZero := by
  have hsame := h.constant?_eq
  cases hvalue : e.constantValue with
  | ok v =>
    rw [constant?_eq_some_iff.2 hvalue] at hsame
    exact Or.inl ⟨v, constant?_eq_some_iff.1 hsame, rfl⟩
  | error err' =>
    rw [constant?_eq_none_iff.2 ⟨err', hvalue⟩] at hsame
    obtain ⟨err, herr⟩ := constant?_eq_none_iff.1 hsame
    exact Or.inr ⟨err, err', herr, rfl, h.isArithmetic.kind_eq herr, he.kind_eq hvalue⟩

end Node

namespace Parser

open ExprState

/-- The lexemes of a tree of numbers are read as one that means the same, as an operand and as a
whole expression. -/
theorem reads_of_isArithmetic {e : Node} (he : e.IsArithmetic) :
    ReadsOperand (e.arithmeticLexemes true) e.Reproduces ∧
      ReadsWhole (e.arithmeticLexemes false) e.Reproduces := by
  induction he with
  | literal v place =>
    have hvalue (tree : Node) (h : tree.IsArithmetic ∧ tree.constantValue = .ok v) :
        (Node.literal v place).Reproduces tree :=
      ⟨h.1, (Node.constant?_eq_some_iff.2 h.2).trans rfl⟩
    have hwhole := (reads_value v).imp hvalue
    refine ⟨?_, hwhole⟩
    -- a number that is not negative is a single lexeme and needs no parentheses
    rw [Node.arithmeticLexemes]
    split
    · rename_i hv
      exact (readsOperand_value hv).imp hvalue
    · exact hwhole.group
  | @binary op left right hop _ _ place ihl ihr =>
    have hwhole : ReadsWhole (Node.arithmeticLexemes false (.binary op left right place))
        (Node.binary op left right place).Reproduces :=
      ihl.1.binary hop ihr.1 fun _ _ place' hx hy => hx.binary hop hy place place'
    refine ⟨?_, hwhole⟩
    have hlexemes : Node.arithmeticLexemes true (.binary op left right place) =
        leftParen.lexeme :: (Node.arithmeticLexemes false (.binary op left right place) ++
          [rightParen.lexeme]) := by
      simp only [Node.arithmeticLexemes, List.append_assoc, List.cons_append]
    rw [hlexemes]
    exact hwhole.group

/-- An expression that takes all tokens is what is read of them. -/
theorem parseExpression_of_readsWhole {ls : List Lexeme} {P : Node → Prop} (h : ReadsWhole ls P)
    {tokens : List Token} (htokens : tokens.map Token.lexeme = ls) :
    ∃ tree, parseExpression tokens = .ok (tree, []) ∧ P tree := by
  obtain ⟨pending, value, s, hP, hread, hreads⟩ := h tokens htokens []
  exact ⟨pending.close value, parseExpression_of_reads hread hreads, hP⟩

end Parser

/-- **Printing keeps the meaning of constant expressions**: the text of a tree of numbers and
operators, nested or not, is read to its end as an expression that has the value of the tree, and
divides by zero if and only if the tree does. -/
theorem Node.exprText_keeps_constant {e : Node} (he : e.IsArithmetic) (nested : Bool) :
    ∃ tokens tree, Token.ofText (e.exprText nested) = .ok tokens ∧
      Parser.parseExpression tokens = .ok (tree, []) ∧
      ((∃ v, tree.constantValue = .ok v ∧ e.constantValue = .ok v) ∨
        ∃ err err', tree.constantValue = .error err ∧ e.constantValue = .error err' ∧
          err.kind = .constantDivisionByZero ∧ err'.kind = .constantDivisionByZero) := by
  have hlaid : Laid (e.exprText nested) (e.arithmeticLexemes nested) := by
    have hall := Laid.arithmetic he nested [] [] (by simp [Text.Stops]) .nil
    rwa [List.append_nil] at hall
  obtain ⟨tokens, hscan, htokens⟩ := hlaid.ofText
  obtain ⟨hoperand, hwhole⟩ := Parser.reads_of_isArithmetic he
  have hreads : Parser.ReadsWhole (e.arithmeticLexemes nested) e.Reproduces := by
    cases nested with
    | true => exact hoperand.whole
    | false => exact hwhole
  obtain ⟨tree, hparse, htree⟩ := Parser.parseExpression_of_readsWhole hreads htokens
  exact ⟨tokens, tree, hscan, hparse, htree.same_outcome he⟩

/-- A comparison of which both sides have negative numbers. -/
def Node.leastDifference : Node :=
  .binary .less
    (.binary .subtract (.literal Int32.minValue .unknown) (.literal (-5) .unknown) .unknown)
    (.binary .divide (.literal 7 .unknown) (.literal (-2) .unknown) .unknown) .unknown

example : Node.leastDifference.exprText true =
    Text.ofString "(((0 - 2147483647 - 1) - (0 - 5)) < (7 / (0 - 2)))" := by
  decide

theorem Node.exprText_keeps_constant_leastDifference :
    leastDifference.IsArithmetic ∧ leastDifference.constantValue = .ok 1 ∧
      ∃ tokens tree, Token.ofText (leastDifference.exprText true) = .ok tokens ∧
        Parser.parseExpression tokens = .ok (tree, []) ∧
        ((∃ v, tree.constantValue = .ok v ∧ leastDifference.constantValue = .ok v) ∨
          ∃ err err', tree.constantValue = .error err ∧ leastDifference.constantValue = .error err' ∧
            err.kind = .constantDivisionByZero ∧ err'.kind = .constantDivisionByZero) := by
  have hsubtract : Operator.subtract ≠ .assign := by decide
  have hdivide : Operator.divide ≠ .assign := by decide
  have hless : Operator.less ≠ .assign := by decide
  have harithmetic : leastDifference.IsArithmetic :=
    .binary hless (.binary hsubtract (.literal _ _) (.literal _ _) _)
      (.binary hdivide (.literal _ _) (.literal _ _) _) _
  exact ⟨harithmetic, by decide, exprText_keeps_constant harithmetic true⟩

end Classwright
