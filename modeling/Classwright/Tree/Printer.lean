import Classwright.Tree.Node

/-!
# Printing trees as source text

An operation inside another one is put in parentheses, so that reading the text gives the same
tree.  There are no negative numbers in source text: one is written as a subtraction from zero, and
the least number as two.
-/

namespace Classwright

/-- The text of a number; `nested` asks for parentheses around a subtraction. -/
def literalText (v : Int32) (nested : Bool) : Text :=
  let wrap (s : String) : String := if nested then s!"({s})" else s
  Text.ofString <|
    if 0 ≤ v then toString v.toInt
    else if v = Int32.minValue then wrap "0 - 2147483647 - 1"
    else wrap s!"0 - {- v.toInt}"

namespace Node

/-- Joins texts with a separator between them. -/
def joinTexts (separator : Text) : List Text → Text
  | [] => []
  | [t] => t
  | t :: rest => t ++ separator ++ joinTexts separator rest

mutual

/-- The text of an expression in front of `rest`, as `exprText` gives it. -/
def exprOnto : (nested : Bool) → Node → (rest : Text) → Text
  | nested, literal v _, rest => literalText v nested ++ rest
  | _, name id _ _, rest => id ++ rest
  | _, call callee arguments _ _, rest =>
    callee ++ (Text.ofString "(" ++ argumentsOnto arguments (Text.ofString ")" ++ rest))
  | true, binary op left right _, rest =>
    Text.ofString "(" ++ exprOnto true left (Text.ofString s!" {op.symbol} " ++
      exprOnto true right (Text.ofString ")" ++ rest))
  | false, binary op left right _, rest =>
    exprOnto true left (Text.ofString s!" {op.symbol} " ++ exprOnto true right rest)
  | _, _, rest => rest

/-- The texts of the arguments of a call, with commas between them, in front of `rest`. -/
def argumentsOnto : List Node → (rest : Text) → Text
  | [], rest => rest
  | [e], rest => exprOnto false e rest
  | e :: others, rest => exprOnto false e (Text.ofString ", " ++ argumentsOnto others rest)

end

/-- The text of an expression; `nested` asks for parentheses around an operation.  A statement has
no text as an expression. -/
def exprText (nested : Bool) (node : Node) : Text :=
  exprOnto nested node []

/-- A line of source text, indented by `depth` tabs, in front of `rest`. -/
def lineOnto (depth : Nat) (t rest : Text) : Text :=
  List.replicate depth 0x09 ++ (t ++ 0x0A :: rest)

/-- A line of source text, indented by `depth` tabs. -/
def line (depth : Nat) (t : Text) : Text :=
  lineOnto depth t []

mutual

/-- The lines of a statement, indented by `depth` tabs, in front of `rest`. -/
def statementOnto (depth : Nat) : Node → (rest : Text) → Text
  | binary _ left right _, rest =>
    lineOnto depth
      (exprOnto false left (Text.ofString " = " ++ exprOnto false right (Text.ofString ";"))) rest
  | call callee arguments link p, rest =>
    lineOnto depth (exprOnto false (call callee arguments link p) (Text.ofString ";")) rest
  | exit absent _, rest => lineOnto depth (Text.ofString "return;") rest
  | exit value _, rest =>
    lineOnto depth (Text.ofString "return " ++ exprOnto false value (Text.ofString ";")) rest
  | branch condition thenBlock elseBlock _, rest =>
    lineOnto depth
      (Text.ofString "if (" ++ exprOnto false condition (Text.ofString ") \x7b")) <|
    blockOnto (depth + 1) thenBlock <|
    lineOnto depth (Text.ofString "\x7d else \x7b") <|
    blockOnto (depth + 1) elseBlock <|
    lineOnto depth (Text.ofString "\x7d") rest
  | loop condition body _, rest =>
    lineOnto depth
      (Text.ofString "while (" ++ exprOnto false condition (Text.ofString ") \x7b")) <|
    blockOnto (depth + 1) body <|
    lineOnto depth (Text.ofString "\x7d") rest
  | block statements _, rest => statementsOnto depth statements rest
  | _, rest => rest

/-- The lines inside a block in front of `rest`. -/
def blockOnto (depth : Nat) : Node → (rest : Text) → Text
  | block statements _, rest => statementsOnto depth statements rest
  | _, rest => rest

/-- The lines of several statements in front of `rest`. -/
def statementsOnto (depth : Nat) : List Node → (rest : Text) → Text
  | [], rest => rest
  | s :: others, rest => statementOnto depth s (statementsOnto depth others rest)

end

end Node

end Classwright
