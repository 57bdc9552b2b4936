/-!
# Operators

The binary operators of expressions and statements.  Assignment is one of them, but it takes no
part in expressions.
-/

namespace Classwright

/-- The binary operators: assignment, five comparisons and four kinds of arithmetic. -/
inductive Operator where
  | assign | equal | less | lessEqual | greater | greaterEqual
  | add | subtract | multiply | divide
  deriving Repr, DecidableEq, Inhabited

namespace Operator

/-- All operators, in the order of their numbers. -/
def all : List Operator :=
  [assign, equal, less, lessEqual, greater, greaterEqual, add, subtract, multiply, divide]

/-- How an operator is written. -/
def symbol : Operator → String
  | assign => "="
  | equal => "=="
  | less => "<"
  | lessEqual => "<="
  | greater => ">"
  | greaterEqual => ">="
  | add => "+"
  | subtract => "-"
  | multiply => "*"
  | divide => "/"

/-- Whether an operator compares its operands. -/
def isComparison : Operator → Bool
  | equal | less | lessEqual | greater | greaterEqual => true
  | _ => false

/-- Whether an operator computes with its operands. -/
def isArithmetic : Operator → Bool
  | add | subtract | multiply | divide => true
  | _ => false

/-- How tightly an operator binds: comparisons least, multiplication and division most. -/
def priority : Operator → Nat
  | assign => 0
  | equal | less | lessEqual | greater | greaterEqual => 1
  | add | subtract => 2
  | multiply | divide => 3

/-- The operator with a given sign. -/
def ofSymbol? (s : String) : Option Operator :=
  all.find? fun op => op.symbol == s

/-- One for a comparison that holds, zero for one that does not. -/
def ofBool (holds : Bool) : Int32 :=
  if holds then 1 else 0

/-- The value of an operation on 32-bit numbers, `none` for a division by zero and for assignment.
Arithmetic wraps around, division drops the fraction, and the least number divided by -1 is the
least number again. -/
def compute? (op : Operator) (left right : Int32) : Option Int32 :=
  match op with
  | assign => none
  | equal => some (ofBool (left == right))
  | less => some (ofBool (decide (left < right)))
  | lessEqual => some (ofBool (decide (left ≤ right)))
  | greater => some (ofBool (decide (left > right)))
  | greaterEqual => some (ofBool (decide (left ≥ right)))
  | add => some (left + right)
  | subtract => some (left - right)
  | multiply => some (left * right)
  | divide => if right = 0 then none else some (left / right)

end Operator

end Classwright
