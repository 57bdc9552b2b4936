import Classwright.Text.Decimal

/-!
# Reading numbers in any base

A number literal is an optional sign and digits.  The digits start with `0x`, `0o` or `0b` for the
bases sixteen, eight and two, and with `0` for base eight.  Single underscores may stand between
digits, and between the mark of the base and the first digit.
-/

namespace Classwright

/-- Why a text is no number literal. -/
inductive NumberFault where
  /-- It is not written like one. -/
  | malformed
  /-- The number fits no signed word of 64 bits. -/
  | outOfRange
  deriving Repr, DecidableEq, Inhabited

/-- The value of a digit in any base up to 36. -/
def digitValue? (c : Char) : Option Nat :=
  let lower := c.toLower
  if '0' ≤ c && c ≤ '9' then some (c.toNat - '0'.toNat)
  else if 'a' ≤ lower && lower ≤ 'z' then some (lower.toNat - 'a'.toNat + 10)
  else none

/-- Reads digits behind a number that is known so far; the first that makes it exceed 64 bits ends
the reading. -/
def readDigits (base n : Nat) : List Char → Except NumberFault Nat
  | [] => .ok n
  | '_' :: rest => readDigits base n rest
  | c :: rest =>
    match digitValue? c with
    | none => .error .malformed
    | some d =>
      if base ≤ d then .error .malformed
      else if 2 ^ 64 ≤ n * base + d then .error .outOfRange
      else readDigits base (n * base + d) rest

/-- Whether every underscore stands between two other characters.  `allowed` tells whether one may
come next. -/
def underscoresFit (allowed : Bool) : List Char → Bool
  | [] => true
  | '_' :: rest => allowed && !rest.isEmpty && underscoresFit false rest
  | _ :: rest => underscoresFit true rest

/-- The number an unsigned literal stands for. -/
def readUnsigned (digits : List Char) : Except NumberFault Nat :=
  let checked (base : Nat) (marked : Bool) (rest : List Char) : Except NumberFault Nat := do
    let n ← readDigits base 0 rest
    if underscoresFit marked rest then .ok n else .error .malformed
  match digits with
  | [] => .error .malformed
  | '0' :: mark :: c :: rest =>
    if mark.toLower == 'x' then checked 16 true (c :: rest)
    else if mark.toLower == 'o' then checked 8 true (c :: rest)
    else if mark.toLower == 'b' then checked 2 true (c :: rest)
    else checked 8 true (mark :: c :: rest)
  | '0' :: rest => checked 8 true rest
  | rest => checked 10 false rest

/-- The number a literal stands for. -/
def readNumber (s : String) : Except NumberFault Int := do
  let n ←
    match s.toList with
    | '+' :: digits => (readUnsigned digits).map Int.ofNat
    | '-' :: digits => (readUnsigned digits).map fun n => -(n : Int)
    | digits => (readUnsigned digits).map Int.ofNat
  if fitsWord 64 n then .ok n else .error .outOfRange

end Classwright
