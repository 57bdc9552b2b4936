import Classwright.Text.Basic

/-!
# Characters of the source language

The scanner looks at single bytes.  A byte above `0x7F` counts as the Latin-1 character with its
number, which matters only for the two blanks `0x85` and `0xA0`.
-/

namespace Classwright

namespace Character

/-- The byte of an ASCII character. -/
def byte (c : Char) : UInt8 :=
  UInt8.ofNat c.toNat

/-- A decimal digit. -/
def isDigit (b : UInt8) : Bool :=
  0x30 ≤ b && b ≤ 0x39

/-- The underscore. -/
def isUnderscore (b : UInt8) : Bool :=
  b == 0x5F

/-- An ASCII letter. -/
def isLetter (b : UInt8) : Bool :=
  (0x61 ≤ b && b ≤ 0x7A) || (0x41 ≤ b && b ≤ 0x5A)

/-- A byte an identifier may start with. -/
def isWordStart (b : UInt8) : Bool :=
  isLetter b || isUnderscore b

/-- A byte an identifier may go on with. -/
def isWordPart (b : UInt8) : Bool :=
  isLetter b || isUnderscore b || isDigit b

/-- A byte that starts a punctuation mark or an operator. -/
def isSymbol (b : UInt8) : Bool :=
  ['{', '}', '(', ')', ',', ';', '=', '<', '>', '+', '-', '*', '/'].any fun c => byte c == b

/-- A blank: tab, line feed, vertical tab, form feed, carriage return, space, next line or
no-break space. -/
def isBlank (b : UInt8) : Bool :=
  (0x09 ≤ b && b ≤ 0x0D) || b == 0x20 || b == 0x85 || b == 0xA0

/-- The byte that ends a line. -/
def lineFeed : UInt8 := 0x0A

end Character

/-- The number a row of decimal digits stands for. -/
def decimalValue (digits : Text) : Nat :=
  digits.foldl (fun n d => n * 10 + (d.toNat - 0x30)) 0

end Classwright
