import Classwright.Text.Basic
import Classwright.Text.Printable

/-!
# Quoted text

A text between double quotes, or a character between single ones.  The quote itself and the
backslash are written behind a backslash, seven control characters by a letter, other unprintable
characters by their number in two, four or eight digits, and a stray byte by its two digits.
-/

namespace Classwright

namespace Quoted

/-- The letter that names a control character in quoted text. -/
def controlLetter? : Nat → Option Char
  | 0x07 => some 'a'
  | 0x08 => some 'b'
  | 0x0C => some 'f'
  | 0x0A => some 'n'
  | 0x0D => some 'r'
  | 0x09 => some 't'
  | 0x0B => some 'v'
  | _ => none

/-- How a character is written between two marks `quote`. -/
def char (quote c : Char) : String :=
  let n := c.toNat
  if c = quote ∨ c = '\\' then
    String.ofList ['\\', c]
  else if isPrintable c then
    String.singleton c
  else
    match controlLetter? n with
    | some letter => String.ofList ['\\', letter]
    | none =>
      if n < 0x20 ∨ n = 0x7F then "\\x" ++ hexDigits 2 n
      else if n < 0x10000 then "\\u" ++ hexDigits 4 n
      else "\\U" ++ hexDigits 8 n

/-- How a piece of a text is written between double quotes. -/
def piece : Utf8.Piece → String
  | .scalar c => char '"' c
  | .stray b => "\\x" ++ hexDigits 2 b.toNat

end Quoted

/-- A text between double quotes. -/
def Text.quoted (t : Text) : String :=
  "\"" ++ String.join ((Utf8.pieces t).map Quoted.piece) ++ "\""

/-- A character between single quotes. -/
def quotedChar (c : Char) : String :=
  "'" ++ Quoted.char '\'' c ++ "'"

end Classwright
