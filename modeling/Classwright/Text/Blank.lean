import Classwright.Text.Basic

/-!
# Blanks between words

Blanks are the characters with the white-space property.  A stray byte is no blank.
-/

namespace Classwright

/-- Whether a character has the white-space property. -/
def isBlankChar (c : Char) : Bool :=
  let n := c.toNat
  (0x09 ≤ n && n ≤ 0x0D) || n == 0x20 || n == 0x85 || n == 0xA0 || n == 0x1680 ||
    (0x2000 ≤ n && n ≤ 0x200A) || n == 0x2028 || n == 0x2029 || n == 0x202F || n == 0x205F ||
    n == 0x3000

/-- Whether a piece of a text is a blank. -/
def Utf8.Piece.isBlank : Utf8.Piece → Bool
  | .scalar c => isBlankChar c
  | .stray _ => false

namespace Text

/-- The bytes of some pieces. -/
def ofPieces (pieces : List Utf8.Piece) : Text :=
  pieces.flatMap Utf8.Piece.bytes

/-- A text without the blanks at its two ends. -/
def trim (t : Text) : Text :=
  let inner := (Utf8.pieces t).dropWhile Utf8.Piece.isBlank
  ofPieces (inner.reverse.dropWhile Utf8.Piece.isBlank).reverse

/-- Splits pieces at blanks; `word` holds the pieces of the current word, the latest first. -/
def wordsFrom (word : List Utf8.Piece) : List Utf8.Piece → List Text
  | [] => if word.isEmpty then [] else [ofPieces word.reverse]
  | p :: rest =>
    if p.isBlank then
      if word.isEmpty then wordsFrom [] rest else ofPieces word.reverse :: wordsFrom [] rest
    else
      wordsFrom (p :: word) rest

/-- The words of a text: its longest parts without blanks. -/
def words (t : Text) : List Text :=
  wordsFrom [] (Utf8.pieces t)

end Text

end Classwright
