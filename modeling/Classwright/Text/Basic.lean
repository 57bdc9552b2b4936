import Classwright.Text.Utf8

/-!
# Byte strings as text

Source files, names and pool strings are byte strings.  `Text.ofString` gives the bytes of a
string, `Text.shown` the string that stands for a text in messages, in which every stray byte is
replaced by U+FFFD.
-/

namespace Classwright

/-- A text is the byte string it is stored as, which need not be valid UTF-8. -/
abbrev Text := List UInt8

namespace Text

/-- The UTF-8 bytes of a string. -/
def ofString (s : String) : Text :=
  s.toList.flatMap Utf8.encode

theorem ofString_append (s t : String) : ofString (s ++ t) = ofString s ++ ofString t := by
  rw [ofString, String.toList_append, List.flatMap_append]
  rfl

theorem ofString_ofList (cs : List Char) :
    ofString (String.ofList cs) = cs.flatMap Utf8.encode := by
  rw [ofString, String.toList_ofList]

/-- The characters a text is shown as. -/
def characters (t : Text) : List Char :=
  (Utf8.pieces t).map Utf8.Piece.shown

/-- The string a text is shown as. -/
def shown (t : Text) : String :=
  String.ofList t.characters

/-- Byte order: the first difference decides, and a proper start comes before the longer text. -/
def precedes : Text → Text → Bool
  | [], _ => true
  | _ :: _, [] => false
  | a :: s, b :: t => a < b || (a == b && precedes s t)

/-- Splits a text behind every line feed, which stays at the end of its line; what follows the
last line feed is a line of its own, possibly empty. -/
def lines : Text → List Text
  | [] => [[]]
  | b :: rest =>
    match lines rest with
    | [] => [[b]]
    | line :: others => if b == 0x0A then [b] :: line :: others else (b :: line) :: others

end Text

/-- `s` filled up with blanks on the left to `width` characters. -/
def padLeft (width : Nat) (s : String) : String :=
  String.ofList (List.replicate (width - s.length) ' ') ++ s

/-- `s` filled up with blanks on the right to `width` characters. -/
def padRight (width : Nat) (s : String) : String :=
  s ++ String.ofList (List.replicate (width - s.length) ' ')

/-- The digits of `n` in base sixteen, lower case, at least `width` of them. -/
def hexDigits (width n : Nat) : String :=
  let digits := Nat.toDigits 16 n
  String.ofList (List.replicate (width - digits.length) '0' ++ digits)

end Classwright
