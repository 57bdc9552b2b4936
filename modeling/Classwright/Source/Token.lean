import Classwright.Source.Character
import Classwright.Source.Position

/-!
# Tokens

The words and symbols a source text is made of.  A token records its kind, its bytes and where
they start; its end, its position and the value of a number follow from these.
-/

namespace Classwright

/-- The kinds of tokens: nine keywords, sixteen symbols, numbers and identifiers. -/
inductive TokenKind where
  | classWord | finalWord | intWord | voidWord | publicWord | ifWord | elseWord | whileWord
  | returnWord
  | leftBrace | rightBrace | leftParen | rightParen | comma | semicolon
  | assign | equal | less | lessEqual | greater | greaterEqual
  | plus | minus | times | divide
  | number | identifier
  deriving Repr, DecidableEq, Inhabited

namespace TokenKind

/-- All kinds, in the order of their numbers. -/
def all : List TokenKind :=
  [classWord, finalWord, intWord, voidWord, publicWord, ifWord, elseWord, whileWord, returnWord,
    leftBrace, rightBrace, leftParen, rightParen, comma, semicolon, assign, equal, less, lessEqual,
    greater, greaterEqual, plus, minus, times, divide, number, identifier]

/-- The keyword or symbol itself; numbers and identifiers are named. -/
def label : TokenKind → String
  | classWord => "class"
  | finalWord => "final"
  | intWord => "int"
  | voidWord => "void"
  | publicWord => "public"
  | ifWord => "if"
  | elseWord => "else"
  | whileWord => "while"
  | returnWord => "return"
  | leftBrace => "\x7b"
  | rightBrace => "\x7d"
  | leftParen => "("
  | rightParen => ")"
  | comma => ","
  | semicolon => ";"
  | assign => "="
  | equal => "=="
  | less => "<"
  | lessEqual => "<="
  | greater => ">"
  | greaterEqual => ">="
  | plus => "+"
  | minus => "-"
  | times => "*"
  | divide => "/"
  | number => "number"
  | identifier => "identifier"

/-- The label of the kind with a given number. -/
def labelOfNumber (n : Int) : String :=
  if n < 0 then "unknown" else ((all[n.toNat]?).map label).getD "unknown"

/-- The keywords. -/
def keywords : List TokenKind :=
  [classWord, finalWord, intWord, voidWord, publicWord, ifWord, elseWord, whileWord, returnWord]

/-- The bytes of a keyword. -/
def spelling (k : TokenKind) : Text :=
  k.label.toList.map Character.byte

/-- The kind of a word: a keyword, or else an identifier. -/
def ofWord (word : Text) : TokenKind :=
  (keywords.find? fun k => k.spelling == word).getD identifier

end TokenKind

/-- A token of a source text. -/
structure Token where
  /-- What the token is. -/
  kind : TokenKind
  /-- Its bytes. -/
  content : Text
  /-- The line it stands on, counted from 1. -/
  line : Nat
  /-- The byte offset of its first byte in the line, counted from 0. -/
  start : Nat
  deriving Repr, DecidableEq, Inhabited

namespace Token

/-- The byte offset just behind the token in its line. -/
def stop (t : Token) : Nat :=
  t.start + t.content.length

/-- The position of the first byte. -/
def position (t : Token) : Position :=
  ⟨t.line, t.start + 1⟩

/-- The position just behind the last byte. -/
def endPosition (t : Token) : Position :=
  ⟨t.line, t.stop + 1⟩

/-- The value of a number, 0 for every other token. -/
def value (t : Token) : Int32 :=
  if t.kind = .number then Int32.ofNat (decimalValue t.content) else 0

end Token

end Classwright
