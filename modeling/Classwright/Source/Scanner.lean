import Classwright.CompileError
import Classwright.Source.Token

/-!
# The scanner

Splits a source text into tokens by longest match.  Blanks and comments separate tokens; a `//`
comment runs to the end of its line, a `/*` comment to the next `*/`, which may be on a later line
or in a later text.  `Scanner.scan` continues from the state that earlier texts left: every text
starts a new line, and a comment left open stays open.
-/

namespace Classwright

namespace Scanner

/-- The kind of the token that starts with the byte `b`, and how many of the bytes behind `b`
belong to it; `none` if no token starts so. -/
def lexeme? (b : UInt8) (rest : List UInt8) : Option (TokenKind × Nat) :=
  let orEqual (alone withEqual : TokenKind) : Option (TokenKind × Nat) :=
    if rest.head? = some (Character.byte '=') then some (withEqual, 1) else some (alone, 0)
  if b = Character.byte '/' then some (.divide, 0)
  else if b = Character.byte '=' then orEqual .assign .equal
  else if b = Character.byte '<' then orEqual .less .lessEqual
  else if b = Character.byte '>' then orEqual .greater .greaterEqual
  else if b = Character.byte '\x7b' then some (.leftBrace, 0)
  else if b = Character.byte '\x7d' then some (.rightBrace, 0)
  else if b = Character.byte '(' then some (.leftParen, 0)
  else if b = Character.byte ')' then some (.rightParen, 0)
  else if b = Character.byte ',' then some (.comma, 0)
  else if b = Character.byte ';' then some (.semicolon, 0)
  else if b = Character.byte '+' then some (.plus, 0)
  else if b = Character.byte '-' then some (.minus, 0)
  else if b = Character.byte '*' then some (.times, 0)
  else if Character.isDigit b then
    some (.number, (rest.takeWhile Character.isDigit).length)
  else if Character.isWordStart b then
    let part := rest.takeWhile Character.isWordPart
    some (.ofWord (b :: part), part.length)
  else
    none

/-- How scanning a text ends. -/
inductive Ending where
  /-- All bytes are scanned. -/
  | complete
  /-- The text ends inside a comment. -/
  | inComment
  /-- No token could be formed. -/
  | failed (error : CompileError)
  deriving Repr, DecidableEq, Inhabited

/-- What scanning a text yields: the tokens before its end or its first error, and the line
reached there. -/
structure Result where
  /-- The tokens, in order. -/
  tokens : List Token
  /-- The line reached. -/
  line : Nat
  /-- Where the latest comment opened in the text starts, if one has been. -/
  opened : Option Position
  /-- How the text ended. -/
  ending : Ending
  deriving Repr, DecidableEq, Inhabited

namespace Result

/-- Puts a token in front of a result. -/
def cons (t : Token) (r : Result) : Result :=
  { r with tokens := t :: r.tokens }

/-- Puts the opening of a comment in front of a result. -/
def opening (start : Position) (r : Result) : Result :=
  { r with opened := r.opened.or (some start) }

end Result

/-- The largest number a source text may hold. -/
def maxNumber : Nat := 2147483647

/-- Scans bytes that start at `column`, counted from 0, of `line`.  Inside a comment everything up
to the closing `*/` is skipped. -/
def scanBytes (inComment : Bool) (line column : Nat) : List UInt8 → Result
  | [] => ⟨[], line, none, if inComment then .inComment else .complete⟩
  | b :: rest =>
    let next := rest.head?
    match inComment with
    | true =>
      if b = Character.byte '*' ∧ next = some (Character.byte '/') then
        scanBytes false line (column + 2) (rest.drop 1)
      else if b = Character.lineFeed then
        scanBytes true (line + 1) 0 rest
      else
        scanBytes true line (column + 1) rest
    | false =>
      if b = Character.lineFeed then
        scanBytes false (line + 1) 0 rest
      else if Character.isBlank b then
        scanBytes false line (column + 1) rest
      else if b = Character.byte '/' ∧ next = some (Character.byte '/') then
        let text := rest.takeWhile (· != Character.lineFeed)
        scanBytes false line (column + 1 + text.length) (rest.drop text.length)
      else if b = Character.byte '/' ∧ next = some (Character.byte '*') then
        (scanBytes true line (column + 2) (rest.drop 1)).opening ⟨line, column + 1⟩
      else
        match lexeme? b rest with
        | none => ⟨[], line, none, .failed ⟨.unknownCharacter b, ⟨line, column + 1⟩⟩⟩
        | some (kind, more) =>
          let token : Token := ⟨kind, b :: rest.take more, line, column⟩
          if kind = .number ∧ maxNumber < decimalValue token.content then
            ⟨[], line, none, .failed ⟨.numberOutOfRange token.content, token.position⟩⟩
          else
            (scanBytes false line (column + 1 + more) (rest.drop more)).cons token
termination_by bytes => bytes.length
decreasing_by all_goals simp only [List.length_cons, List.length_drop]; omega

end Scanner

/-- A scanner between two texts. -/
structure Scanner where
  /-- The number of lines begun. -/
  line : Nat := 0
  /-- The tokens so far. -/
  tokens : List Token := []
  /-- Whether a comment is still open. -/
  inComment : Bool := false
  /-- Where the latest comment starts, an unknown place if there has been none. -/
  commentStart : Position := .unknown
  deriving Repr, DecidableEq, Inhabited

namespace Scanner

/-- Scans one more text, which starts a new line.  Yields all tokens so far, or the error that
stopped the scan, and the scanner behind it; tokens in front of an error are kept. -/
def scan (s : Scanner) (text : Text) : Scanner × Except CompileError (List Token) :=
  let r := scanBytes s.inComment (s.line + 1) 0 text
  let tokens := s.tokens ++ r.tokens
  let start := r.opened.getD s.commentStart
  match r.ending with
  | .complete => (⟨r.line, tokens, false, start⟩, .ok tokens)
  | .inComment => (⟨r.line, tokens, true, start⟩, .error ⟨.unclosedComment, start⟩)
  | .failed e => (⟨r.line, tokens, false, start⟩, .error e)

end Scanner

/-- The tokens of a whole source text. -/
def Token.ofText (text : Text) : Except CompileError (List Token) :=
  (({} : Scanner).scan text).2

end Classwright
