import Classwright.Proofs.Source.Scanning
import Classwright.Proofs.Text.Numerals
import Classwright.Operator

/-!
# Texts as rows of lexemes

`Laid text lexemes` says that a text is made of these lexemes with blanks between them where they
are needed; such a text is scanned into tokens with these lexemes (`Laid.ofText`).
-/

namespace Classwright

namespace Lexeme

/-- The lexeme of a number. -/
def number (n : Nat) : Lexeme :=
  ⟨.number, Text.ofString (toString n)⟩

/-- The lexeme of a name. -/
def identifier (id : Text) : Lexeme :=
  ⟨.identifier, id⟩

end Lexeme

/-- The token of an operator. -/
def Operator.token : Operator → TokenKind
  | assign => .assign
  | equal => .equal
  | less => .less
  | lessEqual => .lessEqual
  | greater => .greater
  | greaterEqual => .greaterEqual
  | add => .plus
  | subtract => .minus
  | multiply => .times
  | divide => .divide

/-- The text is scanned into these lexemes. -/
inductive Laid : Text → List Lexeme → Prop
  | nil : Laid [] []
  | blank {b : UInt8} {text : Text} {ls : List Lexeme} (hb : Character.isBlank b = true)
      (h : Laid text ls) : Laid (b :: text) ls
  | lexeme {kind : TokenKind} {b : UInt8} {part text : Text} {ls : List Lexeme}
      (hb : Character.isBlank b = false)
      (hlexeme : Scanner.lexeme? b (part ++ text) = some (kind, part.length))
      (hcomment : b = Character.byte '/' → (part ++ text).head? ≠ some (Character.byte '/') ∧
        (part ++ text).head? ≠ some (Character.byte '*'))
      (hnumber : kind = .number → decimalValue (b :: part) ≤ Scanner.maxNumber)
      (h : Laid text ls) : Laid (b :: (part ++ text)) (⟨kind, b :: part⟩ :: ls)

namespace Laid

/-- A laid text is scanned to its end. -/
theorem scanBytes {text : Text} {ls : List Lexeme} (h : Laid text ls) (line column : Nat) :
    ∃ tokens line', Scanner.scanBytes false line column text =
        ⟨tokens, line', none, .complete⟩ ∧
      tokens.map Token.lexeme = ls := by
  induction h generalizing line column with
  | nil => exact ⟨[], line, Scanner.scanBytes_nil false line column, rfl⟩
  | @blank b text ls hb _ ih =>
    by_cases hline : b = Character.lineFeed
    · obtain ⟨tokens, line', hscan, htokens⟩ := ih (line + 1) 0
      refine ⟨tokens, line', ?_, htokens⟩
      rw [hline, Scanner.scanBytes_lineFeed, hscan]
    · obtain ⟨tokens, line', hscan, htokens⟩ := ih line (column + 1)
      refine ⟨tokens, line', ?_, htokens⟩
      rw [Scanner.scanBytes_blank hb hline, hscan]
  | @lexeme kind b part text ls hb hlexeme hcomment hnumber _ ih =>
    obtain ⟨tokens, line', hscan, htokens⟩ := ih line (column + (1 + part.length))
    refine ⟨⟨kind, b :: part, line, column⟩ :: tokens, line', ?_, ?_⟩
    · rw [Scanner.scanBytes_takes ⟨hb, hlexeme, hcomment, hnumber⟩, hscan]
      rfl
    · rw [List.map_cons, htokens]
      rfl

/-- The tokens of a laid text. -/
theorem ofText {text : Text} {ls : List Lexeme} (h : Laid text ls) :
    ∃ tokens, Token.ofText text = .ok tokens ∧ tokens.map Token.lexeme = ls := by
  obtain ⟨tokens, line, hscan, htokens⟩ := h.scanBytes 1 0
  refine ⟨tokens, ?_, htokens⟩
  have hstart : Scanner.scanBytes ({} : Scanner).inComment (({} : Scanner).line + 1) 0 text =
      ⟨tokens, line, none, .complete⟩ := hscan
  simp only [Token.ofText, Scanner.scan, hstart, List.nil_append]

/-- A lexeme in front of a text that ends it. -/
theorem of_ends {l : Lexeme} {text : Text} {ls : List Lexeme} (hl : l.Ends text)
    (h : Laid text ls) : Laid (l.content ++ text) (l :: ls) := by
  obtain ⟨b, part, hcontent, htakes⟩ := hl.exists_takes
  obtain ⟨kind, content⟩ := l
  obtain rfl : content = b :: part := hcontent
  exact .lexeme htakes.blank htakes.lexeme htakes.comment htakes.number h

/-! ### Words and numbers -/

/-- A word in front of a text that does not go on with it. -/
theorem word {b : UInt8} {part text : Text} {ls : List Lexeme}
    (hb : Character.isWordStart b = true) (hpart : ∀ c ∈ part, Character.isWordPart c = true)
    (hstop : text.Stops) (h : Laid text ls) :
    Laid ((b :: part) ++ text) (⟨.ofWord (b :: part), b :: part⟩ :: ls) :=
  of_ends (.word hb hpart hstop) h

theorem identifier {id text : Text} {ls : List Lexeme} (hid : id.IsIdentifier)
    (hstop : text.Stops) (h : Laid text ls) : Laid (id ++ text) (.identifier id :: ls) := by
  obtain ⟨b, part, rfl, hb, hpart⟩ := hid.word
  have hword := word hb hpart hstop h
  rwa [hid.kind] at hword

theorem keyword {k : TokenKind} (hk : k ∈ TokenKind.keywords) {text : Text} {ls : List Lexeme}
    (hstop : text.Stops) (h : Laid text ls) : Laid (k.spelling ++ text) (k.lexeme :: ls) := by
  have hspelling : ∀ k ∈ TokenKind.keywords, ∃ b part, k.spelling = b :: part ∧
      Character.isWordStart b = true ∧ (∀ c ∈ part, Character.isWordPart c = true) ∧
      TokenKind.ofWord (b :: part) = k := by
    intro k hk
    cases k <;> first
      | exact absurd hk (by decide)
      | exact ⟨_, _, rfl, by decide, List.all_eq_true.1 rfl, by decide⟩
  obtain ⟨b, part, hk, hb, hpart, hword⟩ := hspelling k hk
  have hlaid := word hb hpart hstop h
  rw [hword] at hlaid
  rw [TokenKind.lexeme, hk]
  exact hlaid

end Laid

/-! ### Numbers -/

namespace Laid

variable {text : Text} {ls : List Lexeme}

theorem number {n : Nat} (hn : n ≤ Scanner.maxNumber) (hstop : text.Stops) (h : Laid text ls) :
    Laid (Text.ofString (toString n) ++ text) (.number n :: ls) := by
  have hrange : decimalValue (Text.ofString (toString n)) ≤ Scanner.maxNumber := by
    rw [decimalValue_toString]
    exact hn
  have hrest : ∀ c, text.head? = some c → Character.isDigit c = false := by
    intro c hc
    have hpart := hstop c hc
    rw [← Bool.not_eq_true] at hpart ⊢
    exact fun hdigit => hpart (Character.isWordPart_iff.2 (Or.inr hdigit))
  exact of_ends (.number (ofString_toString_ne_nil n) (fun _ => isDigit_of_mem_toString) hrest
    hrange) h

/-! ### Symbols -/

/-- The symbols that nothing behind them can change. -/
def marks : List TokenKind :=
  [.leftBrace, .rightBrace, .leftParen, .rightParen, .comma, .semicolon]

theorem mark {k : TokenKind} (hk : k ∈ marks) (h : Laid text ls) :
    Laid (k.spelling ++ text) (k.lexeme :: ls) := by
  have hmarks : ∀ k ∈ marks, k ∈ TokenKind.symbols ∧
      k ∉ [TokenKind.assign, .less, .greater] ∧ k ≠ .divide := by decide
  obtain ⟨hsymbol, hequal, hslash⟩ := hmarks k hk
  exact of_ends (.symbol hsymbol (fun h => absurd h hequal) fun h => absurd h hslash) h

/-- An operator in front of a blank. -/
theorem operator (op : Operator) (h : Laid text ls) :
    Laid (op.token.spelling ++ 0x20 :: text) (op.token.lexeme :: ls) := by
  have hsymbol : op.token ∈ TokenKind.symbols := by cases op <;> decide
  have hblank {b : UInt8} (hb : 0x20 ≠ b) : List.head? (0x20 :: text) ≠ some b :=
    fun h => hb (Option.some.inj h)
  exact of_ends (.symbol hsymbol (fun _ => hblank (by decide))
    fun _ => ⟨hblank (by decide), hblank (by decide)⟩) (.blank rfl h)

end Laid

end Classwright
