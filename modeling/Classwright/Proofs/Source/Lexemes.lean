import Classwright.Proofs.Source.Tokens

/-!
# Lexemes

A lexeme is a token without its place.  What stands behind a lexeme shows that it ends there
(`Lexeme.Ends`): words and numbers do not go on, a symbol takes an equals sign in, and a slash that
stands for itself opens no comment.  The scanner takes such a lexeme as one token
(`Lexeme.Ends.exists_takes`).
-/

namespace Classwright

open Character (byte)

/-- A token without its place. -/
structure Lexeme where
  /-- What the token is. -/
  kind : TokenKind
  /-- Its bytes. -/
  content : Text

/-- The token without its place. -/
def Token.lexeme (t : Token) : Lexeme :=
  ⟨t.kind, t.content⟩

/-- The lexeme of a keyword or symbol. -/
def TokenKind.lexeme (k : TokenKind) : Lexeme :=
  ⟨k, k.spelling⟩

/-- The symbols. -/
def TokenKind.symbols : List TokenKind :=
  [leftBrace, rightBrace, leftParen, rightParen, comma, semicolon, assign, equal, less, lessEqual,
    greater, greaterEqual, plus, minus, times, divide]

/-- A word or number may end in front of the text. -/
def Text.Stops (text : Text) : Prop :=
  ∀ b, text.head? = some b → Character.isWordPart b = false

/-- A lexeme that reaches up to `rest` and no further. -/
inductive Lexeme.Ends (rest : Text) : Lexeme → Prop
  /-- A word is a keyword or an identifier, and does not go on. -/
  | word {b : UInt8} {part : Text} (hb : Character.isWordStart b = true)
      (hpart : ∀ c ∈ part, Character.isWordPart c = true) (hrest : rest.Stops) :
      Ends rest ⟨.ofWord (b :: part), b :: part⟩
  /-- A number is in range, and has no more digits. -/
  | number {digits : Text} (hne : digits ≠ []) (hdigits : ∀ c ∈ digits, Character.isDigit c = true)
      (hrest : ∀ c, rest.head? = some c → Character.isDigit c = false)
      (hrange : decimalValue digits ≤ Scanner.maxNumber) : Ends rest ⟨.number, digits⟩
  /-- A symbol takes an equals sign in, and a slash that stands for itself opens no comment. -/
  | symbol {k : TokenKind} (hk : k ∈ TokenKind.symbols)
      (hequal : k ∈ [TokenKind.assign, .less, .greater] → rest.head? ≠ some (byte '='))
      (hslash : k = .divide → rest.head? ≠ some (byte '/') ∧ rest.head? ≠ some (byte '*')) :
      Ends rest k.lexeme

/-- The scanner takes the byte `b` and then `part` as one token, in front of `rest`. -/
structure Scanner.Takes (kind : TokenKind) (b : UInt8) (part rest : Text) : Prop where
  blank : Character.isBlank b = false
  lexeme : lexeme? b (part ++ rest) = some (kind, part.length)
  comment : b = byte '/' →
    (part ++ rest).head? ≠ some (byte '/') ∧ (part ++ rest).head? ≠ some (byte '*')
  number : kind = .number → decimalValue (b :: part) ≤ maxNumber

namespace Character

/-- A byte that a word may go on with is no blank. -/
theorem isBlank_eq_false_of_isWordPart {b : UInt8} (h : isWordPart b = true) :
    isBlank b = false := by
  rw [← Bool.not_eq_true]
  intro hblank
  simp only [isBlank, Bool.or_eq_true, Bool.and_eq_true, decide_eq_true_eq, beq_iff_eq,
    UInt8.le_iff_toNat_le, ← UInt8.toNat_inj, UInt8.toNat_ofNat] at hblank
  rw [isWordPart_iff, isWordStart_iff, isDigit_iff] at h
  omega

end Character

theorem takeWhile_append {P : UInt8 → Bool} {part text : Text} (hpart : ∀ b ∈ part, P b = true)
    (htext : ∀ b, text.head? = some b → P b = false) : (part ++ text).takeWhile P = part := by
  rw [List.takeWhile_append_of_pos hpart]
  cases text with
  | nil => exact List.append_nil part
  | cons b rest => rw [List.takeWhile_cons_of_neg (by simp [htext b rfl]), List.append_nil]

namespace Scanner

open Character

variable {b : UInt8} {part rest : Text}

/-- A word is taken as one token. -/
theorem takes_word (hb : isWordStart b = true) (hpart : ∀ c ∈ part, isWordPart c = true)
    (hrest : rest.Stops) : Takes (.ofWord (b :: part)) b part rest where
  blank := isBlank_eq_false_of_isWordPart (isWordPart_iff.2 (Or.inl hb))
  lexeme := by rw [lexeme?_of_isWordStart hb, takeWhile_append hpart hrest]
  comment := by
    rintro rfl
    exact absurd hb (by decide)
  number hkind := absurd hkind (ofWord_ne_number _)

/-- A number in range is taken as one token. -/
theorem takes_number (hb : isDigit b = true) (hpart : ∀ c ∈ part, isDigit c = true)
    (hrest : ∀ c, rest.head? = some c → isDigit c = false)
    (hrange : decimalValue (b :: part) ≤ maxNumber) : Takes .number b part rest where
  blank := isBlank_eq_false_of_isWordPart (isWordPart_iff.2 (Or.inr hb))
  lexeme := by rw [lexeme?_of_isDigit hb, takeWhile_append hpart hrest]
  comment := by
    rintro rfl
    exact absurd hb (by decide)
  number _ := hrange

/-- A symbol is taken as one token. -/
theorem takes_symbol {k : TokenKind} (hk : k ∈ TokenKind.symbols)
    (hequal : k ∈ [TokenKind.assign, .less, .greater] → rest.head? ≠ some (byte '='))
    (hslash : k = .divide → rest.head? ≠ some (byte '/') ∧ rest.head? ≠ some (byte '*')) :
    ∃ b part, k.spelling = b :: part ∧ Takes k b part rest := by
  cases k with
  | leftBrace | rightBrace | leftParen | rightParen | comma | semicolon | plus | minus | times
  | equal | lessEqual | greaterEqual =>
    exact ⟨_, _, rfl, rfl, rfl, fun h => absurd h (by decide), fun h => absurd h (by decide)⟩
  | assign | less | greater =>
    have hhead := hequal (by decide)
    refine ⟨_, _, rfl, rfl, ?_, fun h => absurd h (by decide), fun h => absurd h (by decide)⟩
    show lexeme? _ rest = _
    unfold lexeme?
    simp only [if_neg hhead]
    rfl
  | divide => exact ⟨_, _, rfl, rfl, rfl, fun _ => hslash rfl, fun h => absurd h (by decide)⟩
  | _ => exact absurd hk (by decide)

end Scanner

/-- A word is a keyword or an identifier. -/
theorem TokenKind.ofWord_mem (word : Text) : ofWord word ∈ keywords ∨ ofWord word = identifier := by
  rw [ofWord]
  cases hfind : keywords.find? fun k => k.spelling == word with
  | none => exact Or.inr rfl
  | some k => exact Or.inl (List.mem_of_find?_eq_some hfind)

/-- A word is a keyword exactly if it is spelled as one. -/
theorem TokenKind.ofWord_eq_keyword_iff {k : TokenKind} (hk : k ∈ keywords) {word : Text} :
    ofWord word = k ↔ word = k.spelling := by
  constructor
  · intro hword
    rw [ofWord] at hword
    cases hfind : keywords.find? fun k => k.spelling == word with
    | none =>
      rw [hfind] at hword
      subst hword
      exact absurd hk (by decide)
    | some k' =>
      rw [hfind, Option.getD_some] at hword
      have hspelling := List.find?_some hfind
      rw [beq_iff_eq, hword] at hspelling
      exact hspelling.symm
  · rintro rfl
    have hkeywords : ∀ k ∈ keywords, ofWord k.spelling = k := by decide
    exact hkeywords k hk

namespace Lexeme.Ends

variable {l : Lexeme} {rest : Text}

/-- **The scanner takes every lexeme as one token**, in front of what ends it. -/
theorem exists_takes (h : l.Ends rest) :
    ∃ b part, l.content = b :: part ∧ Scanner.Takes l.kind b part rest := by
  cases h with
  | @word b part hb hpart hrest => exact ⟨b, part, rfl, Scanner.takes_word hb hpart hrest⟩
  | @number digits hne hdigits hrest hrange =>
    obtain ⟨b, part, rfl⟩ := List.exists_cons_of_ne_nil hne
    rw [List.forall_mem_cons] at hdigits
    exact ⟨b, part, rfl, Scanner.takes_number hdigits.1 hdigits.2 hrest hrange⟩
  | symbol hk hequal hslash => exact Scanner.takes_symbol hk hequal hslash

/-- A lexeme ends in front of a text that goes on as the one that ends it, or with a blank. -/
theorem of_head? (h : l.Ends rest) {text : Text}
    (htext : ∀ b, text.head? = some b → rest.head? = some b ∨ Character.isBlank b = true) :
    l.Ends text := by
  have hhead {c : UInt8} (hc : Character.isBlank c = false) (hrest : rest.head? ≠ some c) :
      text.head? ≠ some c := by
    intro htext'
    rcases htext c htext' with hsame | hblank
    · exact hrest hsame
    · rw [hc] at hblank
      cases hblank
  -- what continues a word or a number is no blank
  have hstop {P : UInt8 → Bool} (hP : ∀ c, P c = true → Character.isWordPart c = true)
      (hrest : ∀ c, rest.head? = some c → P c = false) :
      ∀ c, text.head? = some c → P c = false := by
    intro c hc
    rw [← Bool.not_eq_true]
    intro hpart
    refine hhead (Character.isBlank_eq_false_of_isWordPart (hP c hpart)) (fun hsame => ?_) hc
    rw [hrest c hsame] at hpart
    cases hpart
  cases h with
  | word hb hpart hrest => exact .word hb hpart (hstop (fun _ hc => hc) hrest)
  | number hne hdigits hrest hrange =>
    exact .number hne hdigits
      (hstop (fun _ hc => Character.isWordPart_iff.2 (Or.inr hc)) hrest) hrange
  | symbol hk hequal hslash =>
    exact .symbol hk (fun h => hhead rfl (hequal h))
      fun h => ⟨hhead rfl (hslash h).1, hhead rfl (hslash h).2⟩

/-- A lexeme holds no line feed. -/
theorem lineFeed_notMem (h : l.Ends rest) : Character.lineFeed ∉ l.content := by
  intro hmem
  cases h with
  | word hb hpart =>
    rcases List.mem_cons.1 hmem with rfl | hmem
    · exact absurd hb (by decide)
    · exact absurd (hpart _ hmem) (by decide)
  | number _ hdigits => exact absurd (hdigits _ hmem) (by decide)
  | @symbol k hk =>
    have hspelling : ∀ k ∈ TokenKind.symbols, Character.lineFeed ∉ k.spelling := by decide
    exact hspelling k hk hmem

/-- A keyword or an identifier does not go on. -/
theorem stops (h : l.Ends rest) (hkind : l.kind ∈ TokenKind.keywords ∨ l.kind = .identifier) :
    rest.Stops := by
  cases h with
  | word _ _ hrest => exact hrest
  | number =>
    have hnumber : ¬ (TokenKind.number ∈ TokenKind.keywords ∨ TokenKind.number = .identifier) := by
      decide
    exact absurd hkind hnumber
  | @symbol k hk =>
    have hother : ∀ k ∈ TokenKind.symbols, ¬ (k ∈ TokenKind.keywords ∨ k = .identifier) := by
      decide
    exact absurd hkind (hother k hk)

/-- A number is in range and has no more digits. -/
theorem of_number (h : l.Ends rest) (hkind : l.kind = .number) :
    (∀ c, rest.head? = some c → Character.isDigit c = false) ∧
      decimalValue l.content ≤ Scanner.maxNumber := by
  cases h with
  | word => exact absurd hkind (Scanner.ofWord_ne_number _)
  | number _ _ hrest hrange => exact ⟨hrest, hrange⟩
  | @symbol k hk =>
    obtain rfl : k = .number := hkind
    exact absurd hk (by decide)

/-- A number is made of digits. -/
theorem digits (h : l.Ends rest) (hkind : l.kind = .number) :
    ∀ c ∈ l.content, Character.isDigit c = true := by
  cases h with
  | word => exact absurd hkind (Scanner.ofWord_ne_number _)
  | number _ hdigits => exact hdigits
  | @symbol k hk =>
    obtain rfl : k = .number := hkind
    exact absurd hk (by decide)

/-- A sign in front of an equals sign takes it in. -/
theorem head?_ne_equal (h : l.Ends rest) (hkind : l.kind ∈ [TokenKind.assign, .less, .greater]) :
    rest.head? ≠ some (byte '=') := by
  cases h with
  | @word b part =>
    have hword : ∀ k ∈ [TokenKind.assign, .less, .greater],
        k ∉ TokenKind.keywords ∧ k ≠ .identifier := by decide
    rcases TokenKind.ofWord_mem (b :: part) with hmem | hmem
    · exact absurd hmem (hword _ hkind).1
    · exact absurd hmem (hword _ hkind).2
  | number =>
    have hnumber : TokenKind.number ∉ [TokenKind.assign, .less, .greater] := by decide
    exact absurd hkind hnumber
  | symbol _ hequal => exact hequal hkind

/-- A lexeme is a keyword exactly if it is spelled as one. -/
theorem kind_eq_keyword_iff (h : l.Ends rest) {k : TokenKind} (hk : k ∈ TokenKind.keywords) :
    l.kind = k ↔ l.content = k.spelling := by
  have hstart : ∀ k ∈ TokenKind.keywords, ∃ b part, k.spelling = b :: part ∧
      Character.isDigit b = false := by
    intro k hk
    cases k <;> first
      | exact absurd hk (by decide)
      | exact ⟨_, _, rfl, by decide⟩
  cases h with
  | word => exact TokenKind.ofWord_eq_keyword_iff hk
  | @number digits hne hdigits =>
    obtain ⟨b, part, hspelling, hb⟩ := hstart k hk
    refine ⟨fun hkind => ?_, fun hcontent => ?_⟩
    · obtain rfl : TokenKind.number = k := hkind
      exact absurd hk (by decide)
    · obtain rfl : digits = k.spelling := hcontent
      have hdigit := hdigits b (by rw [hspelling]; exact List.mem_cons_self)
      rw [hb] at hdigit
      cases hdigit
  | @symbol s hs =>
    have hother : ∀ s ∈ TokenKind.symbols, ∀ k ∈ TokenKind.keywords,
        s ≠ k ∧ s.spelling ≠ k.spelling := by decide
    exact iff_of_false (hother s hs k hk).1 (hother s hs k hk).2

end Lexeme.Ends

end Classwright
