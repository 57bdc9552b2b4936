import Classwright.Source.Scanner
import Mathlib.Logic.Basic

/-!
# What the scanner puts into tokens

The content of an identifier token is an identifier (`Text.IsIdentifier`), and the value of a
number token is not negative.  Every token of a scanned text is of this kind
(`Token.genuine_of_ofText`).
-/

namespace Classwright

/-- A word that is no keyword. -/
structure Text.IsIdentifier (t : Text) : Prop where
  /-- It starts as a word does and goes on as a word does. -/
  word : ∃ b rest, t = b :: rest ∧ Character.isWordStart b = true ∧
    ∀ c ∈ rest, Character.isWordPart c = true
  /-- It is no keyword. -/
  kind : TokenKind.ofWord t = .identifier

/-- Keywords are short, so many equal letters are an identifier. -/
theorem Text.isIdentifier_replicate {n : Nat} (h : 6 < n) :
    Text.IsIdentifier (List.replicate n 0x61) where
  word := by
    refine ⟨0x61, List.replicate (n - 1) 0x61, ?_, by decide, fun b hb => ?_⟩
    · rw [← List.replicate_succ, Nat.sub_add_cancel (by omega)]
    · rw [(List.mem_replicate.1 hb).2]
      decide
  kind := by
    have hshort : ∀ k ∈ TokenKind.keywords, k.spelling.length ≤ 6 := by decide
    have hnone :
        TokenKind.keywords.find? (fun k => k.spelling == List.replicate n 0x61) = none := by
      rw [List.find?_eq_none]
      intro k hk heq
      have hlength := congrArg List.length (eq_of_beq heq)
      rw [List.length_replicate] at hlength
      exact absurd (hshort k hk) (by omega)
    rw [TokenKind.ofWord, hnone, Option.getD_none]

/-- What holds of the content of every token that is scanned. -/
structure Token.Genuine (t : Token) : Prop where
  /-- An identifier is a word. -/
  identifier : t.kind = .identifier → t.content.IsIdentifier
  /-- A number is in range. -/
  number : t.kind = .number → decimalValue t.content ≤ Scanner.maxNumber

theorem Token.Genuine.value_nonneg {t : Token} (h : t.Genuine) : 0 ≤ t.value := by
  unfold Token.value
  split
  · rename_i hk
    have hle := h.number hk
    rw [Scanner.maxNumber] at hle
    rw [Int32.le_iff_toInt_le, Int32.toInt_ofNat_of_lt (by omega)]
    simp
  · decide

namespace Character

theorem isDigit_iff {b : UInt8} : isDigit b = true ↔ 0x30 ≤ b.toNat ∧ b.toNat ≤ 0x39 := by
  simp [isDigit, UInt8.le_iff_toNat_le]

theorem isWordStart_iff {b : UInt8} : isWordStart b = true ↔
    (0x61 ≤ b.toNat ∧ b.toNat ≤ 0x7A) ∨ (0x41 ≤ b.toNat ∧ b.toNat ≤ 0x5A) ∨ b.toNat = 0x5F := by
  simp [isWordStart, isLetter, isUnderscore, UInt8.le_iff_toNat_le, ← UInt8.toNat_inj, or_assoc]

theorem isWordPart_iff {b : UInt8} :
    isWordPart b = true ↔ isWordStart b = true ∨ isDigit b = true := by
  simp [isWordPart, isWordStart]

theorem isDigit_eq_false_of_isWordStart {b : UInt8} (h : isWordStart b = true) :
    isDigit b = false := by
  rw [isWordStart_iff] at h
  rw [← Bool.not_eq_true, isDigit_iff]
  omega

end Character

namespace Scanner

theorem ofWord_ne_number (word : Text) : TokenKind.ofWord word ≠ .number := by
  intro h
  unfold TokenKind.ofWord at h
  cases hf : TokenKind.keywords.find? fun k => k.spelling == word with
  | none =>
    rw [hf] at h
    exact absurd h (by decide)
  | some k =>
    have hmem := List.mem_of_find?_eq_some hf
    rw [hf, Option.getD_some] at h
    subst h
    exact absurd hmem (by decide)

/-- A byte that a word can start with starts a word. -/
theorem lexeme?_of_isWordStart {b : UInt8} (hb : Character.isWordStart b = true)
    (rest : List UInt8) :
    lexeme? b rest = some (.ofWord (b :: rest.takeWhile Character.isWordPart),
      (rest.takeWhile Character.isWordPart).length) := by
  have hne (c : Char) (hc : Character.isWordStart (Character.byte c) = false) :
      b ≠ Character.byte c := by
    rintro rfl
    rw [hb] at hc
    exact absurd hc (by decide)
  have hdigit := Character.isDigit_eq_false_of_isWordStart hb
  unfold lexeme?
  dsimp only
  rw [if_neg (hne '/' rfl), if_neg (hne '=' rfl), if_neg (hne '<' rfl), if_neg (hne '>' rfl),
    if_neg (hne '\x7b' rfl), if_neg (hne '\x7d' rfl), if_neg (hne '(' rfl), if_neg (hne ')' rfl),
    if_neg (hne ',' rfl), if_neg (hne ';' rfl), if_neg (hne '+' rfl), if_neg (hne '-' rfl),
    if_neg (hne '*' rfl), if_neg (by simp [hdigit]), if_pos hb]

/-- A digit starts a number. -/
theorem lexeme?_of_isDigit {b : UInt8} (hb : Character.isDigit b = true) (rest : List UInt8) :
    lexeme? b rest = some (.number, (rest.takeWhile Character.isDigit).length) := by
  have hne (c : Char) (hc : Character.isDigit (Character.byte c) = false) :
      b ≠ Character.byte c := by
    rintro rfl
    rw [hb] at hc
    exact absurd hc (by decide)
  unfold lexeme?
  dsimp only
  rw [if_neg (hne '/' rfl), if_neg (hne '=' rfl), if_neg (hne '<' rfl), if_neg (hne '>' rfl),
    if_neg (hne '\x7b' rfl), if_neg (hne '\x7d' rfl), if_neg (hne '(' rfl), if_neg (hne ')' rfl),
    if_neg (hne ',' rfl), if_neg (hne ';' rfl), if_neg (hne '+' rfl), if_neg (hne '-' rfl),
    if_neg (hne '*' rfl), if_pos hb]

/-- Only a byte that a word can start with starts an identifier. -/
theorem isWordStart_of_lexeme? {b : UInt8} {rest : List UInt8} {more : Nat}
    (h : lexeme? b rest = some (.identifier, more)) : Character.isWordStart b = true := by
  cases hb : Character.isWordStart b with
  | true => rfl
  | false =>
  unfold lexeme? at h
  simp only [hb, ite_eq_iff, Option.some.injEq, Prod.mk.injEq, reduceCtorEq, false_and, and_false,
    or_false, Bool.false_eq_true] at h

/-- What is scanned as an identifier is one. -/
theorem isIdentifier_of_lexeme? {b : UInt8} {rest : List UInt8} {more : Nat}
    (h : lexeme? b rest = some (.identifier, more)) :
    Text.IsIdentifier (b :: rest.take more) := by
  have hb := isWordStart_of_lexeme? h
  rw [lexeme?_of_isWordStart hb, Option.some.injEq, Prod.mk.injEq] at h
  obtain ⟨hkind, rfl⟩ := h
  have htake : rest.take (rest.takeWhile Character.isWordPart).length =
      rest.takeWhile Character.isWordPart :=
    (List.prefix_iff_eq_take.1 (List.takeWhile_prefix _)).symm
  rw [htake]
  refine ⟨⟨b, _, rfl, hb, ?_⟩, hkind⟩
  intro c hc
  exact List.all_eq_true.1 List.all_takeWhile c hc

/-- Every token of a scanned text is genuine. -/
theorem scanBytes_genuine (inComment : Bool) (line column : Nat) (bytes : List UInt8) :
    ∀ t ∈ (scanBytes inComment line column bytes).tokens, t.Genuine := by
  fun_induction scanBytes inComment line column bytes
  all_goals try simp only [List.not_mem_nil, false_implies, implies_true]
  all_goals try assumption
  rename_i b rest _ _ _ _ kind more hlex token hrange ih
  intro t ht
  rcases List.mem_cons.1 ht with rfl | ht
  · constructor
    · rintro (rfl : kind = _)
      exact isIdentifier_of_lexeme? hlex
    · rintro (rfl : kind = _)
      exact Nat.le_of_not_lt fun hlt => hrange ⟨rfl, hlt⟩
  · exact ih t ht

end Scanner

theorem Token.genuine_of_ofText {text : Text} {tokens : List Token}
    (h : Token.ofText text = .ok tokens) : ∀ t ∈ tokens, t.Genuine := by
  unfold Token.ofText Scanner.scan at h
  dsimp only at h
  split at h
  · simp only [Except.ok.injEq, List.nil_append] at h
    subst h
    exact Scanner.scanBytes_genuine _ _ _ _
  · exact absurd h (by simp)
  · exact absurd h (by simp)

end Classwright
