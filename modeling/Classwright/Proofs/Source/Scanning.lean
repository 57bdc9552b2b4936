import Classwright.Proofs.Source.Lexemes

/-!
# Steps of the scanner

What the scanner does with each thing that a text can go on with: a line feed, another blank, a
comment, what stands inside a comment, and a lexeme.
-/

namespace Classwright

namespace Scanner

open Character (byte lineFeed)

variable (inComment : Bool) (line column : Nat)

theorem scanBytes_nil : scanBytes inComment line column [] =
    ⟨[], line, none, if inComment then .inComment else .complete⟩ := by
  rw [scanBytes]

theorem scanBytes_lineFeed (rest : Text) :
    scanBytes inComment line column (lineFeed :: rest) = scanBytes inComment (line + 1) 0 rest := by
  cases inComment with
  | true =>
    have hstar : ¬ (lineFeed = byte '*' ∧ rest.head? = some (byte '/')) :=
      fun h => absurd h.1 (by decide)
    rw [scanBytes]
    simp only [if_neg hstar, if_pos]
  | false =>
    rw [scanBytes]
    simp only [if_pos]

/-! ### Outside comments -/

section Outside

variable {line column}

theorem scanBytes_blank {b : UInt8} (hb : Character.isBlank b = true) (hline : b ≠ lineFeed)
    (rest : Text) :
    scanBytes false line column (b :: rest) = scanBytes false line (column + 1) rest := by
  rw [scanBytes]
  simp only [if_neg hline, if_pos hb]

theorem scanBytes_lineComment {inside rest : Text} (hinside : lineFeed ∉ inside)
    (hrest : ∀ c, rest.head? = some c → c = lineFeed) :
    scanBytes false line column (byte '/' :: byte '/' :: (inside ++ rest)) =
      scanBytes false line (column + (2 + inside.length)) rest := by
  have htake : ((byte '/' :: inside) ++ rest).takeWhile (· != lineFeed) = byte '/' :: inside := by
    refine takeWhile_append (List.forall_mem_cons.2 ⟨by decide, fun b hb => ?_⟩) fun b hb => ?_
    · simpa using fun h : b = lineFeed => hinside (h ▸ hb)
    · simpa using hrest b hb
  rw [List.cons_append] at htake
  have hcolumn : column + 1 + (inside.length + 1) = column + (2 + inside.length) := by omega
  rw [scanBytes]
  simp only [List.head?_cons, htake]
  rw [if_neg (by decide), if_neg (by decide), if_pos (by decide), List.length_cons,
    List.drop_succ_cons, List.drop_left, hcolumn]

theorem scanBytes_slashStar (rest : Text) :
    scanBytes false line column (byte '/' :: byte '*' :: rest) =
      (scanBytes true line (column + 2) rest).opening ⟨line, column + 1⟩ := by
  rw [scanBytes]
  simp only [List.head?_cons, List.drop_succ_cons, List.drop_zero]
  rw [if_neg (by decide), if_neg (by decide), if_neg (by decide), if_pos (by decide)]

theorem scanBytes_takes {kind : TokenKind} {b : UInt8} {part rest : Text}
    (h : Takes kind b part rest) : scanBytes false line column (b :: (part ++ rest)) =
      (scanBytes false line (column + (1 + part.length)) rest).cons
        ⟨kind, b :: part, line, column⟩ := by
  have hline : b ≠ lineFeed := by
    rintro rfl
    exact absurd h.blank (by decide)
  have hblank : ¬ Character.isBlank b = true := by simp [h.blank]
  have hslash : ¬ (b = byte '/' ∧ (part ++ rest).head? = some (byte '/')) :=
    fun hb => (h.comment hb.1).1 hb.2
  have hstar : ¬ (b = byte '/' ∧ (part ++ rest).head? = some (byte '*')) :=
    fun hb => (h.comment hb.1).2 hb.2
  have hrange : ¬ (kind = .number ∧ maxNumber < decimalValue (b :: part)) :=
    fun hkind => Nat.not_lt_of_le (h.number hkind.1) hkind.2
  rw [scanBytes]
  simp only [if_neg hline, if_neg hblank, if_neg hslash, if_neg hstar, h.lexeme, List.take_left,
    List.drop_left, if_neg hrange, Nat.add_assoc]

/-- A byte that starts nothing stops the scan. -/
theorem scanBytes_unknown {b : UInt8} (hblank : Character.isBlank b = false)
    (hsymbol : Character.isSymbol b = false) (hword : Character.isWordPart b = false)
    (rest : Text) : scanBytes false line column (b :: rest) =
      ⟨[], line, none, .failed ⟨.unknownCharacter b, ⟨line, column + 1⟩⟩⟩ := by
  have hline : b ≠ lineFeed := by
    rintro rfl
    exact absurd hblank (by decide)
  have hne (c : Char) (hc : Character.isSymbol (byte c) = true) : b ≠ byte c := by
    rintro rfl
    rw [hc] at hsymbol
    cases hsymbol
  have hslash : b ≠ byte '/' := hne '/' (by decide)
  rw [← Bool.not_eq_true, Character.isWordPart_iff, not_or] at hword
  have hlexeme : lexeme? b rest = none := by
    unfold lexeme?
    simp only [if_neg hslash, if_neg (hne '=' (by decide)), if_neg (hne '<' (by decide)),
      if_neg (hne '>' (by decide)), if_neg (hne '\x7b' (by decide)),
      if_neg (hne '\x7d' (by decide)), if_neg (hne '(' (by decide)), if_neg (hne ')' (by decide)),
      if_neg (hne ',' (by decide)), if_neg (hne ';' (by decide)), if_neg (hne '+' (by decide)),
      if_neg (hne '-' (by decide)), if_neg (hne '*' (by decide)), if_neg hword.1, if_neg hword.2]
  rw [scanBytes]
  simp only [if_neg hline, hblank, Bool.false_eq_true, if_false, hslash, false_and, hlexeme]

/-- A number out of range stops the scan. -/
theorem scanBytes_outOfRange {b : UInt8} {part rest : Text}
    (hdigits : ∀ c ∈ b :: part, Character.isDigit c = true)
    (hrest : ∀ c, rest.head? = some c → Character.isDigit c = false)
    (hrange : maxNumber < decimalValue (b :: part)) :
    scanBytes false line column (b :: (part ++ rest)) =
      ⟨[], line, none, .failed ⟨.numberOutOfRange (b :: part), ⟨line, column + 1⟩⟩⟩ := by
  rw [List.forall_mem_cons] at hdigits
  have hblank : Character.isBlank b = false :=
    Character.isBlank_eq_false_of_isWordPart (Character.isWordPart_iff.2 (Or.inr hdigits.1))
  have hline : b ≠ lineFeed := by
    rintro rfl
    exact absurd hblank (by decide)
  have hslash : b ≠ byte '/' := by
    rintro rfl
    exact absurd hdigits.1 (by decide)
  have hlexeme : lexeme? b (part ++ rest) = some (.number, part.length) := by
    rw [lexeme?_of_isDigit hdigits.1, takeWhile_append hdigits.2 hrest]
  rw [scanBytes]
  simp only [if_neg hline, hblank, Bool.false_eq_true, if_false, hslash, false_and, hlexeme,
    List.take_left, hrange, and_self, if_true]
  rfl

end Outside

/-! ### Inside comments -/

section Inside

variable {line column}

theorem scanBytes_starSlash (rest : Text) :
    scanBytes true line column (byte '*' :: byte '/' :: rest) =
      scanBytes false line (column + 2) rest := by
  rw [scanBytes]
  simp only [List.head?_cons, List.drop_succ_cons, List.drop_zero]
  rw [if_pos (by decide)]

theorem scanBytes_inside {b : UInt8} {rest : Text}
    (hclose : ¬ (b = byte '*' ∧ rest.head? = some (byte '/'))) (hline : b ≠ lineFeed) :
    scanBytes true line column (b :: rest) = scanBytes true line (column + 1) rest := by
  rw [scanBytes]
  simp only [if_neg hclose, if_neg hline]

end Inside

end Scanner

end Classwright
