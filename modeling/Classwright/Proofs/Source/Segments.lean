import Classwright.Proofs.Source.Lexemes
import Classwright.Proofs.Source.Places
import Mathlib.Data.List.Infix

/-!
# The segments of a source text

A source text is made of blanks, comments and lexemes.  What stands behind a segment shows that it
ends there (`Segment.Ends`): a lexeme is as long as it can be, a `//` comment goes to the end of its
line, and a `/*` comment to the first `*/` behind its opening.
`Divides text segments rest` says that a text begins with such segments and goes on with `rest`.
Every text is divided to its end, or up to something that starts no segment (`Halts`,
`exists_division`).
-/

namespace Classwright

open Character (byte)

/-- No comment is closed in the text. -/
def Text.Unclosed (t : Text) : Prop :=
  ¬ [byte '*', byte '/'] <:+: t

/-- A segment of a source text. -/
inductive Segment where
  /-- A blank. -/
  | blank (b : UInt8)
  /-- A comment behind `//`. -/
  | lineComment (inside : Text)
  /-- A comment between `/*` and `*/`. -/
  | blockComment (inside : Text)
  /-- A word, a number or a symbol. -/
  | lexeme (l : Lexeme)

namespace Segment

/-- The bytes of a segment. -/
def bytes : Segment → Text
  | blank b => [b]
  | lineComment inside => byte '/' :: byte '/' :: inside
  | blockComment inside => byte '/' :: byte '*' :: (inside ++ [byte '*', byte '/'])
  | lexeme l => l.content

/-- A segment that reaches up to `rest` and no further. -/
inductive Ends (rest : Text) : Segment → Prop
  | blank {b : UInt8} (hb : Character.isBlank b = true) : Ends rest (blank b)
  | lineComment {inside : Text} (hinside : Character.lineFeed ∉ inside)
      (hrest : ∀ c, rest.head? = some c → c = Character.lineFeed) : Ends rest (lineComment inside)
  /-- The first `*/` behind the opening is the closing. -/
  | blockComment {inside : Text} (hinside : inside.Unclosed) : Ends rest (blockComment inside)
  | lexeme {l : Lexeme} (hl : l.Ends rest) : Ends rest (lexeme l)

end Segment

/-- The text is made of these segments and then of `rest`. -/
inductive Divides : Text → List Segment → Text → Prop
  | nil (rest : Text) : Divides rest [] rest
  | cons {segment : Segment} {text rest : Text} {segments : List Segment}
      (hsegment : segment.Ends text) (h : Divides text segments rest) :
      Divides (segment.bytes ++ text) (segment :: segments) rest

/-- The text starts with no segment, for this cause. -/
inductive Halts : Text → Cause → Prop
  | unknown {b : UInt8} {rest : Text} (hblank : Character.isBlank b = false)
      (hsymbol : Character.isSymbol b = false) (hword : Character.isWordPart b = false) :
      Halts (b :: rest) (.unknownCharacter b)
  | number {digits rest : Text} (hne : digits ≠ [])
      (hdigits : ∀ c ∈ digits, Character.isDigit c = true)
      (hrest : ∀ c, rest.head? = some c → Character.isDigit c = false)
      (hrange : Scanner.maxNumber < decimalValue digits) :
      Halts (digits ++ rest) (.numberOutOfRange digits)
  | comment {inside : Text} (hinside : inside.Unclosed) :
      Halts (byte '/' :: byte '*' :: inside) .unclosedComment

/-! ### Comments -/

namespace Text

theorem unclosed_nil : Unclosed [] := by
  rw [Unclosed, List.infix_nil]
  exact List.cons_ne_nil _ _

theorem unclosed_cons {b : UInt8} {t : Text} :
    Unclosed (b :: t) ↔ ¬ (b = byte '*' ∧ t.head? = some (byte '/')) ∧ Unclosed t := by
  have hprefix : [byte '/'] <+: t ↔ t.head? = some (byte '/') := by
    cases t with
    | nil => simp
    | cons c t => simp [List.cons_prefix_cons, eq_comm]
  rw [Unclosed, List.infix_cons_iff, List.cons_prefix_cons, hprefix, not_or, Unclosed, eq_comm]

/-- A comment that is closed has a first place where it is. -/
theorem exists_of_not_unclosed {t : Text} (h : ¬ Unclosed t) : ∃ inside rest,
    t = inside ++ ([byte '*', byte '/'] ++ rest) ∧ Unclosed inside := by
  induction t with
  | nil => exact absurd unclosed_nil h
  | cons b t ih =>
    by_cases hclose : b = byte '*' ∧ t.head? = some (byte '/')
    · obtain ⟨rfl, hhead⟩ := hclose
      obtain ⟨rest, rfl⟩ := List.head?_eq_some_iff.1 hhead
      exact ⟨[], rest, rfl, unclosed_nil⟩
    · have ht : ¬ Unclosed t := fun ht => h (unclosed_cons.2 ⟨hclose, ht⟩)
      obtain ⟨inside, rest, rfl, hinside⟩ := ih ht
      refine ⟨b :: inside, rest, rfl, unclosed_cons.2 ⟨fun hb => hclose ⟨hb.1, ?_⟩, hinside⟩⟩
      cases inside with
      | nil => cases hb.2
      | cons c inside => exact hb.2

end Text

/-! ### Divisions -/

namespace Segment

theorem Ends.bytes_ne_nil {segment : Segment} {rest : Text} (h : segment.Ends rest) :
    segment.bytes ≠ [] := by
  cases h with
  | blank | lineComment | blockComment => exact List.cons_ne_nil _ _
  | lexeme hl =>
    obtain ⟨b, part, hcontent, -⟩ := hl.exists_takes
    rw [bytes, hcontent]
    exact List.cons_ne_nil b part

/-- A run of bytes of one kind at the front of a text. -/
theorem exists_run (P : UInt8 → Bool) (t : Text) : ∃ part rest, t = part ++ rest ∧
    (∀ c ∈ part, P c = true) ∧ ∀ c, rest.head? = some c → P c = false := by
  refine ⟨t.takeWhile P, t.dropWhile P, List.takeWhile_append_dropWhile.symm,
    fun c hc => List.all_eq_true.1 List.all_takeWhile c hc, fun c hc => ?_⟩
  have hhead := List.head?_dropWhile_not P t
  rw [hc] at hhead
  exact hhead

/-- A symbol other than a slash starts with its byte, and takes an equals sign in. -/
theorem exists_symbol {b : UInt8} (hb : Character.isSymbol b = true) (hslash : b ≠ byte '/')
    (rest : Text) :
    ∃ (l : Lexeme) (rest' : Text), b :: rest = l.content ++ rest' ∧ l.Ends rest' := by
  have hplain (k : TokenKind) (hk : k ∈ TokenKind.symbols)
      (hother : k ∉ [TokenKind.assign, .less, .greater, .divide]) (hspelling : k.spelling = [b]) :
      ∃ (l : Lexeme) (rest' : Text), b :: rest = l.content ++ rest' ∧ l.Ends rest' := by
    refine ⟨k.lexeme, rest, ?_, .symbol hk (fun h => absurd ?_ hother) fun h => absurd ?_ hother⟩
    · rw [TokenKind.lexeme, hspelling, List.singleton_append]
    · simp only [List.mem_cons, List.not_mem_nil, or_false] at h ⊢
      tauto
    · simp [h]
  have hequal (k k' : TokenKind) (hk : k ∈ TokenKind.symbols) (hk' : k' ∈ TokenKind.symbols)
      (hdivide : k ≠ .divide) (hlonger : k' ∉ [TokenKind.assign, .less, .greater, .divide])
      (hspelling : k.spelling = [b]) (hspelling' : k'.spelling = [b, byte '=']) :
      ∃ (l : Lexeme) (rest' : Text), b :: rest = l.content ++ rest' ∧ l.Ends rest' := by
    by_cases hhead : rest.head? = some (byte '=')
    · obtain ⟨rest, rfl⟩ := List.head?_eq_some_iff.1 hhead
      refine ⟨k'.lexeme, rest, ?_, .symbol hk' (fun h => absurd ?_ hlonger)
        fun h => absurd ?_ hlonger⟩
      · rw [TokenKind.lexeme, hspelling']
        rfl
      · simp only [List.mem_cons, List.not_mem_nil, or_false] at h ⊢
        tauto
      · simp [h]
    · refine ⟨k.lexeme, rest, ?_, .symbol hk (fun _ => hhead) fun h => absurd h hdivide⟩
      rw [TokenKind.lexeme, hspelling, List.singleton_append]
  -- One case for each byte, in the order in which the symbols are listed.
  simp only [Character.isSymbol, List.any_cons, List.any_nil, Bool.or_false, Bool.or_eq_true,
    beq_iff_eq] at hb
  rcases hb with rfl | rfl | rfl | rfl | rfl | rfl | rfl | rfl | rfl | rfl | rfl | rfl | rfl
  · exact hplain .leftBrace (by decide) (by decide) rfl
  · exact hplain .rightBrace (by decide) (by decide) rfl
  · exact hplain .leftParen (by decide) (by decide) rfl
  · exact hplain .rightParen (by decide) (by decide) rfl
  · exact hplain .comma (by decide) (by decide) rfl
  · exact hplain .semicolon (by decide) (by decide) rfl
  · exact hequal .assign .equal (by decide) (by decide) (by decide) (by decide) rfl rfl
  · exact hequal .less .lessEqual (by decide) (by decide) (by decide) (by decide) rfl rfl
  · exact hequal .greater .greaterEqual (by decide) (by decide) (by decide) (by decide) rfl rfl
  · exact hplain .plus (by decide) (by decide) rfl
  · exact hplain .minus (by decide) (by decide) rfl
  · exact hplain .times (by decide) (by decide) rfl
  · exact absurd rfl hslash

/-- What starts with a slash is a comment, perhaps one that is never closed, or the symbol. -/
theorem exists_slash (rest : Text) :
    (∃ (segment : Segment) (rest' : Text),
        byte '/' :: rest = segment.bytes ++ rest' ∧ segment.Ends rest') ∨
      Halts (byte '/' :: rest) .unclosedComment := by
  by_cases hline : rest.head? = some (byte '/')
  · obtain ⟨rest, rfl⟩ := List.head?_eq_some_iff.1 hline
    obtain ⟨inside, rest, rfl, hinside, hrest⟩ := exists_run (· != Character.lineFeed) rest
    refine Or.inl ⟨.lineComment inside, rest, rfl, .lineComment (fun hmem => ?_) fun c hc => ?_⟩
    · simpa using hinside _ hmem
    · simpa using hrest c hc
  · by_cases hblock : rest.head? = some (byte '*')
    · obtain ⟨rest, rfl⟩ := List.head?_eq_some_iff.1 hblock
      by_cases hclosed : Text.Unclosed rest
      · exact Or.inr (.comment hclosed)
      · obtain ⟨inside, rest, rfl, hinside⟩ := Text.exists_of_not_unclosed hclosed
        refine Or.inl ⟨.blockComment inside, rest, ?_, .blockComment hinside⟩
        simp [bytes]
    · exact Or.inl ⟨.lexeme TokenKind.divide.lexeme, rest, rfl,
        .lexeme (.symbol (by decide) (fun h => absurd h (by decide)) fun _ => ⟨hline, hblock⟩)⟩

/-- Every byte starts a segment, or stops the division. -/
theorem exists_segment (b : UInt8) (rest : Text) :
    (∃ (segment : Segment) (rest' : Text),
        b :: rest = segment.bytes ++ rest' ∧ segment.Ends rest') ∨
      ∃ cause, Halts (b :: rest) cause := by
  by_cases hblank : Character.isBlank b = true
  · exact Or.inl ⟨.blank b, rest, rfl, .blank hblank⟩
  by_cases hdigit : Character.isDigit b = true
  · obtain ⟨digits, rest, rfl, hdigits, hrest⟩ := exists_run Character.isDigit rest
    have hall : ∀ c ∈ b :: digits, Character.isDigit c = true :=
      List.forall_mem_cons.2 ⟨hdigit, hdigits⟩
    rcases Nat.lt_or_ge Scanner.maxNumber (decimalValue (b :: digits)) with hlt | hle
    · exact Or.inr ⟨_, .number (List.cons_ne_nil b digits) hall hrest hlt⟩
    · exact Or.inl ⟨.lexeme ⟨.number, b :: digits⟩, rest, rfl,
        .lexeme (.number (List.cons_ne_nil b digits) hall hrest hle)⟩
  by_cases hstart : Character.isWordStart b = true
  · obtain ⟨part, rest, rfl, hpart, hrest⟩ := exists_run Character.isWordPart rest
    exact Or.inl ⟨.lexeme ⟨.ofWord (b :: part), b :: part⟩, rest, rfl,
      .lexeme (.word hstart hpart hrest)⟩
  by_cases hslash : b = byte '/'
  · subst hslash
    exact (exists_slash rest).imp_right fun h => ⟨_, h⟩
  by_cases hsymbol : Character.isSymbol b = true
  · obtain ⟨l, rest', hl, hends⟩ := exists_symbol hsymbol hslash rest
    exact Or.inl ⟨.lexeme l, rest', hl, .lexeme hends⟩
  · refine Or.inr ⟨_, .unknown (Bool.eq_false_iff.2 hblank) (Bool.eq_false_iff.2 hsymbol) ?_⟩
    rw [← Bool.not_eq_true, Character.isWordPart_iff, not_or]
    exact ⟨hstart, hdigit⟩

end Segment

namespace Divides

/-- The bytes of the segments and the rest are those of the text. -/
theorem text_eq {text rest : Text} {segments : List Segment} (h : Divides text segments rest) :
    text = segments.flatMap Segment.bytes ++ rest := by
  induction h with
  | nil => rfl
  | cons _ _ ih => rw [List.flatMap_cons, List.append_assoc, ← ih]

end Divides

/-- **Every text can be divided**, to its end or up to what starts no segment. -/
theorem exists_division (text : Text) :
    ∃ segments rest, Divides text segments rest ∧ (rest = [] ∨ ∃ cause, Halts rest cause) := by
  induction hn : text.length using Nat.strongRecOn generalizing text with
  | ind n ih =>
    cases text with
    | nil => exact ⟨[], [], .nil [], Or.inl rfl⟩
    | cons b text =>
      rcases Segment.exists_segment b text with ⟨segment, rest, htext, hends⟩ | hhalts
      · have hpos := List.length_pos_of_ne_nil hends.bytes_ne_nil
        have hlt : rest.length < n := by
          rw [← hn, htext, List.length_append]
          omega
        obtain ⟨segments, rest', hdivides, hrest'⟩ := ih _ hlt rest rfl
        rw [htext]
        exact ⟨segment :: segments, rest', .cons hends hdivides, hrest'⟩
      · exact ⟨[], b :: text, .nil _, Or.inr hhalts⟩

end Classwright
