import Classwright.Proofs.Source.Scanned

/-!
# The tokens of a text

Where the tokens of a text stand in it.  A token is a part of its line and as long as it can be
(`Token.StandsIn`), and every token stands in front of those that come after it
(`Token.Precedes`).  With the division of the text into segments this says what the scanner does
with every byte, and when it gives up (`Token.ofText_splits`).
-/

namespace Classwright

open Character (byte)

namespace Token

/-- The token stands in front of another one and shares no byte with it. -/
def Precedes (t u : Token) : Prop :=
  t.line < u.line ∨ t.line = u.line ∧ t.start < u.start ∧ t.stop ≤ u.start

/-- The token is a part of the bytes of a line, as long as it can be, and is what its bytes say. -/
structure StandsOn (bytes : Text) (t : Token) : Prop where
  nonempty : t.start < t.stop
  within : t.stop ≤ bytes.length
  /-- Its content is what stands there from its start to its end. -/
  slice : (bytes.take t.stop).drop t.start = t.content
  /-- The byte behind a word does not continue it. -/
  word : t.kind ∈ TokenKind.keywords ∨ t.kind = .identifier →
    ∀ b, bytes[t.stop]? = some b → Character.isWordPart b = false
  /-- The byte behind a number does not continue it. -/
  number : t.kind = .number → ∀ b, bytes[t.stop]? = some b → Character.isDigit b = false
  /-- A sign takes an equals sign in. -/
  absorbs : t.kind ∈ [TokenKind.assign, .less, .greater] → bytes[t.stop]? ≠ some (byte '=')
  /-- It is a keyword exactly if it is spelled as one. -/
  keyword : ∀ k ∈ TokenKind.keywords, t.kind = k ↔ t.content = k.spelling
  /-- A number is made of digits and has the value that they have. -/
  value : t.kind = .number → (∀ c ∈ t.content, Character.isDigit c = true) ∧
    t.value.toInt = decimalValue t.content

/-- The token stands on its line in the text. -/
def StandsIn (text : Text) (t : Token) : Prop :=
  0 < t.line ∧ ∃ line, text.lines[t.line - 1]? = some line ∧ t.StandsOn line

end Token

/-! ### A token in its line -/

namespace Lexeme.Ends

variable {l : Lexeme} {rest : Text}

theorem content_ne_nil (h : l.Ends rest) : l.content ≠ [] := by
  obtain ⟨b, part, hcontent, -⟩ := h.exists_takes
  rw [hcontent]
  exact List.cons_ne_nil b part

theorem toInt_value (h : l.Ends rest) (hkind : l.kind = .number) (front : Text) :
    (l.behind front).value.toInt = decimalValue l.content := by
  have hle := (h.of_number hkind).2
  rw [Scanner.maxNumber] at hle
  have hvalue : (l.behind front).value = Int32.ofNat (decimalValue l.content) := if_pos hkind
  rw [hvalue, Int32.toInt_ofNat_of_lt (by omega)]

/-- **A lexeme that ends where it does stands in the text as a token.** -/
theorem standsIn (h : l.Ends rest) (front : Text) :
    (l.behind front).StandsIn (front ++ (l.content ++ rest)) := by
  obtain ⟨line, hline, hhead⟩ := Text.exists_line front h.lineFeed_notMem rest
  have hstop : (l.behind front).stop = (front.lastLine ++ l.content).length := by
    rw [List.length_append]
    rfl
  have hnext : (front.lastLine ++ (l.content ++ line))[(l.behind front).stop]? = rest.head? := by
    rw [hstop, ← List.append_assoc, List.getElem?_append_right (Nat.le_refl _), Nat.sub_self,
      ← hhead, List.head?_eq_getElem?]
  refine ⟨Nat.succ_pos _, _, hline, ?_⟩
  constructor
  case nonempty =>
    have hpos := List.length_pos_of_ne_nil h.content_ne_nil
    exact Nat.lt_add_of_pos_right hpos
  case within =>
    rw [hstop, ← List.append_assoc]
    simp
  case slice =>
    rw [hstop, ← List.append_assoc, List.take_left]
    exact List.drop_left
  case word =>
    intro hkind b hb
    rw [hnext] at hb
    exact h.stops hkind b hb
  case number =>
    intro hkind b hb
    rw [hnext] at hb
    exact (h.of_number hkind).1 b hb
  case absorbs =>
    intro hkind
    rw [hnext]
    exact h.head?_ne_equal hkind
  case keyword => exact fun k hk => h.kind_eq_keyword_iff hk
  case value => exact fun hkind => ⟨h.digits hkind, h.toInt_value hkind front⟩

end Lexeme.Ends

/-! ### The tokens of a division -/

namespace Divides

variable {text rest : Text} {segments : List Segment}

/-- Every token of a division comes from a lexeme in the text. -/
theorem exists_of_mem (h : Divides text segments rest) {front : Text} {t : Token}
    (ht : t ∈ Segment.tokens front segments) :
    ∃ (between : Text) (l : Lexeme) (back : Text), text = between ++ (l.content ++ back) ∧
      l.Ends back ∧ t = l.behind (front ++ between) := by
  induction h generalizing front with
  | nil => cases ht
  | @cons segment text rest segments hends _ ih =>
    -- what the recursion finds stands behind the bytes of the segment
    have hlater (hmem : t ∈ Segment.tokens (front ++ segment.bytes) segments) :
        ∃ (between : Text) (l : Lexeme) (back : Text),
          segment.bytes ++ text = between ++ (l.content ++ back) ∧
          l.Ends back ∧ t = l.behind (front ++ between) := by
      obtain ⟨between, l, back, rfl, hl, rfl⟩ := ih hmem
      exact ⟨segment.bytes ++ between, l, back, (List.append_assoc _ _ _).symm, hl,
        by rw [List.append_assoc]⟩
    cases hends with
    | blank | lineComment | blockComment => exact hlater ht
    | @lexeme l hl =>
      rcases List.mem_cons.1 ht with rfl | hmem
      · exact ⟨[], l, text, rfl, hl, by rw [List.append_nil]⟩
      · exact hlater hmem

/-- **The tokens of a division stand one behind the other.** -/
theorem pairwise (h : Divides text segments rest) (front : Text) :
    (Segment.tokens front segments).Pairwise Token.Precedes := by
  induction h generalizing front with
  | nil => exact List.Pairwise.nil
  | @cons segment text rest segments hends hdivides ih =>
    cases hends with
    | blank | lineComment | blockComment => exact ih _
    | @lexeme l hl =>
      refine List.Pairwise.cons (fun u hu => ?_) (ih _)
      obtain ⟨between, l', back, -, -, rfl⟩ := hdivides.exists_of_mem hu
      have hpos := List.length_pos_of_ne_nil hl.content_ne_nil
      have hplace := Text.lineBehind_lt_or front (l.content ++ between)
      rw [← List.append_assoc, List.length_append] at hplace
      simp only [Token.Precedes, Token.stop, Lexeme.behind]
      omega

theorem standsIn (h : Divides text segments rest) :
    ∀ t ∈ Segment.tokens [] segments, t.StandsIn text := by
  intro t ht
  obtain ⟨between, l, back, rfl, hl, rfl⟩ := h.exists_of_mem ht
  exact hl.standsIn between

end Divides

/-- **The scanner splits a text by longest match.**  A text is accepted exactly if it is divided
into blanks, comments and lexemes to its end; its tokens are the lexemes of the division, stand one
behind the other, and each is a part of its line that could not be longer.  A text is refused
exactly if its division comes to a byte that starts nothing, to a number out of range or to a
comment that is never closed, and the error is that one. -/
theorem Token.ofText_splits (text : Text) :
    (∀ tokens, ofText text = .ok tokens ↔
      ∃ segments, Divides text segments [] ∧ Segment.tokens [] segments = tokens) ∧
    (∀ tokens, ofText text = .ok tokens →
      tokens.Pairwise Precedes ∧ ∀ t ∈ tokens, t.StandsIn text) ∧
    ∀ e, ofText text = .error e ↔ ∃ segments rest cause, Divides text segments rest ∧
      Halts rest cause ∧ e = ⟨cause, Text.place (segments.flatMap Segment.bytes)⟩ := by
  refine ⟨fun tokens => ofText_eq_ok_iff, fun tokens htext => ?_, fun e => ofText_eq_error_iff⟩
  obtain ⟨segments, hdivides, rfl⟩ := ofText_eq_ok_iff.1 htext
  exact ⟨hdivides.pairwise [], hdivides.standsIn⟩

/-- The star of an opening is no part of a closing. -/
example : Token.ofText ("a<=007/*/*/;".toList.map byte) =
    .ok [⟨.identifier, [0x61], 1, 0⟩, ⟨.lessEqual, [0x3C, 0x3D], 1, 1⟩,
      ⟨.number, [0x30, 0x30, 0x37], 1, 3⟩, ⟨.semicolon, [0x3B], 1, 11⟩] := by
  decide +kernel

end Classwright
