import Classwright.Proofs.Check.Checked
import Classwright.Proofs.Positions.CheckErrors
import Classwright.Proofs.Positions.LimitErrors
import Classwright.Proofs.Positions.SyntaxErrors
import Classwright.Proofs.Source.Splitting

/-!
# Errors point into the source

A token stands behind some bytes of the text and its position is the place behind them
(`Token.BeginsAt`), so what stands at tokens stands at places of the text.  An error names such a
place: that of what starts no token, that of a token, or that behind the last token
(`CompileError.PointsInto`).  The stages of a compilation fail at tokens only, which gives
`Build.errors_point_into_text`.
-/

namespace Classwright

open Classwright.Parser

/-! ### Tokens in the text -/

/-- The token of the text that stands behind some of its bytes. -/
structure Token.BeginsAt (text front : Text) (t : Token) : Prop where
  /-- It is one of the tokens of the text. -/
  mem : ∃ tokens, ofText text = .ok tokens ∧ t ∈ tokens
  /-- Its bytes come next. -/
  bytes : ∃ back, text = front ++ (t.content ++ back)
  nonempty : t.content ≠ []
  /-- Its position is that of its first byte. -/
  position : t.position = front.place
  /-- Its end is that behind its last byte. -/
  endPosition : t.endPosition = Text.place (front ++ t.content)

variable {text : Text} {tokens : List Token}

theorem Token.exists_beginsAt (h : ofText text = .ok tokens) {t : Token} (ht : t ∈ tokens) :
    ∃ front, t.BeginsAt text front := by
  obtain ⟨segments, hdivides, rfl⟩ := ofText_eq_ok_iff.1 h
  obtain ⟨front, l, back, htext, hl, hbehind⟩ := hdivides.exists_of_mem ht
  rw [List.nil_append] at hbehind
  have hcontent : t.content = l.content := congrArg Token.content hbehind
  have hend : t.endPosition = Text.place (front ++ t.content) := by
    rw [hcontent, Text.place, Text.lineBehind_append hl.lineFeed_notMem,
      Text.lastLine_append hl.lineFeed_notMem, List.length_append, hbehind]
    rfl
  refine ⟨front, ⟨_, h, ht⟩, ⟨back, hcontent ▸ htext⟩, ?_, ?_, hend⟩
  · rw [hcontent]
    exact hl.content_ne_nil
  · rw [hbehind]
    rfl

/-! ### Errors -/

/-- Where a text is refused, and for what. -/
inductive CompileError.PointsInto (text : Text) : CompileError → Prop
  /-- Behind some segments comes what starts none: an unknown byte, a number that is too large, or a
  comment that is never closed. -/
  | halt {segments : List Segment} {rest : Text} {cause : Cause}
      (hdivides : Divides text segments rest) (hrest : Halts rest cause) :
      PointsInto text ⟨cause, Text.place (segments.flatMap Segment.bytes)⟩
  /-- The error is at a token. -/
  | token {t : Token} {front : Text} {cause : Cause} (ht : t.BeginsAt text front)
      (hcause : cause.isLexical = false) : PointsInto text ⟨cause, front.place⟩
  /-- The tokens end too soon, behind the last one. -/
  | ending {tokens : List Token} {last : Token} {front : Text} {cause : Cause}
      (htokens : Token.ofText text = .ok tokens) (hlast : tokens.getLast? = some last)
      (hfront : last.BeginsAt text front)
      (hkind : cause.kind = .unexpectedEnd ∨ cause.kind = .badCondition) :
      PointsInto text ⟨cause, Text.place (front ++ last.content)⟩
  /-- There are no tokens. -/
  | empty {cause : Cause} (htokens : Token.ofText text = .ok [])
      (hkind : cause.kind = .unexpectedEnd ∨ cause.kind = .badCondition) :
      PointsInto text ⟨cause, ⟨1, 1⟩⟩

namespace CompileError

variable {e : CompileError}

theorem AtToken.pointsInto (h : e.AtToken tokens) (htokens : Token.ofText text = .ok tokens) :
    e.PointsInto text := by
  obtain ⟨cause, position⟩ := e
  obtain ⟨⟨t, ht, rfl⟩, hcause⟩ := h
  obtain ⟨front, hfront⟩ := Token.exists_beginsAt htokens ht
  rw [hfront.position]
  exact .token hfront hcause

theorem pointsInto_of_end (htokens : Token.ofText text = .ok tokens)
    (hkind : e.kind = .unexpectedEnd ∨ e.kind = .badCondition)
    (hend : e.position = endOfTokens tokens) : e.PointsInto text := by
  obtain ⟨cause, position⟩ := e
  obtain rfl : position = endOfTokens tokens := hend
  unfold endOfTokens
  cases hlast : tokens.getLast? with
  | none =>
    obtain rfl := List.getLast?_eq_none_iff.1 hlast
    exact .empty htokens hkind
  | some last =>
    obtain ⟨front, hfront⟩ := Token.exists_beginsAt htokens (List.mem_of_getLast? hlast)
    dsimp only
    rw [hfront.endPosition]
    exact .ending htokens hlast hfront hkind

end CompileError

/-- A text that cannot be parsed is refused at one of its places. -/
theorem Program.pointsInto_of_ofText {e : CompileError} (h : ofText text = .error e) :
    e.PointsInto text := by
  rcases bind_eq_error.1 h with htext | ⟨tokens, htokens, h⟩
  · obtain ⟨segments, rest, cause, hdivides, hrest, rfl⟩ := Token.ofText_eq_error_iff.1 htext
    exact .halt hdivides hrest
  · rcases atToken_of_ofTokens h with htoken | ⟨hkind, hend⟩
    · exact htoken.pointsInto htokens
    · exact CompileError.pointsInto_of_end htokens hkind hend

/-! ### Compilations -/

namespace Build

variable {p : Program}

/-- A program that has been parsed takes its positions from the tokens of the text. -/
theorem exists_placed (h : Program.ofText text = .ok p) :
    ∃ tokens, Token.ofText text = .ok tokens ∧ p.Placed tokens := by
  obtain ⟨tokens, htokens, hp⟩ := bind_eq_ok.1 h
  exact ⟨tokens, htokens, Program.placed_of_ofTokens hp⟩

/-- So does one that has been compiled. -/
theorem exists_placed_of_result {f : ClassFile} (h : (ofText text).result = .ok (p, f)) :
    ∃ tokens, Token.ofText text = .ok tokens ∧ p.Placed tokens := by
  obtain ⟨raw, hraw, -, hresolve, -⟩ := stages h
  obtain ⟨tokens, htokens, hplaced⟩ := exists_placed hraw
  refine ⟨tokens, htokens, ?_⟩
  have hlinked := hplaced.resolve
  rwa [hresolve] at hlinked

/-- Behind the search for unreachable code, the stages fail at tokens. -/
theorem atToken_of_check {raw : Program} (hraw : Program.ofText text = .ok raw)
    (hplaced : raw.Placed tokens) (hreach : raw.checkReachability = .ok ()) {log : List String}
    {e : CompileError} (h : (check log raw).result = .error (.compile e))
    (hkind : e.kind ≠ .constantPoolOverflow) : e.AtToken tokens := by
  unfold check at h
  dsimp only at h
  split at h
  · rename_i q e' hresolve
    cases h
    obtain ⟨group, hbuilt⟩ := Program.built_of_ofText hraw
    exact hplaced.atToken_of_resolve hbuilt.wellFormed.1 (by rw [hresolve])
  · rename_i q hresolve
    have hlinked := hplaced.resolve
    rw [hresolve] at hlinked
    split at h
    · rename_i e' hanalyze
      cases h
      exact hlinked.placed_analyze.atToken hanalyze
    · rename_i hanalyze
      have hpasses : Passes text q := ⟨raw, hraw, hreach, hresolve, hanalyze⟩
      unfold emit at h
      dsimp only at h
      split at h
      · rename_i e' hfile
        cases h
        exact hlinked.atToken_of_classFile hpasses.checked.wellFormed hfile hkind
      · cases h

theorem pointsInto_of_error {e : CompileError} (h : (ofText text).result = .error (.compile e))
    (hkind : e.kind ≠ .constantPoolOverflow) : e.PointsInto text := by
  unfold ofText at h
  split at h
  · rename_i e' he'
    cases h
    exact Program.pointsInto_of_ofText he'
  · rename_i raw hraw
    obtain ⟨tokens, htokens, hplaced⟩ := exists_placed hraw
    dsimp only at h
    split at h
    · rename_i e' he'
      cases h
      exact (hplaced.placed_checkReachability.atToken he').pointsInto htokens
    · rename_i hreach
      exact (atToken_of_check hraw hplaced hreach h hkind).pointsInto htokens

/-- **Every error points into the source**, unless it is that the constant pool is too large: to
what starts no token, to the first byte of a token or, when the tokens end too soon or in a
condition, behind the last one.  And every node of a program that is accepted begins with a token
of the source: an operation with the first name or number of its left side. -/
theorem errors_point_into_text (text : Text) :
    (∀ e, (ofText text).result = .error (.compile e) → e.kind ≠ .constantPoolOverflow →
      e.PointsInto text) ∧
    ∀ p, (Program.ofText text = .ok p ∨ ∃ f, (ofText text).result = .ok (p, f)) →
      ∀ id d, p.decl? id = some d → d.kind = .procedure → ∀ n ∈ d.body.nodes,
        ∃ (t : Token) (front : Text), t.BeginsAt text front ∧ n.StandsAt t ∧
          n.position = front.place ∧ ∀ op left right place, n = .binary op left right place →
            (t.kind = .identifier ∨ t.kind = .number) ∧ left.StandsAt t := by
  refine ⟨fun e => pointsInto_of_error, fun p hp id d hd hk n hn => ?_⟩
  have hplaced : ∃ tokens, Token.ofText text = .ok tokens ∧ p.Placed tokens := by
    rcases hp with hp | ⟨f, hp⟩
    · exact exists_placed hp
    · exact exists_placed_of_result hp
  obtain ⟨tokens, htokens, hplaced⟩ := hplaced
  obtain ⟨t, ht, hstands⟩ := (hplaced.bodies id d hd hk).standsAt n hn
  obtain ⟨front, hfront⟩ := Token.exists_beginsAt htokens ht
  refine ⟨t, front, hfront, hstands, hstands.position_eq.trans hfront.position, ?_⟩
  rintro op left right place rfl
  cases hstands with
  | binary hkind hleft => exact ⟨hkind, hleft⟩

/-- A class with an operation on a sum in parentheses and on a name that stands for nothing. -/
def undefinedSource : Text :=
  Text.ofString ("class E \x7b\n" ++
    " public int f(int a) \x7b return (a + 1) * b; \x7d \x7d")

set_option maxRecDepth 20000 in
/-- The name is refused where it stands, and the operation begins with the first name of the sum. -/
theorem errors_point_into_text_nested :
    (∃ e, (ofText undefinedSource).result = .error (.compile e) ∧
      e.kind ≠ .constantPoolOverflow ∧ e.position = ⟨2, 41⟩ ∧ e.PointsInto undefinedSource) ∧
    ∃ p d n, Program.ofText undefinedSource = .ok p ∧ p.decl? 0 = some d ∧ d.kind = .procedure ∧
      n ∈ d.body.nodes ∧ n.form = .binary ∧ n.position = ⟨2, 32⟩ ∧
        ∃ (t : Token) (front : Text), t.BeginsAt undefinedSource front ∧ n.StandsAt t ∧
          front.place = ⟨2, 32⟩ := by
  obtain ⟨herrors, hnodes⟩ := errors_point_into_text undefinedSource
  constructor
  · have herror : (ofText undefinedSource).result =
        .error (.compile ⟨.undefinedName [0x62], ⟨2, 41⟩⟩) := by
      rw [undefinedSource, Text.ofString_append, Text.ofString_ofList, Text.ofString_ofList]
      cbv
    have hkind : CompileError.kind ⟨.undefinedName [0x62], ⟨2, 41⟩⟩ ≠ .constantPoolOverflow := by
      decide
    exact ⟨_, herror, hkind, rfl, herrors _ herror hkind⟩
  · have hcheck : ((Program.ofText undefinedSource).toOption.any fun p => (p.decl? 0).any fun d =>
        d.kind == .procedure && d.body.nodes.any fun n =>
          n.form == .binary && n.position == ⟨2, 32⟩) = true := by
      rw [undefinedSource, Text.ofString_append, Text.ofString_ofList, Text.ofString_ofList]
      cbv
    obtain ⟨p, hp, hcheck⟩ := exists_of_any hcheck
    obtain ⟨d, hd, hcheck⟩ := (Option.any_eq_true _ _).1 hcheck
    rw [Bool.and_eq_true, beq_iff_eq, List.any_eq_true] at hcheck
    obtain ⟨hk, n, hn, hcheck⟩ := hcheck
    rw [Bool.and_eq_true, beq_iff_eq, beq_iff_eq] at hcheck
    obtain ⟨hform, hplace⟩ := hcheck
    obtain ⟨t, front, hfront, hstands, hposition, -⟩ := hnodes p (Or.inl hp) 0 d hd hk n hn
    exact ⟨p, d, n, hp, hd, hk, hn, hform, hplace, t, front, hfront, hstands,
      hposition.symm.trans hplace⟩

end Build

end Classwright
