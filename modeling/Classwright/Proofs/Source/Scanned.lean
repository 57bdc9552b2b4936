import Classwright.Proofs.Source.Scanning
import Classwright.Proofs.Source.Segments

/-!
# What the scanner makes of a division

The scanner is followed over the segments of a text.  Its line and column are those of the bytes
it has passed (`Scanner.scanBehind`), so that one segment is scanned as what it is
(`Scanner.scanBehind_segment`), a division is scanned segment by segment
(`Scanner.scanBehind_divides`), and what stops a division stops the scan
(`Scanner.scanBehind_halts`).  As every text can be divided, its tokens are those of a division to
its end, or its error is what stops the division (`Token.ofText_eq_ok_iff`,
`Token.ofText_eq_error_iff`).
-/

namespace Classwright

open Character (byte lineFeed)

/-- The token of a lexeme that stands behind some bytes. -/
def Lexeme.behind (front : Text) (l : Lexeme) : Token :=
  ⟨l.kind, l.content, front.lineBehind, front.lastLine.length⟩

namespace Segment

/-- The tokens of segments that stand behind some bytes. -/
def tokens (front : Text) : List Segment → List Token
  | [] => []
  | .lexeme l :: segments => l.behind front :: tokens (front ++ l.content) segments
  | segment :: segments => tokens (front ++ segment.bytes) segments

/-- Where the last comment of segments that stand behind some bytes opens, apart from those that
go to the end of a line. -/
def opened (front : Text) : List Segment → Option Position
  | [] => none
  | .blockComment inside :: segments =>
    (opened (front ++ bytes (.blockComment inside)) segments).or (some front.place)
  | segment :: segments => opened (front ++ segment.bytes) segments

end Segment

namespace Scanner

/-- Puts tokens and the opening of a comment in front of a result. -/
def Result.after (tokens : List Token) (opened : Option Position) (r : Result) : Result :=
  { r with tokens := tokens ++ r.tokens, opened := r.opened.or opened }

theorem Result.after_after {ts us : List Token} {o p : Option Position} (r : Result) :
    (r.after us p).after ts o = r.after (ts ++ us) (p.or o) := by
  simp [after, Option.or_assoc]

/-- Puts segments that stand behind some bytes in front of a result. -/
def Result.behind (front : Text) (segments : List Segment) (r : Result) : Result :=
  r.after (Segment.tokens front segments) (Segment.opened front segments)

theorem Result.behind_nil (front : Text) (r : Result) : r.behind front [] = r := by
  simp [behind, after, Segment.tokens, Segment.opened]

theorem Result.behind_blank (front : Text) (b : UInt8) (r : Result) :
    r.behind front [.blank b] = r :=
  behind_nil (front ++ [b]) r

theorem Result.behind_lineComment (front inside : Text) (r : Result) :
    r.behind front [.lineComment inside] = r :=
  behind_nil (front ++ Segment.bytes (.lineComment inside)) r

theorem Result.behind_blockComment (front inside : Text) (r : Result) :
    r.behind front [.blockComment inside] = r.opening front.place := rfl

theorem Result.behind_lexeme (front : Text) (l : Lexeme) (r : Result) :
    r.behind front [.lexeme l] = r.cons (l.behind front) := by
  simp [behind, after, cons, Segment.tokens, Segment.opened]

theorem Result.behind_cons (front : Text) (segment : Segment) (segments : List Segment)
    (r : Result) : r.behind front (segment :: segments) =
      (r.behind (front ++ segment.bytes) segments).behind front [segment] := by
  rw [behind, behind, behind, after_after]
  cases segment <;> simp [Segment.tokens, Segment.opened, Segment.bytes]

/-- The scan of a text that stands behind some bytes. -/
def scanBehind (front : Text) (inComment : Bool) (text : Text) : Result :=
  scanBytes inComment front.lineBehind front.lastLine.length text

variable {front text rest : Text}

theorem scanBehind_append {t : Text} (ht : lineFeed ∉ t) (inComment : Bool) (rest : Text) :
    scanBytes inComment front.lineBehind (front.lastLine.length + t.length) rest =
      scanBehind (front ++ t) inComment rest := by
  rw [scanBehind, Text.lineBehind_append ht, Text.lastLine_append ht, List.length_append]

theorem scanBehind_lineFeed (inComment : Bool) (rest : Text) :
    scanBehind front inComment (lineFeed :: rest) =
      scanBehind (front ++ [lineFeed]) inComment rest := by
  rw [scanBehind, scanBytes_lineFeed, scanBehind, Text.lineBehind_lineFeed,
    Text.lastLine_lineFeed, List.length_nil]

theorem scanBehind_nil (front : Text) (inComment : Bool) : scanBehind front inComment [] =
    ⟨[], front.lineBehind, none, if inComment then .inComment else .complete⟩ :=
  scanBytes_nil _ _ _

/-! ### Comments -/

/-- Inside a comment a byte that is not the star of the closing is skipped. -/
theorem scanBehind_inside {b : UInt8} (hb : ¬ (b = byte '*' ∧ text.head? = some (byte '/'))) :
    scanBehind front true (b :: text) = scanBehind (front ++ [b]) true text := by
  by_cases hline : b = lineFeed
  · rw [hline, scanBehind_lineFeed]
  · have hmem : lineFeed ∉ [b] := by simpa using Ne.symm hline
    rw [scanBehind, scanBytes_inside hb hline, ← scanBehind_append hmem]
    rfl

/-- What closes no comment is skipped, in front of what does not complete a closing. -/
theorem scanBehind_unclosed (h : Text.Unclosed text) (hrest : rest.head? ≠ some (byte '/')) :
    scanBehind front true (text ++ rest) = scanBehind (front ++ text) true rest := by
  induction text generalizing front with
  | nil => rw [List.nil_append, List.append_nil]
  | cons b text ih =>
    obtain ⟨hb, htext⟩ := Text.unclosed_cons.1 h
    have hb' : ¬ (b = byte '*' ∧ (text ++ rest).head? = some (byte '/')) := by
      cases text with
      | nil => exact fun hstar => hrest hstar.2
      | cons c text => exact hb
    rw [List.cons_append, scanBehind_inside hb', ih htext, List.append_assoc,
      List.singleton_append]

/-- A comment that is never closed is open at the end. -/
theorem scanBehind_open (h : Text.Unclosed text) :
    scanBehind front true text = ⟨[], (front ++ text).lineBehind, none, .inComment⟩ := by
  have hskip : scanBehind front true (text ++ []) = scanBehind (front ++ text) true [] :=
    scanBehind_unclosed h (by simp)
  rw [List.append_nil] at hskip
  rw [hskip, scanBehind_nil, if_pos rfl]

theorem scanBehind_closed {inside : Text} (h : inside.Unclosed) :
    scanBehind front true (inside ++ ([byte '*', byte '/'] ++ rest)) =
      scanBehind (front ++ inside ++ [byte '*', byte '/']) false rest := by
  have hmem : lineFeed ∉ [byte '*', byte '/'] := by decide
  have hstar : ([byte '*', byte '/'] ++ rest).head? ≠ some (byte '/') :=
    fun hhead => absurd (Option.some.inj hhead) (by decide)
  rw [scanBehind_unclosed h hstar, ← scanBehind_append hmem]
  exact scanBytes_starSlash rest

theorem scanBehind_slashStar (text : Text) : scanBehind front false (byte '/' :: byte '*' :: text) =
    (scanBehind (front ++ [byte '/', byte '*']) true text).opening front.place := by
  have hmem : lineFeed ∉ [byte '/', byte '*'] := by decide
  rw [scanBehind, scanBytes_slashStar, ← scanBehind_append hmem]
  rfl

/-! ### Segments -/

/-- **A segment is scanned as what it is.** -/
theorem scanBehind_segment {segment : Segment} (h : segment.Ends rest) :
    scanBehind front false (segment.bytes ++ rest) =
      (scanBehind (front ++ segment.bytes) false rest).behind front [segment] := by
  cases h with
  | @blank b hb =>
    rw [Result.behind_blank]
    by_cases hline : b = lineFeed
    · subst hline
      exact scanBehind_lineFeed false rest
    · have hmem : lineFeed ∉ [b] := by simpa using Ne.symm hline
      rw [Segment.bytes, List.singleton_append, scanBehind, scanBytes_blank hb hline]
      exact scanBehind_append hmem false rest
  | @lineComment inside hinside hrest =>
    have hmem : lineFeed ∉ byte '/' :: byte '/' :: inside := by
      simp only [List.mem_cons, not_or]
      exact ⟨by decide, by decide, hinside⟩
    have hlength : (byte '/' :: byte '/' :: inside).length = 2 + inside.length := by
      simp only [List.length_cons]
      omega
    rw [Result.behind_lineComment, Segment.bytes, List.cons_append, List.cons_append, scanBehind,
      scanBytes_lineComment hinside hrest, ← hlength]
    exact scanBehind_append hmem false rest
  | @blockComment inside hinside =>
    rw [Result.behind_blockComment, Segment.bytes, List.cons_append, List.cons_append,
      List.append_assoc, scanBehind_slashStar, scanBehind_closed hinside]
    simp
  | @lexeme l hl =>
    obtain ⟨b, part, hcontent, htakes⟩ := hl.exists_takes
    have hmem := hl.lineFeed_notMem
    rw [hcontent] at hmem
    have hlength : (b :: part).length = 1 + part.length := by
      rw [List.length_cons, Nat.add_comm]
    rw [Result.behind_lexeme, Segment.bytes, Lexeme.behind, hcontent, List.cons_append, scanBehind,
      scanBytes_takes htakes, ← hlength, scanBehind_append hmem]

/-- **A text that is divided is scanned segment by segment.** -/
theorem scanBehind_divides (front : Text) {segments : List Segment}
    (h : Divides text segments rest) : scanBehind front false text =
      (scanBehind (front ++ segments.flatMap Segment.bytes) false rest).behind front segments := by
  induction h generalizing front with
  | nil rest => rw [Result.behind_nil, List.flatMap_nil, List.append_nil]
  | cons hends _ ih =>
    rw [scanBehind_segment hends, ih, ← Result.behind_cons, List.flatMap_cons, List.append_assoc]

/-! ### Where a division stops -/

/-- What stops a division stops the scan. -/
theorem scanBehind_halts (front : Text) {cause : Cause} (h : Halts rest cause) :
    (cause ≠ .unclosedComment ∧ ∃ line opened,
      scanBehind front false rest = ⟨[], line, opened, .failed ⟨cause, front.place⟩⟩) ∨
    cause = .unclosedComment ∧ scanBehind front false rest =
      ⟨[], (front ++ rest).lineBehind, some front.place, .inComment⟩ := by
  cases h with
  | unknown hblank hsymbol hword =>
    exact Or.inl ⟨Cause.noConfusion, _, _, scanBytes_unknown hblank hsymbol hword _⟩
  | @number digits rest hne hdigits hrest hrange =>
    obtain ⟨b, part, rfl⟩ := List.exists_cons_of_ne_nil hne
    exact Or.inl ⟨Cause.noConfusion, _, _, scanBytes_outOfRange hdigits hrest hrange⟩
  | @comment inside hinside =>
    refine Or.inr ⟨rfl, ?_⟩
    rw [scanBehind_slashStar, scanBehind_open hinside, List.append_assoc]
    rfl

/-! ### Texts -/

/-- What a scanner yields, and leaves, with this result of scanning one more text. -/
def Result.finish (s : Scanner) (r : Result) : Scanner × Except CompileError (List Token) :=
  let tokens := s.tokens ++ r.tokens
  let start := r.opened.getD s.commentStart
  match r.ending with
  | .complete => (⟨r.line, tokens, false, start⟩, .ok tokens)
  | .inComment => (⟨r.line, tokens, true, start⟩, .error ⟨.unclosedComment, start⟩)
  | .failed e => (⟨r.line, tokens, false, start⟩, .error e)

/-- A text is scanned behind the lines that have been begun. -/
theorem scan_eq (s : Scanner) (text : Text) : s.scan text =
    (scanBehind (List.replicate s.line lineFeed) s.inComment text).finish s := by
  rw [scanBehind, Text.lineBehind_replicate, Text.lastLine_replicate]
  rfl

end Scanner

namespace Token

open Scanner

variable {text : Text}

theorem ofText_eq (text : Text) : ofText text = ((scanBehind [] false text).finish {}).2 := by
  rw [ofText, scan_eq]
  rfl

/-- The tokens of a text that is divided to its end. -/
theorem ofText_of_divides {segments : List Segment} (h : Divides text segments []) :
    ofText text = .ok (Segment.tokens [] segments) := by
  rw [ofText_eq, scanBehind_divides [] h, scanBehind_nil]
  exact congrArg Except.ok (List.append_nil _)

/-- The error of a text whose division is stopped. -/
theorem ofText_of_halts {segments : List Segment} {rest : Text} {cause : Cause}
    (h : Divides text segments rest) (hrest : Halts rest cause) :
    ofText text = .error ⟨cause, Text.place (segments.flatMap Segment.bytes)⟩ := by
  rw [ofText_eq, scanBehind_divides [] h, List.nil_append]
  rcases scanBehind_halts (segments.flatMap Segment.bytes) hrest with
    ⟨-, line, opened, hhalts⟩ | ⟨rfl, hhalts⟩ <;>
  · rw [hhalts]
    rfl

/-- **A text is accepted exactly if it can be divided to its end**, and its tokens are then those of
the division. -/
theorem ofText_eq_ok_iff {tokens : List Token} : ofText text = .ok tokens ↔
    ∃ segments, Divides text segments [] ∧ Segment.tokens [] segments = tokens := by
  constructor
  · intro htext
    obtain ⟨segments, rest, hdivides, rfl | ⟨cause, hrest⟩⟩ := exists_division text
    · rw [ofText_of_divides hdivides] at htext
      exact ⟨segments, hdivides, Except.ok.inj htext⟩
    · rw [ofText_of_halts hdivides hrest] at htext
      cases htext
  · rintro ⟨segments, hdivides, rfl⟩
    exact ofText_of_divides hdivides

/-- **A text is refused exactly if its division is stopped**, for the cause and at the place that
stop it. -/
theorem ofText_eq_error_iff {e : CompileError} : ofText text = .error e ↔
    ∃ segments rest cause, Divides text segments rest ∧ Halts rest cause ∧
      e = ⟨cause, Text.place (segments.flatMap Segment.bytes)⟩ := by
  constructor
  · intro htext
    obtain ⟨segments, rest, hdivides, rfl | ⟨cause, hrest⟩⟩ := exists_division text
    · rw [ofText_of_divides hdivides] at htext
      cases htext
    · rw [ofText_of_halts hdivides hrest] at htext
      exact ⟨segments, rest, cause, hdivides, hrest, (Except.error.inj htext).symm⟩
  · rintro ⟨segments, rest, cause, hdivides, hrest, rfl⟩
    exact ofText_of_halts hdivides hrest

end Token

end Classwright
