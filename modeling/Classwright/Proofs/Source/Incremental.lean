import Classwright.Proofs.Source.Scanned

/-!
# Scanning texts one by one

The state that a text leaves in the scanner is the one behind it and a line feed.  A line feed
continues no segment (`Segment.Ends.append_lineFeed`), so a text is divided in front of it as it is
alone; inside a comment that is still open it completes no closing.  What is scanned behind it is
therefore scanned as a text of its own that starts a new line (`Scanner.fails_or_resumes`,
`Scanner.scan_scan`).
-/

namespace Classwright

open Character (byte lineFeed)

/-! ### Divisions in front of a line feed -/

theorem head?_append_lineFeed {text b : Text} {c : UInt8}
    (h : (text ++ lineFeed :: b).head? = some c) : text.head? = some c ∨ c = lineFeed := by
  cases text with
  | nil => exact Or.inr (Option.some.inj h).symm
  | cons d text => exact Or.inl h

/-- A segment that ends in front of a text also ends there when a line feed and more follow. -/
theorem Segment.Ends.append_lineFeed {segment : Segment} {text : Text} (h : segment.Ends text)
    (b : Text) : segment.Ends (text ++ lineFeed :: b) := by
  cases h with
  | blank hb => exact .blank hb
  | lineComment hinside htext =>
    exact .lineComment hinside fun c hc => (head?_append_lineFeed hc).elim (htext c) id
  | blockComment hinside => exact .blockComment hinside
  | lexeme hl =>
    refine .lexeme (hl.of_head? fun c hc => (head?_append_lineFeed hc).imp_right fun h => ?_)
    rw [h]
    rfl

theorem Divides.append_lineFeed {text rest : Text} {segments : List Segment}
    (h : Divides text segments rest) (b : Text) :
    Divides (text ++ lineFeed :: b) segments (rest ++ lineFeed :: b) := by
  induction h with
  | nil rest => exact .nil _
  | cons hends _ ih =>
    rw [List.append_assoc]
    exact .cons (hends.append_lineFeed b) ih

namespace Scanner

variable {front : Text}

/-- The result of a scan with a line feed and more behind its text. -/
def Result.followed (front : Text) (r : Result) (b : Text) : Result :=
  (scanBehind (front ++ [lineFeed]) (r.ending = .inComment) b).after r.tokens r.opened

/-- What is scanned behind a text and a line feed is scanned as a text of its own. -/
structure Resumes (front text : Text) (inComment : Bool) : Prop where
  /-- The line reached is the last one of the text. -/
  line : (scanBehind front inComment text).line = (front ++ text).lineBehind
  scan : ∀ b, scanBehind front inComment (text ++ lineFeed :: b) =
    (scanBehind front inComment text).followed (front ++ text) b

/-- Inside a comment that stays open, a line feed and more are scanned inside it. -/
theorem scanBehind_unclosed_lineFeed {text : Text} (h : text.Unclosed) (b : Text) :
    scanBehind front true (text ++ lineFeed :: b) =
      scanBehind (front ++ text ++ [lineFeed]) true b := by
  have hclose : (lineFeed :: b).head? ≠ some (byte '/') :=
    fun hhead => absurd (Option.some.inj hhead) (by decide)
  rw [scanBehind_unclosed h hclose, scanBehind_lineFeed]

/-- Outside comments a scan fails, or is resumed behind a line feed. -/
theorem fails_or_resumes_outside (front text : Text) :
    (∃ e, (scanBehind front false text).ending = .failed e ∧ e.cause ≠ .unclosedComment) ∨
      Resumes front text false := by
  obtain ⟨segments, rest, hdivides, hrest⟩ := exists_division text
  have htext : front ++ text = front ++ segments.flatMap Segment.bytes ++ rest := by
    rw [List.append_assoc, ← hdivides.text_eq]
  have hscan := scanBehind_divides front hdivides
  have hscan' := fun b => scanBehind_divides front (hdivides.append_lineFeed b)
  rcases hrest with rfl | ⟨cause, hhalts⟩
  · -- The division goes to the end, so that behind it the line feed starts the next segment.
    rw [List.append_nil] at htext
    rw [scanBehind_nil] at hscan
    refine Or.inr ⟨?_, fun b => ?_⟩
    · rw [hscan, htext]
      rfl
    · rw [hscan' b, hscan, htext, List.nil_append, scanBehind_lineFeed, Result.followed]
      simp [Result.behind, Result.after]
  · rcases scanBehind_halts (front ++ segments.flatMap Segment.bytes) hhalts with
      ⟨hcause, line, opened, hfailed⟩ | ⟨rfl, hopen⟩
    · rw [hfailed] at hscan
      exact Or.inl ⟨_, by rw [hscan]; rfl, hcause⟩
    · rw [hopen] at hscan
      refine Or.inr ⟨?_, fun b => ?_⟩
      · rw [hscan, htext]
        rfl
      · -- The line feed and what follows it stand inside the comment that has been opened.
        cases hhalts with
        | @comment inside hinside =>
          rw [hscan' b, hscan, htext, List.cons_append, List.cons_append, scanBehind_slashStar,
            scanBehind_unclosed_lineFeed hinside, Result.followed]
          simp [Result.behind, Result.after, Result.opening]

/-- **A scan fails, or is resumed behind a line feed.** -/
theorem fails_or_resumes (front text : Text) (inComment : Bool) :
    (∃ e, (scanBehind front inComment text).ending = .failed e ∧ e.cause ≠ .unclosedComment) ∨
      Resumes front text inComment := by
  cases inComment with
  | false => exact fails_or_resumes_outside front text
  | true =>
    by_cases hopen : text.Unclosed
    · have hscan : scanBehind front true text = _ := scanBehind_open hopen
      refine Or.inr ⟨by rw [hscan], fun b => ?_⟩
      rw [scanBehind_unclosed_lineFeed hopen, hscan, Result.followed]
      simp [Result.after]
    · obtain ⟨inside, rest, rfl, hinside⟩ := Text.exists_of_not_unclosed hopen
      have hrest := fails_or_resumes_outside (front ++ inside ++ [byte '*', byte '/']) rest
      have htext : front ++ (inside ++ ([byte '*', byte '/'] ++ rest)) =
          front ++ inside ++ [byte '*', byte '/'] ++ rest := by
        simp only [List.append_assoc]
      rw [scanBehind_closed hinside]
      refine hrest.imp_right fun hrest => ⟨?_, fun b => ?_⟩
      · rw [scanBehind_closed hinside, htext, hrest.line]
      · rw [List.append_assoc, List.append_assoc, scanBehind_closed hinside,
          scanBehind_closed hinside, htext, hrest.scan b]

/-! ### Scanners between texts -/

/-- The scanner that a result leaves. -/
theorem finish_fst (s : Scanner) (r : Result) : (r.finish s).1 =
    ⟨r.line, s.tokens ++ r.tokens, r.ending = .inComment, r.opened.getD s.commentStart⟩ := by
  unfold Result.finish
  cases hending : r.ending <;> rfl

/-- What stands in front of a result may as well stand in the scanner. -/
theorem finish_after (s : Scanner) (ts : List Token) (o : Option Position) (r : Result) :
    (r.after ts o).finish s =
      r.finish { s with tokens := s.tokens ++ ts, commentStart := o.getD s.commentStart } := by
  have hstart : (r.opened.or o).getD s.commentStart = r.opened.getD (o.getD s.commentStart) := by
    cases r.opened <;> rfl
  simp only [Result.finish, Result.after, hstart, List.append_assoc]

/-- **Texts that are scanned one by one are scanned as one text**, with a line feed between them.
The first of them is accepted or leaves a comment open. -/
theorem scan_scan {s : Scanner} {a : Text}
    (h : ∀ e, (s.scan a).2 = .error e → e.cause = .unclosedComment) (b : Text) :
    (s.scan a).1.scan b = s.scan (a ++ lineFeed :: b) := by
  have ha := scan_eq s a
  rcases fails_or_resumes (List.replicate s.line lineFeed) a s.inComment with
    ⟨e, hfailed, hcause⟩ | ⟨hline, hmore⟩
  · have herror : (s.scan a).2 = .error e := by
      rw [ha, Result.finish, hfailed]
    exact absurd (h e herror) hcause
  · rw [scan_eq s (a ++ lineFeed :: b), hmore b, Result.followed, finish_after, ha, finish_fst]
    generalize scanBehind (List.replicate s.line lineFeed) s.inComment a = r at hline ⊢
    rw [Scanner.scan_eq, scanBehind, Text.lineBehind_replicate, Text.lastLine_replicate,
      scanBehind, Text.lineBehind_lineFeed, Text.lastLine_lineFeed, hline]
    rfl

/-- The slash that the second text starts with closes no comment with the star in front of it. -/
theorem scan_scan_comment :
    let a := "x /**/ = /* *".toList.map byte
    let b := "/ y */ 07".toList.map byte
    (({} : Scanner).scan a).1.scan b = ({} : Scanner).scan (a ++ lineFeed :: b) := by
  have hcause : ∀ e, (({} : Scanner).scan ("x /**/ = /* *".toList.map byte)).2 = .error e →
      e.cause = .unclosedComment := by
    have hscan : (({} : Scanner).scan ("x /**/ = /* *".toList.map byte)).2 =
        .error ⟨.unclosedComment, ⟨1, 10⟩⟩ := by
      decide +kernel
    intro e he
    rw [hscan] at he
    rw [← Except.error.inj he]
  exact scan_scan hcause _

end Scanner

end Classwright
