import Classwright.Proofs.Except
import Classwright.Proofs.Printer.Lexemes
import Classwright.Proofs.Source.Splitting

/-!
# Scanning the tokens again

A lexeme of a text also ends in front of a blank (`Lexeme.Ends.of_head?`), so the contents of the
tokens of a text with a blank between each two are laid out as the same lexemes (`Laid.intercalate`)
and are scanned into tokens of the same kinds, contents and values (`Token.ofText_intercalate`).
-/

namespace Classwright

/-- Lexemes with a blank between each two are laid out. -/
theorem Laid.intercalate {b : UInt8} (hb : Character.isBlank b = true) {ls : List Lexeme}
    (hls : ∀ l ∈ ls, ∃ rest, l.Ends rest) :
    Laid (List.intercalate [b] (ls.map Lexeme.content)) ls := by
  induction ls with
  | nil => exact .nil
  | cons l ls ih =>
    rw [List.forall_mem_cons] at hls
    obtain ⟨⟨rest, hl⟩, hls⟩ := hls
    have hlaid := ih hls
    cases ls with
    | nil =>
      have hends : l.Ends [] := hl.of_head? fun c hc => by cases hc
      have hlast := of_ends hends .nil
      rw [List.append_nil] at hlast
      simpa [List.intercalate] using hlast
    | cons l' ls =>
      have hends : l.Ends (b :: List.intercalate [b] ((l' :: ls).map Lexeme.content)) :=
        hl.of_head? fun c hc => Or.inr (by rwa [← Option.some.inj hc])
      have hmore := of_ends hends (.blank hb hlaid)
      simpa [List.intercalate] using hmore

namespace Token

/-- Every token of a text is a lexeme that ends in it. -/
theorem exists_ends_of_mem {text : Text} {tokens : List Token} (h : ofText text = .ok tokens)
    {t : Token} (ht : t ∈ tokens) : ∃ rest, t.lexeme.Ends rest := by
  obtain ⟨segments, hdivides, rfl⟩ := ofText_eq_ok_iff.1 h
  obtain ⟨between, l, back, -, hl, rfl⟩ := hdivides.exists_of_mem ht
  exact ⟨back, hl⟩

/-- Kind, content and value of tokens follow from their lexemes. -/
theorem map_of_map_lexeme {ts us : List Token} (h : ts.map lexeme = us.map lexeme) :
    ts.map (fun t => (t.kind, t.content, t.value)) =
      us.map fun t => (t.kind, t.content, t.value) := by
  have hread := congrArg (List.map fun l : Lexeme => (l.kind, l.content,
    if l.kind = .number then Int32.ofNat (decimalValue l.content) else 0)) h
  rw [List.map_map, List.map_map] at hread
  exact hread

/-- **Token texts scan to themselves.**  The contents of the tokens of a text, with one and the
same blank between each two, are scanned again into tokens of these kinds, contents and values. -/
theorem ofText_intercalate {text : Text} {tokens : List Token} (h : ofText text = .ok tokens)
    {b : UInt8} (hb : Character.isBlank b = true) :
    ∃ tokens', ofText (List.intercalate [b] (tokens.map content)) = .ok tokens' ∧
      tokens'.map (fun t => (t.kind, t.content, t.value)) =
        tokens.map fun t => (t.kind, t.content, t.value) := by
  have hends : ∀ l ∈ tokens.map lexeme, ∃ rest, l.Ends rest := by
    intro l hl
    obtain ⟨t, ht, rfl⟩ := List.mem_map.1 hl
    exact exists_ends_of_mem h ht
  have hlaid := Laid.intercalate hb hends
  rw [List.map_map] at hlaid
  obtain ⟨tokens', htokens', hlexemes⟩ := hlaid.ofText
  exact ⟨tokens', htokens', map_of_map_lexeme hlexemes⟩

/-- Signs and slashes that stand side by side, as separate tokens and as one. -/
def crowdedSource : Text :=
  "a<==b/-07/*/*/0x/ //=".toList.map Character.byte

theorem ofText_intercalate_crowded : ∃ tokens, ofText crowdedSource = .ok tokens ∧
    ∀ b ∈ [Character.byte ' ', Character.lineFeed],
      ∃ tokens', ofText (List.intercalate [b] (tokens.map content)) = .ok tokens' ∧
        tokens'.map (fun t => (t.kind, t.content, t.value)) =
          tokens.map fun t => (t.kind, t.content, t.value) := by
  have hcheck : (ofText crowdedSource).isOk = true := by decide +kernel
  obtain ⟨tokens, htext⟩ := exists_of_isOk hcheck
  have hblank : ∀ b ∈ [Character.byte ' ', Character.lineFeed], Character.isBlank b = true := by
    decide +kernel
  exact ⟨tokens, htext, fun b hb => ofText_intercalate htext (hblank b hb)⟩

end Token

end Classwright
