import Classwright.Proofs.Text.Words
import Classwright.Source.Position
import Mathlib.Data.List.DropRight

/-!
# Places in a text

Where something stands in a text follows from the bytes in front of it: its line from the number of
line feeds among them (`Text.lineBehind`), its column from what stands behind the last one
(`Text.lastLine`).  What stands behind some bytes and holds no line feed is a part of the line with
that number, from that column on (`Text.exists_line`).
-/

namespace Classwright

namespace Text

/-- The number of the line that goes on behind some bytes, counted from 1. -/
def lineBehind (front : Text) : Nat :=
  front.count Character.lineFeed + 1

/-- What stands behind the last line feed. -/
def lastLine (front : Text) : Text :=
  front.rtakeWhile (· != Character.lineFeed)

/-- The place behind some bytes. -/
def place (front : Text) : Position :=
  ⟨front.lineBehind, front.lastLine.length + 1⟩

variable {front t : Text}

@[simp] theorem lineBehind_nil : lineBehind [] = 1 := rfl

@[simp] theorem lastLine_nil : lastLine [] = [] := rfl

theorem lineBehind_lineFeed (front : Text) :
    lineBehind (front ++ [Character.lineFeed]) = front.lineBehind + 1 := by
  simp [lineBehind, List.count_append]

theorem lastLine_lineFeed (front : Text) : lastLine (front ++ [Character.lineFeed]) = [] := by
  simp [lastLine]

theorem lineBehind_replicate (n : Nat) :
    lineBehind (List.replicate n Character.lineFeed) = n + 1 := by
  rw [lineBehind, List.count_replicate_self]

theorem lastLine_replicate (n : Nat) : lastLine (List.replicate n Character.lineFeed) = [] := by
  cases n with
  | zero => rfl
  | succ n => rw [List.replicate_succ', lastLine_lineFeed]

theorem lineBehind_append (h : Character.lineFeed ∉ t) :
    lineBehind (front ++ t) = front.lineBehind := by
  rw [lineBehind, List.count_append, List.count_eq_zero.2 h, Nat.add_zero, lineBehind]

theorem lastLine_append (h : Character.lineFeed ∉ t) :
    lastLine (front ++ t) = front.lastLine ++ t := by
  induction t using List.reverseRecOn with
  | nil => rw [List.append_nil, List.append_nil]
  | append_singleton t b ih =>
    rw [List.mem_append, not_or, List.mem_singleton] at h
    have hb : (b != Character.lineFeed) = true := by simpa using Ne.symm h.2
    have hconcat : lastLine (front ++ t ++ [b]) = lastLine (front ++ t) ++ [b] :=
      List.rtakeWhile_concat_pos (· != Character.lineFeed) _ _ hb
    rw [← List.append_assoc, hconcat, ih h.1, List.append_assoc]

/-- Further bytes lead to a later place: to a later line, or further on in the same one. -/
theorem lineBehind_lt_or (front t : Text) : front.lineBehind < lineBehind (front ++ t) ∨
    lineBehind (front ++ t) = front.lineBehind ∧
      (lastLine (front ++ t)).length = front.lastLine.length + t.length := by
  by_cases h : Character.lineFeed ∈ t
  · have hpos : 0 < t.count Character.lineFeed := List.count_pos_iff.2 h
    refine Or.inl ?_
    rw [lineBehind, lineBehind, List.count_append]
    omega
  · refine Or.inr ⟨lineBehind_append h, ?_⟩
    rw [lastLine_append h, List.length_append]

/-! ### Lines -/

theorem lines_cons {b : UInt8} {line : Text} {others : List Text} (h : t.lines = line :: others) :
    lines (b :: t) =
      if b = Character.lineFeed then [b] :: line :: others else (b :: line) :: others := by
  rw [lines, h]
  simp only [beq_iff_eq]
  rfl

/-- The lines of a text from the one that goes on behind some of its bytes. -/
theorem drop_lines (front : Text) {rest line : Text} {others : List Text}
    (h : rest.lines = line :: others) :
    (front ++ rest).lines.drop (front.count Character.lineFeed) =
      (front.lastLine ++ line) :: others := by
  induction front using List.reverseRecOn generalizing rest line others with
  | nil => simpa using h
  | append_singleton front b ih =>
    have hcons := lines_cons (b := b) h
    rw [List.append_assoc, List.singleton_append, List.count_append]
    by_cases hb : b = Character.lineFeed
    · subst hb
      rw [if_pos rfl] at hcons
      have hdrop := ih hcons
      rw [lastLine_lineFeed, List.count_singleton_self, ← List.drop_drop, hdrop]
      rfl
    · rw [if_neg hb] at hcons
      have hmem : Character.lineFeed ∉ [b] := by simpa using Ne.symm hb
      rw [lastLine_append hmem, List.count_eq_zero.2 hmem, Nat.add_zero, ih hcons,
        List.append_assoc, List.singleton_append]

theorem exists_lines_eq_cons (t : Text) :
    ∃ line others, t.lines = line :: others ∧ line.head? = t.head? := by
  cases t with
  | nil => exact ⟨[], [], rfl, rfl⟩
  | cons b t =>
    obtain ⟨line, others, hlines⟩ := List.exists_cons_of_ne_nil (lines_ne_nil t)
    rw [lines_cons hlines]
    split
    · exact ⟨[b], _, rfl, rfl⟩
    · exact ⟨b :: line, _, rfl, rfl⟩

/-- The first line starts with what holds no line feed. -/
theorem lines_append {rest line : Text} {others : List Text} (ht : Character.lineFeed ∉ t)
    (h : rest.lines = line :: others) : (t ++ rest).lines = (t ++ line) :: others := by
  induction t with
  | nil => exact h
  | cons b t ih =>
    rw [List.mem_cons, not_or] at ht
    rw [List.cons_append, lines_cons (ih ht.2), if_neg (Ne.symm ht.1), List.cons_append]

/-- What holds no line feed stands in one line, which goes on with what comes next. -/
theorem exists_line (front : Text) (ht : Character.lineFeed ∉ t) (rest : Text) :
    ∃ line, (front ++ (t ++ rest)).lines[front.lineBehind - 1]? =
        some (front.lastLine ++ (t ++ line)) ∧ line.head? = rest.head? := by
  obtain ⟨line, others, hlines, hhead⟩ := exists_lines_eq_cons rest
  have hdrop := drop_lines front (lines_append ht hlines)
  refine ⟨line, ?_, hhead⟩
  rw [lineBehind, Nat.add_sub_cancel]
  have hget := congrArg (·[0]?) hdrop
  simpa [List.getElem?_drop] using hget

end Text

end Classwright
