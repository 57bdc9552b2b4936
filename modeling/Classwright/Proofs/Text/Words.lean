import Classwright.Text.Blank
import Classwright.Proofs.Text.Plain

/-!
# Words and lines of plain text

A word is a row of visible ASCII characters.  Words with single blanks between them are split where
they were put together (`Text.words_spaced`), and a line of words loses no more than its end when it
is trimmed (`Text.trim_spaced`).
-/

namespace Classwright

namespace Text

/-! ### Pieces -/

/-- What an ASCII character is read as. -/
def piece (b : UInt8) : Utf8.Piece :=
  .scalar (Char.ofNat b.toNat)

theorem pieces_cons {b : UInt8} (hb : b.toNat < 0x80) (rest : Text) :
    Utf8.pieces (b :: rest) = piece b :: Utf8.pieces rest := by
  rw [Utf8.pieces]
  simp [Utf8.first?, hb, piece]

theorem pieces_append {t : Text} (ht : ∀ b ∈ t, b.toNat < 0x80) (rest : Text) :
    Utf8.pieces (t ++ rest) = t.map piece ++ Utf8.pieces rest := by
  induction t with
  | nil => rfl
  | cons b t ih =>
    rw [List.forall_mem_cons] at ht
    rw [List.cons_append, pieces_cons ht.1, ih ht.2, List.map_cons, List.cons_append]

theorem ofPieces_map_piece {t : Text} (ht : ∀ b ∈ t, b.toNat < 0x80) :
    ofPieces (t.map piece) = t := by
  induction t with
  | nil => rfl
  | cons b t ih =>
    rw [List.forall_mem_cons] at ht
    have hbytes : (piece b).bytes = [b] := by
      simp only [piece, Utf8.Piece.bytes, Utf8.encode, IsPlain.toNat_ofNat ht.1, if_pos ht.1,
        UInt8.ofNat_toNat]
    rw [ofPieces, List.map_cons, List.flatMap_cons, hbytes]
    exact congrArg (b :: ·) (ih ht.2)

/-! ### Words -/

/-- A character that is neither blank nor outside ASCII. -/
def IsVisible (b : UInt8) : Prop :=
  0x21 ≤ b.toNat ∧ b.toNat ≤ 0x7E

instance (b : UInt8) : Decidable (IsVisible b) :=
  inferInstanceAs (Decidable (0x21 ≤ b.toNat ∧ b.toNat ≤ 0x7E))

/-- A row of visible characters. -/
def IsWord (t : Text) : Prop :=
  t ≠ [] ∧ ∀ b ∈ t, IsVisible b

instance (t : Text) : Decidable t.IsWord :=
  inferInstanceAs (Decidable (t ≠ [] ∧ ∀ b ∈ t, IsVisible b))

theorem IsVisible.isBlank {b : UInt8} (h : IsVisible b) : (piece b).isBlank = false := by
  obtain ⟨hlow, hhigh⟩ := h
  have hchar : (Char.ofNat b.toNat).toNat = b.toNat := IsPlain.toNat_ofNat (by omega)
  simp only [piece, Utf8.Piece.isBlank, isBlankChar, hchar]
  simp
  omega

/-- Words with a blank between each two. -/
def spaced : List Text → Text
  | [] => []
  | [word] => word
  | word :: next :: rest => word ++ 0x20 :: spaced (next :: rest)

theorem wordsFrom_append {t : Text} (ht : ∀ b ∈ t, IsVisible b) (word rest : List Utf8.Piece) :
    wordsFrom word (t.map piece ++ rest) = wordsFrom ((t.map piece).reverse ++ word) rest := by
  induction t generalizing word with
  | nil => rfl
  | cons b t ih =>
    rw [List.forall_mem_cons] at ht
    rw [List.map_cons, List.cons_append, wordsFrom, ht.1.isBlank]
    simp [ih ht.2]

theorem IsVisible.lt {b : UInt8} (h : IsVisible b) : b.toNat < 0x80 :=
  Nat.lt_of_le_of_lt h.2 (by decide)

theorem IsWord.lt {word : Text} (h : word.IsWord) : ∀ b ∈ word, b.toNat < 0x80 :=
  fun b hb => (h.2 b hb).lt

/-- The first word ends at a blank or with the text. -/
theorem wordsFrom_word {word : Text} (h : word.IsWord) (rest : List Utf8.Piece)
    (hrest : ∀ p ∈ rest.head?, p.isBlank = true) :
    wordsFrom [] (word.map piece ++ rest) = word :: wordsFrom [] rest := by
  have hbytes := ofPieces_map_piece h.lt
  have hnil : (word.map piece).reverse ≠ [] := by simpa using h.1
  rw [wordsFrom_append h.2, List.append_nil]
  cases rest with
  | nil => simp [wordsFrom, h.1, hbytes]
  | cons p rest =>
    have hp : p.isBlank = true := hrest p rfl
    simp [wordsFrom, hp, h.1, hbytes]

/-- **Words are found again** where they were put together with blanks. -/
theorem words_spaced {ws : List Text} (h : ∀ word ∈ ws, word.IsWord) : words (spaced ws) = ws := by
  unfold words
  fun_induction spaced ws with
  | case1 => simp [Utf8.pieces, wordsFrom]
  | case2 word =>
    have hword := h word List.mem_cons_self
    have hpieces := pieces_append hword.lt []
    rw [List.append_nil] at hpieces
    rw [hpieces, wordsFrom_word hword _ (by simp [Utf8.pieces])]
    simp [Utf8.pieces, wordsFrom]
  | case3 word next rest ih =>
    rw [List.forall_mem_cons] at h
    have hblank : (piece 0x20).isBlank = true := by decide
    rw [pieces_append h.1.lt, pieces_cons (by decide), wordsFrom_word h.1 _ (by simpa using hblank),
      wordsFrom, hblank]
    exact congrArg (word :: ·) (ih h.2)

/-! ### Ends of lines -/

theorem spaced_ne_nil {word : Text} (h : word.IsWord) (rest : List Text) :
    spaced (word :: rest) ≠ [] := by
  cases rest <;> simp [spaced, h.1]

theorem spaced_ends {ws : List Text} (h : ∀ word ∈ ws, word.IsWord) :
    (∀ b ∈ (spaced ws).head?, IsVisible b) ∧ ∀ b ∈ (spaced ws).getLast?, IsVisible b := by
  fun_induction spaced ws with
  | case1 => simp
  | case2 word =>
    obtain ⟨-, hword⟩ := h word List.mem_cons_self
    exact ⟨fun b hb => hword b (List.mem_of_head? hb),
      fun b hb => hword b (List.mem_of_getLast? hb)⟩
  | case3 word next rest ih =>
    rw [List.forall_mem_cons] at h
    obtain ⟨hne, hword⟩ := h.1
    have hrest := spaced_ne_nil (h.2 next List.mem_cons_self) rest
    constructor
    · intro b hb
      rw [List.head?_append_of_ne_nil _ hne] at hb
      exact hword b (List.mem_of_head? hb)
    · intro b hb
      rw [List.getLast?_append_of_ne_nil _ (List.cons_ne_nil _ _),
        List.getLast?_cons_of_ne_nil hrest] at hb
      exact (ih h.2).2 b hb

theorem mem_spaced {ws : List Text} {b : UInt8} (hb : b ∈ spaced ws) :
    b = 0x20 ∨ ∃ word ∈ ws, b ∈ word := by
  fun_induction spaced ws with
  | case1 => cases hb
  | case2 word => exact Or.inr ⟨word, List.mem_cons_self, hb⟩
  | case3 word next rest ih =>
    rcases List.mem_append.1 hb with hb | hb
    · exact Or.inr ⟨word, List.mem_cons_self, hb⟩
    · rcases List.mem_cons.1 hb with rfl | hb
      · exact Or.inl rfl
      · rcases ih hb with rfl | ⟨w, hw, hmem⟩
        · exact Or.inl rfl
        · exact Or.inr ⟨w, List.mem_cons_of_mem _ hw, hmem⟩

/-- A text between visible characters loses no more than the end of its line. -/
theorem trim_lineFeed {t : Text} (hplain : ∀ b ∈ t, b.toNat < 0x80)
    (hhead : ∀ b ∈ t.head?, IsVisible b) (hlast : ∀ b ∈ t.getLast?, IsVisible b) :
    trim (t ++ [0x0A]) = t := by
  have hend : (piece 0x0A).isBlank = true := by decide
  have hpieces : Utf8.pieces (t ++ [0x0A]) = t.map piece ++ [piece 0x0A] := by
    rw [pieces_append hplain, pieces_cons (by decide)]
    simp [Utf8.pieces]
  have hback : (t.map piece).reverse.dropWhile Utf8.Piece.isBlank = (t.map piece).reverse := by
    rcases t.eq_nil_or_concat with rfl | ⟨init, b, rfl⟩
    · rfl
    · have hb := (hlast b (by simp)).isBlank
      simp [hb]
  rw [trim, hpieces]
  cases t with
  | nil => simp [hend, ofPieces]
  | cons b rest =>
    have hb := (hhead b rfl).isBlank
    have hfront : ((b :: rest).map piece ++ [piece 0x0A]).dropWhile Utf8.Piece.isBlank =
        (b :: rest).map piece ++ [piece 0x0A] := by
      rw [List.map_cons, List.cons_append, List.dropWhile_cons_of_neg (by simp [hb])]
    rw [hfront, List.reverse_append, List.reverse_singleton, List.singleton_append,
      List.dropWhile_cons_of_pos hend, hback, List.reverse_reverse, ofPieces_map_piece hplain]

/-- A line of words loses no more than its end. -/
theorem trim_spaced {ws : List Text} (h : ∀ word ∈ ws, word.IsWord) :
    trim (spaced ws ++ [0x0A]) = spaced ws := by
  refine trim_lineFeed (fun b hb => ?_) (spaced_ends h).1 (spaced_ends h).2
  rcases mem_spaced hb with rfl | ⟨word, hword, hb⟩
  · decide
  · exact (h word hword).lt b hb

/-! ### Lines -/

theorem lines_ne_nil (t : Text) : lines t ≠ [] := by
  cases t with
  | nil => exact List.cons_ne_nil _ _
  | cons b rest =>
    rw [lines]
    split
    · exact List.cons_ne_nil _ _
    · split <;> exact List.cons_ne_nil _ _

/-- A text in front of a line feed is the first line. -/
theorem lines_append_lineFeed {t : Text} (h : (0x0A : UInt8) ∉ t) (rest : Text) :
    lines (t ++ 0x0A :: rest) = (t ++ [0x0A]) :: lines rest := by
  induction t with
  | nil =>
    rw [List.nil_append, lines]
    split
    · rename_i hnil
      exact absurd hnil (lines_ne_nil rest)
    · rename_i line others hlines
      simp [hlines]
  | cons b t ih =>
    rw [List.mem_cons, not_or] at h
    have hb : (b == 0x0A) = false := by simpa using Ne.symm h.1
    rw [List.cons_append, lines, ih h.2]
    simp [hb]

end Text

end Classwright
