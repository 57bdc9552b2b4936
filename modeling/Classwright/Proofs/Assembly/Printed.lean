import Classwright.Proofs.Assembly.Lines
import Classwright.Proofs.Text.Numerals
import Classwright.Proofs.Text.Words

/-!
# Printed instructions

The line that an instruction is listed on holds the words it is spelled with, one blank between each
two (`Instruction.ofString_text`).  It is read back as this instruction, but for the distance of a
branch, if and only if no pool index is 0 and no target is out of range
(`Listing.readItem_lineOf`).
-/

namespace Classwright

/-! ### The words of an instruction -/

/-- The text of a number. -/
def Listing.numeral (n : Int) : Text :=
  Text.ofString (toString n)

/-- The words that an instruction at `pc` is listed with. -/
def Instruction.words (i : Instruction) (pc : Nat) : List Text :=
  if i.wide then
    [Opcode.wide.spelling, i.op.spelling, Listing.numeral i.operand]
  else
    match i.op.operand with
    | .branch => [i.op.spelling, Listing.numeral (i.target pc)]
    | .poolByte | .poolShort => [i.op.spelling, 0x23 :: Listing.numeral i.operand]
    | .none => [i.op.spelling]
    | _ => [i.op.spelling, Listing.numeral i.operand]

theorem Opcode.ofString_mnemonic (op : Opcode) : Text.ofString op.mnemonic = op.spelling := by
  cases op with
  | unlisted b =>
    show Text.ofString "unknown" = "unknown".toList.map fun c => UInt8.ofNat c.toNat
    decide
  | _ => decide

/-- The text of an instruction is made of its words. -/
theorem Instruction.ofString_text (i : Instruction) (pc : Nat) :
    Text.ofString (i.text pc) = Text.spaced (i.words pc) := by
  unfold Instruction.text Instruction.words
  have hblank : Text.ofString (toString " ") = [0x20] := rfl
  have hhash : Text.ofString (toString " #") = [0x20, 0x23] := rfl
  have hwide : Text.ofString (toString "wide ") = Opcode.wide.spelling ++ [0x20] := by decide
  have hop : Text.ofString (toString i.op.mnemonic) = i.op.spelling := i.op.ofString_mnemonic
  split
  · simp [Text.ofString_append, hblank, hwide, hop, Text.spaced, Listing.numeral]
  · cases i.op.operand <;>
      simp [Text.ofString_append, hblank, hhash, hop, Text.spaced, Listing.numeral,
        Opcode.ofString_mnemonic]

theorem ofString_join (parts : List String) :
    Text.ofString (String.join parts) = parts.flatMap Text.ofString := by
  rw [Text.ofString, String.toList_join, List.flatMap_assoc]
  rfl

namespace Listing

/-- The line an instruction is listed on. -/
def lineOf (x : Nat × Instruction) : Text :=
  Text.spaced (x.2.words x.1) ++ [0x0A]

/-! ### Numerals -/

theorem mem_numeral {n : Int} {b : UInt8} (hb : b ∈ numeral n) :
    b = 0x2D ∨ Character.isDigit b = true := by
  rw [numeral, ofString_toString_int] at hb
  split at hb
  · exact Or.inr (isDigit_of_mem_toString hb)
  · rcases List.mem_cons.1 hb with rfl | hb
    · exact Or.inl rfl
    · exact Or.inr (isDigit_of_mem_toString hb)

theorem numeral_ne_nil (n : Int) : numeral n ≠ [] := by
  rw [numeral, ofString_toString_int]
  split
  · exact ofString_toString_ne_nil _
  · exact List.cons_ne_nil _ _

/-- A number is no label. -/
theorem isLabel_numeral (n : Int) : isLabel (numeral n) = false := by
  obtain ⟨b, rest, hbytes⟩ := List.exists_cons_of_ne_nil (numeral_ne_nil n)
  have hb := mem_numeral (n := n) (b := b) (hbytes ▸ List.mem_cons_self)
  have hstart : isLabelStart b = false := by
    rcases hb with rfl | hb
    · decide
    · rw [Character.isDigit_iff] at hb
      rw [← Bool.not_eq_true]
      simp only [isLabelStart, Character.isLetter, Bool.or_eq_true, Bool.and_eq_true,
        decide_eq_true_eq, beq_iff_eq, UInt8.le_iff_toNat_le, ← UInt8.toNat_inj]
      simp
      omega
  rw [hbytes, isLabel, hstart, Bool.false_and]

theorem readDecimal?_numeral {n m : Int} :
    readDecimal? 64 (numeral n) = some m ↔ n = m ∧ fitsWord 64 n = true := by
  rw [numeral, readDecimal?_toString]
  split <;> simp_all

theorem fitsWord_of_bounds {n : Int} (hlow : -65536 ≤ n) (hhigh : n ≤ 65536) :
    fitsWord 64 n = true := by
  simp [fitsWord]
  omega

/-! ### Reading the words of an instruction -/

/-- The conditions under which an instruction at `pc` is read back from its words. -/
structure Relistable (i : Instruction) (pc : Nat) : Prop where
  /-- A pool index is not 0. -/
  index_ne : i.op.operand = .poolByte ∨ i.op.operand = .poolShort → i.operand ≠ 0
  /-- A branch goes to a pc of two bytes. -/
  target_range : i.op.operand = .branch → 0 ≤ i.target pc ∧ i.target pc ≤ 0xFFFF

/-- What is read from the words of an instruction: a branch has its target in place of its
distance. -/
def relisted (i : Instruction) (pc : Nat) : Instruction × Option BranchTarget :=
  if i.op.operand = .branch then
    ({ i with operand := 0 }, some (.address (i.target pc).toNat))
  else
    (i, none)

theorem readTarget_numeral {n : Int} {target : BranchTarget} :
    readTarget (numeral n) = .ok target ↔
      (0 ≤ n ∧ n ≤ 0xFFFF) ∧ target = .address n.toNat := by
  rw [readTarget]
  simp only [isLabel_numeral, Bool.false_eq_true, if_false, bind_eq_ok, pure_eq_ok,
    readNumber_eq_ok, readDecimal?_numeral]
  constructor
  · rintro ⟨m, ⟨⟨rfl, -⟩, h⟩, rfl⟩
    exact ⟨h, rfl⟩
  · rintro ⟨h, rfl⟩
    exact ⟨n, ⟨⟨rfl, fitsWord_of_bounds (by omega) (by omega)⟩, h⟩, rfl⟩

theorem ok_eq_ok_iff {r s : Instruction × Option BranchTarget} {p : Prop} (hp : p) :
    (.ok s : Except ListingFault _) = .ok r ↔ p ∧ r = s := by
  simp only [Except.ok.injEq, hp, true_and]
  exact eq_comm

/-- **An instruction is read back from its words**, up to the distance of a branch, if and only if
it has no pool index 0 and goes to no pc out of range. -/
theorem readInstruction_words {i : Instruction} (h : i.Encodable) (pc : Nat)
    {r : Instruction × Option BranchTarget} :
    readInstruction (i.words pc) = .ok r ↔ Relistable i pc ∧ r = relisted i pc := by
  obtain ⟨op, v, wide⟩ := i
  cases wide with
  | true =>
    obtain ⟨hop, hrange⟩ := Instruction.encodable_wide_iff.1 h
    -- `wide` stands in front of a load or store of a slot
    have hkind : op.operand = .slot := by rcases hop with rfl | rfl <;> rfl
    have hread : readWide [op.spelling, numeral v] = .ok ⟨op, v, true⟩ :=
      readWide_eq_ok.2 ⟨op, numeral v, v, rfl, hop,
        readDecimal?_numeral.2 ⟨rfl, fitsWord_of_bounds (by omega) (by omega)⟩, rfl, h⟩
    have hspelling : Opcode.ofSpelling? Opcode.wide.spelling = some .wide := by decide
    simp only [Instruction.words, if_true, readInstruction, hspelling, hread, ok_bind, relisted,
      hkind, reduceCtorEq, if_false]
    exact ok_eq_ok_iff ⟨by simp [hkind], by simp [hkind]⟩
  | false =>
    have hop := h.isListed
    have hwide := h.operand_ne_wide
    -- the operand is in the range of its kind, and so in that of a word
    obtain ⟨hlow, hhigh⟩ := (Instruction.encodable_iff hop hwide).1 h
    unfold Instruction.words
    cases hk : op.operand with
    | wide => exact absurd hk hwide
    | none =>
      rw [hk] at hlow hhigh
      obtain rfl : v = 0 := Int.le_antisymm hhigh hlow
      simp only [hk, Bool.false_eq_true, if_false, readInstruction_single hop hk, relisted,
        reduceCtorEq]
      exact ok_eq_ok_iff ⟨by simp [hk], by simp [hk]⟩
    | byte | short | slot =>
      rw [hk] at hlow hhigh
      have hfits : fitsWord 64 v = true :=
        fitsWord_of_bounds (Int.le_trans (by decide) hlow) (Int.le_trans hhigh (by decide))
      simp only [hk, Bool.false_eq_true, if_false, readInstruction_pair (hk ▸ by decide) hwide,
        readOperand, relisted, reduceCtorEq, bind_eq_ok, pure_eq_ok, readNumber_eq_ok,
        readDecimal?_numeral]
      constructor
      · rintro ⟨n, ⟨⟨rfl, -⟩, -⟩, rfl⟩
        exact ⟨⟨by simp [hk], by simp [hk]⟩, rfl⟩
      · rintro ⟨-, rfl⟩
        exact ⟨v, ⟨⟨rfl, hfits⟩, hlow, hhigh⟩, rfl⟩
    | poolByte | poolShort =>
      rw [hk] at hlow hhigh
      have hfits : fitsWord 64 v = true :=
        fitsWord_of_bounds (Int.le_trans (by decide) hlow) (Int.le_trans hhigh (by decide))
      simp only [hk, Bool.false_eq_true, if_false, readInstruction_pair (hk ▸ by decide) hwide,
        readOperand, readPoolIndex, relisted, reduceCtorEq, bind_eq_ok, pure_eq_ok,
        readNumber_eq_ok, readDecimal?_numeral]
      constructor
      · rintro ⟨n, ⟨⟨rfl, -⟩, hn, -⟩, rfl⟩
        exact ⟨⟨fun _ => Int.ne_of_gt hn, by simp [hk]⟩, rfl⟩
      · rintro ⟨hi, rfl⟩
        -- an index of 0 is refused, so it makes the difference
        have hne : v ≠ 0 := hi.index_ne (by simp [hk])
        have hpos : (0 : Int) ≤ v := hlow
        exact ⟨v, ⟨⟨rfl, hfits⟩, by omega, hhigh⟩, rfl⟩
    | branch =>
      simp only [hk, Bool.false_eq_true, if_false, readInstruction_pair (hk ▸ by decide) hwide,
        readOperand, relisted, if_true, bind_eq_ok, pure_eq_ok, readTarget_numeral]
      constructor
      · rintro ⟨target, ⟨hrange, rfl⟩, rfl⟩
        exact ⟨⟨by simp [hk], fun _ => hrange⟩, rfl⟩
      · rintro ⟨hi, rfl⟩
        exact ⟨_, ⟨hi.target_range hk, rfl⟩, rfl⟩

/-! ### Lines -/

/-- A word with neither a slash, which could start a comment, nor a colon, which could end a
label. -/
def IsBare (word : Text) : Prop :=
  word.IsWord ∧ ∀ b ∈ word, b ≠ 0x2F ∧ b ≠ 0x3A

theorem isBare_spelling {op : Opcode} (h : op.isListed = true) : IsBare op.spelling := by
  have hall : (Opcode.all.all fun op => !op.spelling.isEmpty && op.spelling.all fun b =>
      0x21 ≤ b && b ≤ 0x7E && b != 0x2F && b != 0x3A) = true := by decide +kernel
  simp only [List.all_eq_true, Bool.not_eq_true', List.isEmpty_eq_false_iff, Bool.and_eq_true,
    decide_eq_true_eq, bne_iff_ne, UInt8.le_iff_toNat_le] at hall
  obtain ⟨hempty, hbytes⟩ := hall op (Opcode.mem_all.2 h)
  refine ⟨⟨hempty, fun b hb => (hbytes b hb).1.1⟩, fun b hb => ?_⟩
  obtain ⟨⟨-, hslash⟩, hcolon⟩ := hbytes b hb
  exact ⟨hslash, hcolon⟩

theorem isBare_numeral (n : Int) : IsBare (numeral n) := by
  have hbyte {b : UInt8} (hb : b ∈ numeral n) : 0x2D ≤ b.toNat ∧ b.toNat ≤ 0x39 ∧
      b.toNat ≠ 0x2F := by
    rcases mem_numeral hb with rfl | hb
    · decide
    · rw [Character.isDigit_iff] at hb
      omega
  refine ⟨⟨numeral_ne_nil n, fun b hb => ?_⟩, fun b hb => ⟨?_, ?_⟩⟩
  · have hrange := hbyte hb
    exact ⟨by omega, by omega⟩
  · rintro rfl
    exact absurd (hbyte hb).2.2 (by decide)
  · rintro rfl
    exact absurd (hbyte hb).2.1 (by decide)

theorem isBare_cons {word : Text} (h : IsBare word) : IsBare (0x23 :: word) := by
  refine ⟨⟨List.cons_ne_nil _ _, List.forall_mem_cons.2 ⟨by decide, h.1.2⟩⟩, ?_⟩
  exact List.forall_mem_cons.2 ⟨by decide, h.2⟩

theorem isBare_words {i : Instruction} (h : i.op.isListed = true) (pc : Nat) :
    ∀ word ∈ i.words pc, IsBare word := by
  have hop := isBare_spelling h
  have hwide := isBare_spelling (show Opcode.wide.isListed = true from rfl)
  unfold Instruction.words
  split
  · simp [hop, hwide, isBare_numeral]
  · split <;> simp [hop, isBare_numeral, isBare_cons]

theorem withoutComment_of_notMem {t : Text} (h : (0x2F : UInt8) ∉ t) : withoutComment t = t := by
  induction t with
  | nil => rfl
  | cons b t ih =>
    rw [List.mem_cons, not_or] at h
    rw [withoutComment, if_neg (fun hb => h.1 hb.1.symm), ih h.2]

variable {i : Instruction} {pc : Nat}

theorem mem_lineOf (h : i.op.isListed = true) {b : UInt8}
    (hb : b ∈ Text.spaced (i.words pc)) : b ≠ 0x0A ∧ b ≠ 0x2F ∧ b ≠ 0x3A := by
  rcases Text.mem_spaced hb with rfl | ⟨word, hword, hb⟩
  · decide
  · obtain ⟨⟨-, hvisible⟩, hbare⟩ := isBare_words h pc word hword
    refine ⟨?_, hbare b hb⟩
    rintro rfl
    exact absurd (hvisible _ hb) (by decide)

/-- Nothing of a line is lost but its end. -/
theorem content_lineOf (h : i.op.isListed = true) :
    content (lineOf (pc, i)) = Text.spaced (i.words pc) := by
  have hslash : (0x2F : UInt8) ∉ lineOf (pc, i) := by
    intro hmem
    rcases List.mem_append.1 hmem with hmem | hmem
    · exact absurd rfl (mem_lineOf h hmem).2.1
    · simp at hmem
  rw [content, withoutComment_of_notMem hslash]
  exact Text.trim_spaced fun word hword => (isBare_words h pc word hword).1

theorem holdsInstruction_lineOf (h : i.op.isListed = true) :
    holdsInstruction (lineOf (pc, i)) = true := by
  rw [holdsInstruction_iff, content_lineOf h]
  cases hlast : (Text.spaced (i.words pc)).getLast? with
  | none =>
    rw [List.getLast?_eq_none_iff] at hlast
    obtain ⟨word, rest, hwords⟩ : ∃ word rest, i.words pc = word :: rest := by
      unfold Instruction.words
      split
      · exact ⟨_, _, rfl⟩
      · split <;> exact ⟨_, _, rfl⟩
    have hword := (isBare_words h pc word (hwords ▸ List.mem_cons_self)).1
    rw [hwords] at hlast
    exact absurd hlast (Text.spaced_ne_nil hword rest)
  | some b => exact ⟨b, rfl, (mem_lineOf h (List.mem_of_getLast? hlast)).2.2⟩

/-- A line is read as the instruction that it was made of. -/
theorem readItem_lineOf (h : i.Encodable) {j : Instruction} {target : Option BranchTarget} :
    readItem (content (lineOf (pc, i))) = .ok (.instruction j target) ↔
      Relistable i pc ∧ (j, target) = relisted i pc := by
  rw [readItem_eq_instruction, ← readInstruction_eq_ok, content_lineOf h.isListed,
    Text.words_spaced fun word hword => (isBare_words h.isListed pc word hword).1,
    readInstruction_words h pc]
  simp only [holdsInstruction_lineOf h.isListed, true_and]

end Listing

end Classwright
