import Classwright.Assembly.Listing
import Classwright.Proofs.Bytecode.Codec
import Classwright.Proofs.Except

/-!
# Lines of listings

What a line of a listing says, apart from how it is read: its words spell an instruction
(`Listing.Spells`), or it declares a label (`Listing.Declares`), or nothing is left of it without
its comment and outer blanks.  A line is read as the instruction it spells if and only if the
numbers on it are in their ranges (`Listing.readInstruction_eq_ok`).
-/

namespace Classwright

/-! ### Mnemonics -/

theorem Opcode.mem_all {op : Opcode} : op ∈ all ↔ op.isListed = true := by
  constructor
  · intro h
    cases op with
    | unlisted b => exact absurd h (by simp [all])
    | _ => rfl
  · intro h
    cases op with
    | unlisted b => cases h
    | _ => decide

theorem Opcode.ofSpelling?_eq_some {word : Text} {op : Opcode} :
    ofSpelling? word = some op ↔ op.isListed = true ∧ word = op.spelling := by
  constructor
  · intro h
    have hspelling := List.find?_some h
    exact ⟨mem_all.1 (List.mem_of_find?_eq_some h), (eq_of_beq hspelling).symm⟩
  · rintro ⟨hop, rfl⟩
    have hall : (all.all fun op => ofSpelling? op.spelling == some op) = true := by decide +kernel
    exact eq_of_beq (List.all_eq_true.1 hall op (mem_all.2 hop))

namespace Listing

/-! ### What a line says -/

/-- A line without its comment and outer blanks. -/
def content (line : Text) : Text :=
  (withoutComment line).trim

theorem content_nil : content [] = [] := by
  simp [content, withoutComment, Text.trim, Utf8.pieces, Text.ofPieces]

/-- A line declares a label. -/
def Declares (line name : Text) : Prop :=
  content line = name ++ [0x3A] ∧ isLabel name = true

/-- Whether there is something on a line other than a label. -/
def holdsInstruction (line : Text) : Bool :=
  !(content line).isEmpty && (content line).getLast? != some 0x3A

/-- The lines with instructions. -/
def instructionLines (lines : List Text) : List Text :=
  lines.filter holdsInstruction

/-- A word stands for a target: for a label if it can be one, else for a pc. -/
inductive SpellsTarget : Text → BranchTarget → Prop
  | label {name : Text} (hname : isLabel name = true) : SpellsTarget name (.label name)
  | address {word : Text} {pc : Nat} (hword : isLabel word = false)
      (hpc : readDecimal? 64 word = some (pc : Int)) : SpellsTarget word (.address pc)

/-- The word behind an opcode spells an instruction.  A branch is spelled with its target, which
says nothing about the distance. -/
inductive SpellsOperand (op : Opcode) : Text → Instruction → Option BranchTarget → Prop
  | number {word : Text} {n : Int}
      (hk : op.operand = .byte ∨ op.operand = .short ∨ op.operand = .slot)
      (hn : readDecimal? 64 word = some n) : SpellsOperand op word { op, operand := n } none
  | index {word : Text} {n : Int} (hk : op.operand = .poolByte ∨ op.operand = .poolShort)
      (hn : readDecimal? 64 word = some n) :
      SpellsOperand op (0x23 :: word) { op, operand := n } none
  | branch {word : Text} {target : BranchTarget} {distance : Int} (hk : op.operand = .branch)
      (htarget : SpellsTarget word target) :
      SpellsOperand op word { op, operand := distance } (some target)

/-- The words of a line spell an instruction. -/
inductive Spells : List Text → Instruction → Option BranchTarget → Prop
  | plain {op : Opcode} (hop : op.isListed = true) (hk : op.operand = .none) :
      Spells [op.spelling] { op } none
  | operand {op : Opcode} {word : Text} {i : Instruction} {target : Option BranchTarget}
      (h : SpellsOperand op word i target) : Spells [op.spelling, word] i target
  | wide {op : Opcode} {word : Text} {n : Int} (hop : op = .iload ∨ op = .istore)
      (hn : readDecimal? 64 word = some n) :
      Spells [Opcode.wide.spelling, op.spelling, word] { op, operand := n, wide := true } none

/-! ### Reading words -/

theorem readNumber_eq_ok {word : Text} {low high n : Int} :
    readNumber word low high = .ok n ↔ readDecimal? 64 word = some n ∧ low ≤ n ∧ n ≤ high := by
  unfold readNumber
  cases readDecimal? 64 word with
  | none => simp
  | some m =>
    simp only [Option.some.injEq]
    split
    · rename_i h
      constructor
      · intro heq
        obtain rfl := Except.ok.inj heq
        exact ⟨rfl, h⟩
      · rintro ⟨rfl, -⟩
        rfl
    · rename_i h
      constructor
      · intro heq
        cases heq
      · rintro ⟨rfl, hrange⟩
        exact absurd hrange h

theorem readPoolIndex_eq_ok {word : Text} {high n : Int} :
    readPoolIndex word high = .ok n ↔
      ∃ digits, word = 0x23 :: digits ∧ readDecimal? 64 digits = some n ∧ 1 ≤ n ∧ n ≤ high := by
  unfold readPoolIndex
  split
  · rename_i digits
    rw [readNumber_eq_ok]
    constructor
    · intro h
      exact ⟨digits, rfl, h⟩
    · rintro ⟨digits', heq, h⟩
      obtain rfl := (List.cons.inj heq).2
      exact h
  · rename_i hword
    constructor
    · intro h
      cases h
    · rintro ⟨digits, rfl, -⟩
      exact absurd rfl (hword digits)

/-- A word is read as the target it stands for, unless that is a pc out of range. -/
theorem readTarget_eq_ok {word : Text} {target : BranchTarget} :
    readTarget word = .ok target ↔
      SpellsTarget word target ∧ ∀ pc, target = .address pc → pc ≤ 0xFFFF := by
  unfold readTarget
  split
  · rename_i hlabel
    constructor
    · intro h
      obtain rfl := Except.ok.inj h
      exact ⟨.label hlabel, fun _ h => by cases h⟩
    · rintro ⟨h, -⟩
      cases h with
      | label => rfl
      | address hword => exact absurd hlabel (by simp [hword])
  · rename_i hlabel
    rw [Bool.not_eq_true] at hlabel
    simp only [bind_eq_ok, readNumber_eq_ok, pure_eq_ok]
    constructor
    · rintro ⟨n, ⟨hn, hlow, hhigh⟩, rfl⟩
      obtain ⟨pc, rfl⟩ := Int.eq_ofNat_of_zero_le hlow
      refine ⟨.address hlabel hn, fun pc' h => ?_⟩
      obtain rfl := BranchTarget.address.inj h
      omega
    · rintro ⟨h, hrange⟩
      cases h with
      | label hname => exact absurd hname (by simp [hlabel])
      | @address pc _ hpc =>
        have hle := hrange pc rfl
        exact ⟨pc, ⟨hpc, by omega, by omega⟩, rfl⟩

/-- What is read of a line: every number on it is in its range, and no distance is known yet. -/
structure InRange (i : Instruction) (target : Option BranchTarget) : Prop where
  /-- The operand fits the bytes it has. -/
  encodable : i.Encodable
  /-- The pool has no entry 0. -/
  index_ne : i.op.operand = .poolByte ∨ i.op.operand = .poolShort → i.operand ≠ 0
  /-- A pc fits two bytes. -/
  address_le : ∀ pc, target = some (.address pc) → pc ≤ 0xFFFF
  /-- The distance of a branch is left open. -/
  distance_eq : i.op.operand = .branch → i.operand = 0

theorem SpellsOperand.operand_ne {op : Opcode} {word : Text} {i : Instruction}
    {target : Option BranchTarget} (h : SpellsOperand op word i target) :
    op.operand ≠ .none ∧ op.operand ≠ .wide := by
  cases h with
  | number hk => rcases hk with hk | hk | hk <;> simp [hk]
  | index hk => rcases hk with hk | hk <;> simp [hk]
  | branch hk => simp [hk]

/-- An opcode and a word are read as the instruction that they spell. -/
theorem readOperand_eq_ok {op : Opcode} (hnone : op.operand ≠ .none) (hwide : op.operand ≠ .wide)
    {word : Text} {i : Instruction} {target : Option BranchTarget} :
    readOperand op word = .ok (i, target) ↔ SpellsOperand op word i target ∧ InRange i target := by
  have hop := Opcode.isListed_of_operand hnone
  constructor
  · intro h
    unfold readOperand at h
    cases hk : op.operand with
    | none => exact absurd hk hnone
    | wide => exact absurd hk hwide
    | byte | short | slot =>
      simp only [hk, bind_eq_ok, readNumber_eq_ok, pure_eq_ok, Prod.mk.injEq] at h
      obtain ⟨n, ⟨hn, hlow, hhigh⟩, rfl, rfl⟩ := h
      refine ⟨.number (by simp [hk]) hn, ⟨?_, by simp [hk], by simp, by simp [hk]⟩⟩
      rw [Instruction.encodable_iff hop hwide, hk]
      exact ⟨hlow, hhigh⟩
    -- an index is a number behind its sign, and above 0
    | poolByte | poolShort =>
      simp only [hk, bind_eq_ok, readPoolIndex_eq_ok, pure_eq_ok, Prod.mk.injEq] at h
      obtain ⟨n, ⟨digits, rfl, hn, hlow, hhigh⟩, rfl, rfl⟩ := h
      refine ⟨.index (by simp [hk]) hn, ⟨?_, fun _ => ?_, by simp, by simp [hk]⟩⟩
      · rw [Instruction.encodable_iff hop hwide, hk]
        exact ⟨by simp only [OperandKind.low]; omega, hhigh⟩
      · exact Int.ne_of_gt hlow
    -- a target is kept apart, and the operand stays 0 until its label is known
    | branch =>
      simp only [hk, bind_eq_ok, readTarget_eq_ok, pure_eq_ok, Prod.mk.injEq] at h
      obtain ⟨t, ⟨ht, hrange⟩, rfl, rfl⟩ := h
      refine ⟨.branch hk ht, ⟨?_, by simp [hk], fun pc hpc => ?_, fun _ => rfl⟩⟩
      · rw [Instruction.encodable_iff hop hwide, hk]
        exact ⟨by decide, by decide⟩
      · exact hrange pc (Option.some.inj hpc)
  · rintro ⟨h, hrange⟩
    unfold readOperand
    cases h with
    | @number word n hk hn =>
      -- a number in the range of its kind is accepted
      have hbounds := (Instruction.encodable_iff hop hwide).1 hrange.encodable
      rcases hk with hk | hk | hk <;>
      · rw [hk] at hbounds
        simp only [hk, bind_eq_ok, readNumber_eq_ok, pure_eq_ok]
        exact ⟨n, ⟨hn, hbounds⟩, rfl⟩
    | @index word n hk hn =>
      have hbounds := (Instruction.encodable_iff hop hwide).1 hrange.encodable
      have hne : n ≠ 0 := hrange.index_ne hk
      rcases hk with hk | hk <;>
      · rw [hk] at hbounds
        simp only [hk, bind_eq_ok, readPoolIndex_eq_ok, pure_eq_ok]
        refine ⟨n, ⟨word, rfl, hn, ?_, hbounds.2⟩, rfl⟩
        have hlow := hbounds.1
        simp only [OperandKind.low] at hlow
        omega
    | @branch word t distance hk ht =>
      obtain rfl : distance = 0 := hrange.distance_eq hk
      simp only [hk, bind_eq_ok, readTarget_eq_ok, pure_eq_ok]
      exact ⟨t, ⟨ht, fun pc hpc => hrange.address_le pc (congrArg some hpc)⟩, rfl⟩

/-- The words behind `wide` are read as the instruction that they spell. -/
theorem readWide_eq_ok {words : List Text} {i : Instruction} :
    readWide words = .ok i ↔ ∃ op word n, words = [op.spelling, word] ∧
      (op = .iload ∨ op = .istore) ∧ readDecimal? 64 word = some n ∧
      i = { op, operand := n, wide := true } ∧ i.Encodable := by
  constructor
  · intro h
    unfold readWide at h
    split at h
    · split at h
      -- a load, and a store likewise
      · rename_i word slot _ hword
        obtain ⟨-, rfl⟩ := Opcode.ofSpelling?_eq_some.1 hword
        simp only [bind_eq_ok, readNumber_eq_ok, pure_eq_ok] at h
        obtain ⟨n, ⟨hn, hlow, hhigh⟩, rfl⟩ := h
        exact ⟨_, _, _, rfl, Or.inl rfl, hn, rfl,
          Instruction.encodable_wide_iff.2 ⟨Or.inl rfl, hlow, hhigh⟩⟩
      · rename_i word slot _ hword
        obtain ⟨-, rfl⟩ := Opcode.ofSpelling?_eq_some.1 hword
        simp only [bind_eq_ok, readNumber_eq_ok, pure_eq_ok] at h
        obtain ⟨n, ⟨hn, hlow, hhigh⟩, rfl⟩ := h
        exact ⟨_, _, _, rfl, Or.inr rfl, hn, rfl,
          Instruction.encodable_wide_iff.2 ⟨Or.inr rfl, hlow, hhigh⟩⟩
      · cases h
    · cases h
  · rintro ⟨op, word, n, rfl, hop, hn, rfl, hencodable⟩
    obtain ⟨-, hlow, hhigh⟩ := Instruction.encodable_wide_iff.1 hencodable
    have hspelling : Opcode.ofSpelling? op.spelling = some op := by
      rcases hop with rfl | rfl <;> decide
    rcases hop with rfl | rfl <;>
    · simp only [readWide, hspelling, bind_eq_ok, readNumber_eq_ok, pure_eq_ok]
      exact ⟨n, ⟨hn, hlow, hhigh⟩, rfl⟩

/-- A mnemonic without operand is read by itself. -/
theorem readInstruction_single {op : Opcode} (hop : op.isListed = true) (hk : op.operand = .none) :
    readInstruction [op.spelling] = .ok ({ op }, none) := by
  have hspelling := Opcode.ofSpelling?_eq_some.2 ⟨hop, rfl⟩
  unfold readInstruction
  simp only [hspelling]
  split
  · rename_i heq
    cases heq
  · rename_i heq
    obtain rfl := Option.some.inj heq
    cases hk
  · rename_i heq
    obtain rfl := Option.some.inj heq
    split <;> simp_all

/-- A mnemonic with an operand is read with the word behind it. -/
theorem readInstruction_pair {op : Opcode} (hnone : op.operand ≠ .none)
    (hwide : op.operand ≠ .wide) (word : Text) :
    readInstruction [op.spelling, word] = readOperand op word := by
  have hspelling := Opcode.ofSpelling?_eq_some.2 ⟨Opcode.isListed_of_operand hnone, rfl⟩
  unfold readInstruction
  simp only [hspelling]
  split
  · rename_i heq
    cases heq
  · rename_i heq
    obtain rfl := Option.some.inj heq
    exact absurd rfl hwide
  · rename_i heq
    obtain rfl := Option.some.inj heq
    split <;> simp_all

/-- **The words of a line are read as the instruction that they spell**, if and only if its numbers
are in their ranges. -/
theorem readInstruction_eq_ok {words : List Text} {i : Instruction}
    {target : Option BranchTarget} :
    readInstruction words = .ok (i, target) ↔ Spells words i target ∧ InRange i target := by
  constructor
  · intro h
    unfold readInstruction at h
    split at h
    · cases h
    · split at h
      · cases h
      -- behind `wide` stands a load or store with its slot
      · rename_i word operands _ hword
        obtain ⟨-, rfl⟩ := Opcode.ofSpelling?_eq_some.1 hword
        simp only [bind_eq_ok, readWide_eq_ok, pure_eq_ok, Prod.mk.injEq] at h
        obtain ⟨i', ⟨op, word, n, rfl, hop, hn, rfl, hencodable⟩, rfl, rfl⟩ := h
        refine ⟨.wide hop hn, ⟨hencodable, ?_, by simp, ?_⟩⟩ <;>
          rcases hop with rfl | rfl <;> simp [Opcode.operand]
      · rename_i word operands _ op hne hword
        obtain ⟨hop, rfl⟩ := Opcode.ofSpelling?_eq_some.1 hword
        -- any other opcode stands alone or in front of one word
        have hwide : op.operand ≠ .wide := fun heq => hne (Opcode.eq_wide_of_operand heq)
        split at h
        · rename_i hk
          simp only [Except.ok.injEq, Prod.mk.injEq] at h
          obtain ⟨rfl, rfl⟩ := h
          exact ⟨.plain hop hk, ⟨.none hop hk, by simp [hk], by simp, by simp [hk]⟩⟩
        · cases h
        · rename_i hnone
          obtain ⟨hspells, hrange⟩ := (readOperand_eq_ok hnone hwide).1 h
          exact ⟨.operand hspells, hrange⟩
        · cases h
  · rintro ⟨h, hrange⟩
    cases h with
    | plain hop hk => exact readInstruction_single hop hk
    | operand h =>
      obtain ⟨hnone, hwide⟩ := h.operand_ne
      rw [readInstruction_pair hnone hwide]
      exact (readOperand_eq_ok hnone hwide).2 ⟨h, hrange⟩
    | @wide op word n hop hn =>
      have hspelling : Opcode.ofSpelling? Opcode.wide.spelling = some .wide := by decide
      simp only [readInstruction, hspelling, bind_eq_ok, readWide_eq_ok, pure_eq_ok]
      exact ⟨_, ⟨op, word, n, rfl, hop, hn, rfl, hrange.encodable⟩, rfl⟩

/-! ### Reading lines -/

theorem holdsInstruction_iff {line : Text} : holdsInstruction line = true ↔
    ∃ b, (content line).getLast? = some b ∧ b ≠ 0x3A := by
  unfold holdsInstruction
  cases hlast : (content line).getLast? with
  | none =>
    rw [List.getLast?_eq_none_iff] at hlast
    simp [hlast]
  | some b =>
    have hne : content line ≠ [] := by
      intro hnil
      rw [hnil] at hlast
      cases hlast
    simp [hne]

theorem readItem_eq_blank {line : Text} :
    readItem (content line) = .ok .blank ↔ content line = [] := by
  unfold readItem
  cases hlast : (content line).getLast? with
  | none => simpa using hlast
  | some b =>
    have hne : content line ≠ [] := by
      intro hnil
      rw [hnil] at hlast
      cases hlast
    simp only [hne, iff_false]
    intro h
    split at h
    · rename_i heq
      cases heq
    · split at h <;> cases h
    · rw [bind_eq_ok] at h
      obtain ⟨x, -, hx⟩ := h
      cases hx

theorem readItem_eq_label {line name : Text} :
    readItem (content line) = .ok (.label name) ↔ Declares line name := by
  unfold readItem Declares
  constructor
  · intro h
    split at h
    · cases h
    · rename_i hlast
      split at h
      · rename_i hlabel
        obtain rfl := Item.label.inj (Except.ok.inj h)
        exact ⟨(List.dropLast_append_getLast? _ hlast).symm, hlabel⟩
      · cases h
    · rw [bind_eq_ok] at h
      obtain ⟨x, -, hx⟩ := h
      cases hx
  · rintro ⟨hcontent, hlabel⟩
    rw [hcontent, List.getLast?_concat, List.dropLast_concat]
    simp only [hlabel, if_true]

theorem readItem_eq_instruction {line : Text} {i : Instruction} {target : Option BranchTarget} :
    readItem (content line) = .ok (.instruction i target) ↔
      holdsInstruction line = true ∧ Spells (content line).words i target ∧ InRange i target := by
  rw [holdsInstruction_iff, ← readInstruction_eq_ok]
  unfold readItem
  constructor
  · intro h
    split at h
    · cases h
    · split at h <;> cases h
    · rename_i b hne hlast
      rw [bind_eq_ok] at h
      obtain ⟨⟨i', target'⟩, hread, heq⟩ := h
      obtain ⟨rfl, rfl⟩ := Item.instruction.inj (Except.ok.inj heq)
      exact ⟨⟨b, hlast, hne⟩, hread⟩
  · rintro ⟨⟨b, hlast, hb⟩, hread⟩
    rw [hlast, hread]
    split
    · rename_i heq
      cases heq
    · rename_i heq
      exact absurd (Option.some.inj heq) hb
    · rfl

theorem holdsInstruction_of_blank {line : Text} (h : content line = []) :
    holdsInstruction line = false := by
  simp [holdsInstruction, h]

theorem Declares.holdsInstruction {line name : Text} (h : Declares line name) :
    Listing.holdsInstruction line = false := by
  simp [Listing.holdsInstruction, h.1]

end Listing

end Classwright
