import Classwright.Proofs.Assembly.Lines
import Mathlib

/-!
# Assembled code

The code of a listing means what the listing says (`Listing.Describes`,
`Listing.describes_of_assemble`): there is one instruction for each line with an instruction, spelled
by its words, and a branch goes to the pc on its line or to the instruction behind its label.

An assembler keeps track of what it has read (`Assembler.Collected`); each line that it accepts
keeps this so (`Assembler.Collected.accept`), and so does a whole listing
(`Assembler.collected_of_readLines`).
-/

namespace Classwright

namespace Code

/-- Instructions of the same sizes start at the same places. -/
theorem size_take_congr {code other : Code}
    (h : code.map Instruction.size = other.map Instruction.size) (n : Nat) :
    size (code.take n) = size (other.take n) := by
  induction code generalizing other n with
  | nil => rw [List.map_eq_nil_iff.1 h.symm]
  | cons i rest ih =>
    obtain ⟨j, others, rfl, hsize, hrest⟩ := List.map_eq_cons_iff.1 h.symm
    cases n with
    | zero => rfl
    | succ n =>
      rw [List.take_succ_cons, List.take_succ_cons, size_cons, size_cons, hsize,
        ih hrest.symm n]

/-- Instructions start at different places. -/
theorem take_inj_of_size {code : Code} {n m : Nat} (hn : n ≤ code.length) (hm : m ≤ code.length)
    (h : size (code.take n) = size (code.take m)) : n = m := by
  have hlength := length_eq_of_size
    ((List.take_append_drop n code).trans (List.take_append_drop m code).symm) h
  rwa [List.length_take_of_le hn, List.length_take_of_le hm] at hlength

theorem map_snd_locate (pc : Nat) (code : Code) : (locate pc code).map Prod.snd = code := by
  induction code generalizing pc with
  | nil => rfl
  | cons i rest ih => rw [locate, List.map_cons, ih]

end Code

namespace Listing

/-! ### Labels -/

/-- A line declares a label behind `n` instructions. -/
def DeclaredAt (lines : List Text) (name : Text) (n : Nat) : Prop :=
  ∃ before line after, lines = before ++ line :: after ∧ Declares line name ∧
    (instructionLines before).length = n

theorem declaredAt_concat {lines : List Text} {line name : Text} {n : Nat} :
    DeclaredAt (lines ++ [line]) name n ↔
      DeclaredAt lines name n ∨ Declares line name ∧ (instructionLines lines).length = n := by
  constructor
  · rintro ⟨before, line', after, heq, hdeclares, hn⟩
    rcases after.eq_nil_or_concat with rfl | ⟨after, last, rfl⟩
    · obtain ⟨rfl, hline⟩ := List.append_inj' heq rfl
      obtain rfl := List.singleton_inj.1 hline
      exact Or.inr ⟨hdeclares, hn⟩
    · rw [List.concat_eq_append, ← List.cons_append, ← List.append_assoc] at heq
      obtain ⟨rfl, -⟩ := List.append_inj' heq rfl
      exact Or.inl ⟨before, line', after, rfl, hdeclares, hn⟩
  · rintro (⟨before, line', after, rfl, hdeclares, hn⟩ | ⟨hdeclares, hn⟩)
    · exact ⟨before, line', after ++ [line], by simp, hdeclares, hn⟩
    · exact ⟨lines, line, [], rfl, hdeclares, hn⟩

theorem DeclaredAt.le_length {lines : List Text} {name : Text} {n : Nat}
    (h : DeclaredAt lines name n) : n ≤ (instructionLines lines).length := by
  obtain ⟨before, line, after, rfl, -, rfl⟩ := h
  simp [instructionLines]

theorem instructionLines_concat (lines : List Text) (line : Text) :
    instructionLines (lines ++ [line]) =
      instructionLines lines ++ (if holdsInstruction line then [line] else []) := by
  simp [instructionLines, List.filter_append, List.filter_cons]

/-! ### What a listing says -/

/-- Where a branch of a listing goes: a label stands for the instruction behind the line that
declares it, and there is one. -/
inductive Goes (text : Text) (code : Code) : BranchTarget → Int → Prop
  | address (pc : Nat) : Goes text code (.address pc) pc
  | label {name : Text} {pc : Nat} (hdeclared : ∃ n, DeclaredAt text.lines name n)
      (hpc : ∀ n, DeclaredAt text.lines name n → n < code.length ∧ pc = Code.size (code.take n)) :
      Goes text code (.label name) pc

/-- Code is what a listing describes. -/
structure Describes (text : Text) (code : Code) : Prop where
  /-- Each line with an instruction stands for one. -/
  length_eq : (instructionLines text.lines).length = code.length
  /-- The words of the line spell the instruction, and a branch goes where the line says. -/
  spells : ∀ k line (i : Instruction), (instructionLines text.lines)[k]? = some line → code[k]? = some i →
    ∃ target, Spells (content line).words i target ∧
      ∀ t, target = some t → Goes text code t (i.target (Code.size (code.take k)))
  /-- A branch goes to an instruction. -/
  lands : ∀ k (i : Instruction), code[k]? = some i → i.op.isBranch = true →
    ∃ n, n < code.length ∧ i.target (Code.size (code.take k)) = Code.size (code.take n)

theorem Spells.isBranch_iff {words : List Text} {i : Instruction} {target : Option BranchTarget}
    (h : Spells words i target) : i.op.isBranch = true ↔ ∃ t, target = some t := by
  rw [Opcode.isBranch, beq_iff_eq]
  cases h with
  | plain _ hk => simp [hk]
  | operand h =>
    cases h with
    | number hk => rcases hk with hk | hk | hk <;> simp [hk]
    | index hk => rcases hk with hk | hk <;> simp [hk]
    | branch hk => simp [hk]
  | wide hop => rcases hop with rfl | rfl <;> simp [Opcode.operand]

/-- A branch may have any distance that fits. -/
theorem Spells.redirect {words : List Text} {i : Instruction} {target : BranchTarget}
    (h : Spells words i (some target)) {distance : Int} (hfits : fitsBranch distance = true) :
    Spells words { i with operand := distance } (some target) ∧
      Instruction.Encodable { i with operand := distance } := by
  rw [fitsBranch, Bool.and_eq_true, decide_eq_true_eq, decide_eq_true_eq] at hfits
  cases h with
  | operand h =>
    cases h with
    | branch hk htarget =>
      exact ⟨.operand (.branch hk htarget), .short (Or.inr hk) hfits.1 hfits.2⟩

end Listing

namespace Assembler

open Listing

/-! ### Reading lines -/

/-- What an assembler has read of some lines. -/
structure Collected (lines : List Text) (a : Assembler) : Prop where
  /-- There is a command for each line with an instruction. -/
  commands : List.Forall₂
    (fun line c => readItem (content line) = .ok (.instruction c.instruction c.target))
    (instructionLines lines) a.commands.toList
  /-- Commands start where those in front of them end. -/
  starts : ∀ k c, a.commands.toList[k]? = some c →
    c.pc = Code.size ((Command.code a.commands.toList).take k)
  /-- The next command starts where the last one ends. -/
  pc_eq : a.pc = Code.size (Command.code a.commands.toList)
  /-- A label stands for the place where it is declared. -/
  labels : ∀ name pc, a.labels[name]? = some pc ↔
    ∃ n, DeclaredAt lines name n ∧ pc = Code.size ((Command.code a.commands.toList).take n)

namespace Collected

variable {lines : List Text} {a : Assembler}

theorem length_eq (h : Collected lines a) :
    (instructionLines lines).length = (Command.code a.commands.toList).length := by
  rw [Command.code, List.length_map]
  exact h.commands.length_eq

/-- An empty line changes nothing. -/
theorem blank (h : Collected lines a) {line : Text} (hline : content line = []) :
    Collected (lines ++ [line]) a := by
  have hlines : instructionLines (lines ++ [line]) = instructionLines lines := by
    simp [instructionLines_concat, holdsInstruction_of_blank hline]
  refine ⟨hlines ▸ h.commands, h.starts, h.pc_eq, fun name pc => ?_⟩
  have hnot : ¬ Declares line name := by
    intro hdeclares
    simp [hdeclares.1] at hline
  simp only [declaredAt_concat, hnot, false_and, or_false]
  exact h.labels name pc

/-- A label that is declared stands for the next instruction. -/
theorem label (h : Collected lines a) {line name : Text} (hline : Declares line name)
    (hnew : a.labels.contains name = false) :
    Collected (lines ++ [line]) { a with labels := a.labels.insert name a.pc } := by
  have hlines : instructionLines (lines ++ [line]) = instructionLines lines := by
    simp [instructionLines_concat, hline.holdsInstruction]
  have hall : (Command.code a.commands.toList).take (instructionLines lines).length =
      Command.code a.commands.toList := by
    rw [h.length_eq, List.take_length]
  refine ⟨hlines ▸ h.commands, h.starts, h.pc_eq, fun other pc => ?_⟩
  simp only [Std.HashMap.getElem?_insert, declaredAt_concat]
  by_cases hother : name = other
  · subst hother
    have hnot (n : Nat) : ¬ DeclaredAt lines name n := by
      intro hn
      have hmem := (h.labels name _).2 ⟨n, hn, rfl⟩
      rw [Std.HashMap.contains_eq_isSome_getElem?, hmem] at hnew
      cases hnew
    simp only [beq_self_eq_true, if_true, hnot, false_or, hline, true_and, Option.some.injEq,
      exists_eq_left', hall, h.pc_eq]
    exact eq_comm
  · have hnot : ¬ Declares line other := by
      intro hdeclares
      exact hother (List.append_left_injective _ (hline.1.symm.trans hdeclares.1))
    simp only [beq_iff_eq, hother, if_false, hnot, false_and, or_false]
    exact h.labels other pc

/-- An instruction starts where the last one ends. -/
theorem instruction (h : Collected lines a) {line text : Text} {i : Instruction}
    {target : Option BranchTarget} (hline : readItem (content line) = .ok (.instruction i target)) :
    Collected (lines ++ [line]) (a.accept text (.instruction i target)) := by
  have hholds := (readItem_eq_instruction.1 hline).1
  have hlines : instructionLines (lines ++ [line]) = instructionLines lines ++ [line] := by
    simp [instructionLines_concat, hholds]
  have hcode : Command.code (a.accept text (.instruction i target)).commands.toList =
      Command.code a.commands.toList ++ [i] := by
    simp [accept, Command.code]
  -- the instructions in front stay where they are
  have htake (n : Nat) (hn : n ≤ (Command.code a.commands.toList).length) :
      (Command.code a.commands.toList ++ [i]).take n =
        (Command.code a.commands.toList).take n := List.take_append_of_le_length hn
  refine ⟨?_, fun k c hc => ?_, ?_, fun name pc => ?_⟩
  · rw [hlines]
    simp only [accept, Array.toList_push]
    exact List.rel_append h.commands (.cons hline .nil)
  · rw [hcode]
    simp only [accept, Array.toList_push] at hc
    have hk := (List.getElem?_eq_some_iff.1 hc).1
    have hlength : (Command.code a.commands.toList).length = a.commands.toList.length :=
      List.length_map _
    rw [List.length_append, List.length_singleton] at hk
    rw [htake k (by omega)]
    -- an old command, or the new one at the end
    by_cases hlast : k < a.commands.toList.length
    · rw [List.getElem?_append_left hlast] at hc
      exact h.starts k c hc
    · obtain rfl : k = a.commands.toList.length := by omega
      rw [List.getElem?_concat_length] at hc
      obtain rfl := Option.some.inj hc
      rw [← hlength, List.take_length]
      exact h.pc_eq
  · rw [hcode, Code.size_append]
    simp [accept, h.pc_eq]
  -- a line with an instruction declares no label
  · have hnot : ¬ Declares line name := by
      intro hdeclares
      rw [hdeclares.holdsInstruction] at hholds
      cases hholds
    rw [hcode]
    simp only [accept, declaredAt_concat, hnot, false_and, or_false]
    rw [h.labels name pc]
    refine exists_congr fun n => and_congr_right fun hn => ?_
    rw [htake n (h.length_eq ▸ hn.le_length)]

theorem atLine (h : Collected lines a) (line : Nat) : Collected lines { a with line } :=
  ⟨h.commands, h.starts, h.pc_eq, h.labels⟩

/-- What is read of a line is taken in. -/
theorem accept (h : Collected lines a) (text : Text) {line : Text} {item : Item}
    (hitem : readItem (content line) = .ok item) (hnew : a.repeats item = false) :
    Collected (lines ++ [line]) (a.accept text item) := by
  cases item with
  | blank => exact h.blank (readItem_eq_blank.1 hitem)
  | label name => exact h.label (readItem_eq_label.1 hitem) hnew
  | instruction i target => exact h.instruction hitem

end Collected

/-- An assembler that has read nothing. -/
theorem collected_nil : Collected [] {} where
  commands := .nil
  starts _ _ hc := by simp at hc
  pc_eq := rfl
  labels name pc := by
    constructor
    · intro h
      simp at h
    · rintro ⟨n, ⟨before, line, after, heq, -⟩, -⟩
      simp at heq

/-- **What an assembler has read**: the lines that are accepted behind others are collected. -/
theorem collected_of_readLines {before lines : List Text} {a b : Assembler}
    (h : Collected before a) (hread : a.readLines lines = (b, none)) :
    Collected (before ++ lines) b := by
  induction lines generalizing before a with
  | nil =>
    obtain rfl : a = b := congrArg Prod.fst hread
    rwa [List.append_nil]
  | cons line rest ih =>
    rw [readLines] at hread
    split at hread
    · cases hread
    · rename_i item hitem
      split at hread
      · cases hread
      · rename_i hnew
        rw [Bool.not_eq_true] at hnew
        have hnext := h.accept (content line) hitem hnew
        have hlines : before ++ line :: rest = (before ++ [line]) ++ rest := by simp
        rw [hlines]
        cases rest with
        | nil =>
          obtain rfl := congrArg Prod.fst hread
          rwa [List.append_nil]
        | cons next rest => exact ih (hnext.atLine _) hread

theorem readLines_singleton {a : Assembler} {line : Text} {item : Item}
    (hitem : readItem (content line) = .ok item) (hnew : a.repeats item = false) :
    a.readLines [line] = (a.accept (content line) item, none) := by
  unfold content at hitem
  simp only [readLines, hitem, hnew, Bool.false_eq_true, if_false]
  rfl

theorem readLines_cons {a : Assembler} {line : Text} {item : Item}
    (hitem : readItem (content line) = .ok item) (hnew : a.repeats item = false) (next : Text)
    (rest : List Text) :
    a.readLines (line :: next :: rest) =
      { a.accept (content line) item with
        line := (a.accept (content line) item).line + 1 }.readLines (next :: rest) := by
  unfold content at hitem
  rw [readLines]
  simp only [hitem, hnew, Bool.false_eq_true, if_false]
  rfl

/-- Lines that are read and declare no labels are accepted. -/
theorem exists_readLines {lines : List Text}
    (h : ∀ line ∈ lines, ∃ item, readItem (content line) = .ok item ∧ ∀ name, item ≠ .label name)
    (a : Assembler) : ∃ b, a.readLines lines = (b, none) := by
  induction lines generalizing a with
  | nil => exact ⟨a, rfl⟩
  | cons line rest ih =>
    rw [List.forall_mem_cons] at h
    obtain ⟨⟨item, hitem, hlabel⟩, hrest⟩ := h
    have hnew : a.repeats item = false := by
      cases item with
      | label name => exact absurd rfl (hlabel name)
      | blank | instruction => rfl
    cases rest with
    | nil => exact ⟨_, readLines_singleton hitem hnew⟩
    | cons next rest =>
      rw [readLines_cons hitem hnew]
      exact ih hrest _

/-! ### Resolving targets -/

/-- The place of a label is known. -/
theorem targetPc_eq_ok {a : Assembler} {target : BranchTarget} {pc : Nat} :
    a.targetPc target = .ok pc ↔
      target = .address pc ∨ ∃ name, target = .label name ∧ a.labels[name]? = some pc := by
  unfold targetPc
  cases target with
  | address n => simp
  | label name => cases hplace : a.labels[name]? <;> simp [hplace]

/-- A branch is given the distance to its target, which is the start of an instruction. -/
theorem resolveCommand_eq_ok {a : Assembler} {starts : Std.HashSet Nat} {c c' : Command} :
    a.resolveCommand starts c = .ok c' ↔
      (c.target = none ∧ c' = c) ∨ ∃ target pc, c.target = some target ∧
        a.targetPc target = .ok pc ∧ pc ∈ starts ∧ fitsBranch ((pc : Int) - c.pc) = true ∧
        c' = { c with instruction := { c.instruction with operand := (pc : Int) - c.pc } } := by
  constructor
  · intro h
    unfold resolveCommand at h
    split at h
    · rename_i hnone
      exact Or.inl ⟨hnone, (Except.ok.inj h).symm⟩
    · rename_i target htarget
      split at h
      · cases h
      · rename_i pc hpc
        split at h
        · cases h
        · rename_i hstart
          dsimp only at h
          split at h
          · cases h
          · rename_i hfits
            refine Or.inr ⟨target, pc, htarget, hpc, ?_, ?_, (Except.ok.inj h).symm⟩
            · simpa using hstart
            · simpa using hfits
  · rintro (⟨hnone, rfl⟩ | ⟨target, pc, htarget, hpc, hstart, hfits, rfl⟩)
    · simp only [resolveCommand, hnone]
    · simp [resolveCommand, htarget, hpc, hstart, hfits]

namespace Collected

variable {lines : List Text} {a : Assembler}

/-- A place where a branch may go is the start of an instruction. -/
theorem exists_of_mem_starts (h : Collected lines a) {pc : Nat}
    (hpc : pc ∈ Std.HashSet.ofList (a.commands.toList.map Command.pc)) :
    ∃ n, n < a.commands.toList.length ∧
      pc = Code.size ((Command.code a.commands.toList).take n) := by
  rw [Std.HashSet.mem_ofList, List.contains_iff_mem] at hpc
  obtain ⟨c, hc, rfl⟩ := List.mem_map.1 hpc
  obtain ⟨n, hn⟩ := List.getElem?_of_mem hc
  exact ⟨n, (List.getElem?_eq_some_iff.1 hn).1, h.starts n c hn⟩

end Collected

/-- Resolving a branch changes no size. -/
theorem size_of_resolveCommand {a : Assembler} {starts : Std.HashSet Nat} {c c' : Command}
    (h : a.resolveCommand starts c = .ok c') : c.instruction.size = c'.instruction.size := by
  rcases resolveCommand_eq_ok.1 h with ⟨-, rfl⟩ | ⟨target, pc, -, -, -, -, rfl⟩ <;> rfl

/-- A command that is resolved is spelled as before, and a branch goes to its target. -/
theorem spells_of_resolveCommand {a : Assembler} {starts : Std.HashSet Nat} {line : Text}
    {c c' : Command} (hline : readItem (content line) = .ok (.instruction c.instruction c.target))
    (h : a.resolveCommand starts c = .ok c') :
    Spells (content line).words c'.instruction c.target ∧ c'.instruction.Encodable ∧
      ∀ t, c.target = some t → ∃ pc, a.targetPc t = .ok pc ∧ pc ∈ starts ∧
        c'.instruction.target c.pc = pc := by
  obtain ⟨-, hspells, hrange⟩ := readItem_eq_instruction.1 hline
  rcases resolveCommand_eq_ok.1 h with ⟨hnone, rfl⟩ | ⟨target, pc, htarget, hpc, hstart, hfits, rfl⟩
  · refine ⟨hspells, hrange.encodable, fun t ht => ?_⟩
    rw [hnone] at ht
    cases ht
  · rw [htarget] at hspells
    obtain ⟨hspells, hencodable⟩ := hspells.redirect hfits
    refine ⟨htarget ▸ hspells, hencodable, fun t ht => ?_⟩
    obtain rfl := Option.some.inj (htarget.symm.trans ht)
    refine ⟨pc, hpc, hstart, ?_⟩
    show (c.pc : Int) + ((pc : Int) - c.pc) = pc
    omega

/-- A listing is read if its lines are and its targets can be resolved. -/
theorem read_eq_ok {a : Assembler} {text : Text} {commands : List Command} :
    (a.read text).2 = .ok commands ↔
      ∃ b, a.readLines text.lines = (b, none) ∧ b.resolve = .ok commands := by
  unfold read
  rcases a.readLines text.lines with ⟨b, _ | e⟩ <;> simp

/-- The code of a listing is what the listing describes, and each operand fits its bytes. -/
theorem Collected.describes {text : Text} {a : Assembler} (h : Collected text.lines a)
    {commands : List Command} (hresolve : a.resolve = .ok commands) :
    Describes text (Command.code commands) ∧ ∀ i ∈ Command.code commands, i.Encodable := by
  have hpairs := mapM_eq_ok.1 hresolve
  have hsizes : (Command.code commands).map Instruction.size =
      (Command.code a.commands.toList).map Instruction.size := by
    rw [Command.code, Command.code, List.map_map, List.map_map]
    exact map_eq_of_forall₂ hpairs fun c c' hc => (size_of_resolveCommand hc).symm
  have hcount : commands.length = a.commands.toList.length := hpairs.length_eq.symm
  have hlength : (instructionLines text.lines).length = (Command.code commands).length := by
    rw [h.length_eq, Command.code, Command.code, List.length_map, List.length_map, hcount]
  -- what is known of the instruction in place `k`
  have hat (k : Nat) (i : Instruction) (hi : (Command.code commands)[k]? = some i) :
      ∃ line target, (instructionLines text.lines)[k]? = some line ∧
        Spells (content line).words i target ∧ i.Encodable ∧ ∀ t, target = some t →
          ∃ n pc, n < (Command.code commands).length ∧ a.targetPc t = .ok pc ∧
            pc = Code.size ((Command.code commands).take n) ∧
            i.target (Code.size ((Command.code commands).take k)) = pc := by
    rw [Command.code, List.getElem?_map, Option.map_eq_some_iff] at hi
    obtain ⟨c', hc', rfl⟩ := hi
    have hk := (List.getElem?_eq_some_iff.1 hc').1
    obtain ⟨line, hline⟩ : ∃ line, (instructionLines text.lines)[k]? = some line :=
      ⟨_, List.getElem?_eq_getElem (by rw [hlength, Command.code, List.length_map]; exact hk)⟩
    obtain ⟨c, hc, hread⟩ := forall₂_getElem? h.commands hline
    obtain ⟨c'', hc'', hresolved⟩ := forall₂_getElem? hpairs hc
    obtain rfl := Option.some.inj (hc''.symm.trans hc')
    obtain ⟨hspells, hencodable, htargets⟩ := spells_of_resolveCommand hread hresolved
    refine ⟨line, c.target, hline, hspells, hencodable, fun t ht => ?_⟩
    obtain ⟨pc, hpc, hstart, hgoes⟩ := htargets t ht
    obtain ⟨n, hn, hplace⟩ := h.exists_of_mem_starts hstart
    refine ⟨n, pc, ?_, hpc, ?_, ?_⟩
    · rwa [Command.code, List.length_map, hcount]
    · rw [hplace, Code.size_take_congr hsizes]
    · rw [← hgoes, h.starts k c hc, Code.size_take_congr hsizes]
  refine ⟨⟨hlength, fun k line i hline hi => ?_, fun k i hi hbranch => ?_⟩, fun i hi => ?_⟩
  · obtain ⟨line', target, hline', hspells, -, htarget⟩ := hat k i hi
    obtain rfl := Option.some.inj (hline'.symm.trans hline)
    refine ⟨target, hspells, fun t ht => ?_⟩
    obtain ⟨n, pc, hn, hpc, hstart, hgoes⟩ := htarget t ht
    rw [hgoes]
    rcases targetPc_eq_ok.1 hpc with rfl | ⟨name, rfl, hname⟩
    · exact .address pc
    · obtain ⟨m, hm, -⟩ := (h.labels name pc).1 hname
      refine .label ⟨m, hm⟩ fun m hm => ?_
      -- the place of the label is that of an instruction, so it is not the end of the code
      have hplace := Option.some.inj (hname.symm.trans ((h.labels name _).2 ⟨m, hm, rfl⟩))
      rw [← Code.size_take_congr hsizes] at hplace
      have heq := Code.take_inj_of_size (hlength ▸ hm.le_length) (Nat.le_of_lt hn)
        (hplace.symm.trans hstart)
      exact ⟨heq ▸ hn, hplace⟩
  · obtain ⟨line, target, -, hspells, -, htarget⟩ := hat k i hi
    obtain ⟨t, ht⟩ := hspells.isBranch_iff.1 hbranch
    obtain ⟨n, pc, hn, -, hstart, hgoes⟩ := htarget t ht
    exact ⟨n, hn, by rw [hgoes, hstart]⟩
  · obtain ⟨k, hk⟩ := List.getElem?_of_mem hi
    obtain ⟨line, target, -, -, hencodable, -⟩ := hat k i hk
    exact hencodable

end Assembler

/-- **Assembled code means what its listing says**: the bytes of a listing that is accepted are those
of code that the listing describes. -/
theorem Listing.describes_of_assemble {text : Text} {bytes : List UInt8}
    (h : assemble text = .ok bytes) :
    ∃ code, Code.decode bytes = .ok code ∧ Listing.Describes text code := by
  rw [assemble, bind_eq_ok] at h
  obtain ⟨commands, hread, hbytes⟩ := h
  obtain rfl := pure_eq_ok.1 hbytes
  obtain ⟨a, hlines, hresolve⟩ := Assembler.read_eq_ok.1 hread
  obtain ⟨hdescribes, hencodable⟩ :=
    (Assembler.collected_of_readLines Assembler.collected_nil hlines).describes hresolve
  exact ⟨_, Code.decode_encode hencodable, hdescribes⟩

/-- A listing with labels in front of and behind branches, a comment, a wide instruction and the pc
of an instruction. -/
def Listing.loops : Text :=
  Text.ofString "top:\n goto end // on\ngoto top\nend:\nwide iload 300\nif_icmpeq 3"

theorem Listing.lines_loops : loops.lines = ["top:\n", " goto end // on\n", "goto top\n", "end:\n",
    "wide iload 300\n", "if_icmpeq 3"].map Text.ofString := by
  decide +kernel

/-- What is read of the listing. -/
def Listing.loopsRead : Assembler where
  line := 6
  pc := 13
  labels := (({} : Std.HashMap Text Nat).insert (Text.ofString "top") 0).insert
    (Text.ofString "end") 6
  commands := #[
    ⟨{ op := .goto }, some (.label (Text.ofString "end")), 0, 2,
      content (Text.ofString " goto end // on\n")⟩,
    ⟨{ op := .goto }, some (.label (Text.ofString "top")), 3, 3,
      content (Text.ofString "goto top\n")⟩,
    ⟨{ op := .iload, operand := 300, wide := true }, none, 6, 5,
      content (Text.ofString "wide iload 300\n")⟩,
    ⟨{ op := .ifEq }, some (.address 3), 10, 6, content (Text.ofString "if_icmpeq 3")⟩]

theorem Listing.readLines_loops :
    ({} : Assembler).readLines loops.lines = (loopsRead, none) := by
  have htop : readItem (content (Text.ofString "top:\n")) = .ok (.label (Text.ofString "top")) := by
    decide +kernel
  have hforth : readItem (content (Text.ofString " goto end // on\n")) =
      .ok (.instruction { op := .goto } (some (.label (Text.ofString "end")))) := by decide +kernel
  have hback : readItem (content (Text.ofString "goto top\n")) =
      .ok (.instruction { op := .goto } (some (.label (Text.ofString "top")))) := by decide +kernel
  have hend : readItem (content (Text.ofString "end:\n")) = .ok (.label (Text.ofString "end")) := by
    decide +kernel
  have hwide : readItem (content (Text.ofString "wide iload 300\n")) =
      .ok (.instruction { op := .iload, operand := 300, wide := true } none) := by decide +kernel
  have hnumber : readItem (content (Text.ofString "if_icmpeq 3")) =
      .ok (.instruction { op := .ifEq } (some (.address 3))) := by decide +kernel
  have hne : Text.ofString "top" ≠ Text.ofString "end" := by decide
  rw [lines_loops]
  simp only [List.map_cons, List.map_nil]
  rw [Assembler.readLines_cons htop (by simp [Assembler.repeats]),
    Assembler.readLines_cons hforth rfl, Assembler.readLines_cons hback rfl,
    Assembler.readLines_cons hend (by simp [Assembler.repeats, Assembler.accept, hne]),
    Assembler.readLines_cons hwide rfl, Assembler.readLines_singleton hnumber rfl]
  rfl

theorem Listing.resolve_loops : ∃ commands, loopsRead.resolve = .ok commands ∧
    Command.code commands = [{ op := .goto, operand := 6 }, { op := .goto, operand := -3 },
      { op := .iload, operand := 300, wide := true }, { op := .ifEq, operand := -7 }] := by
  have hne : Text.ofString "end" ≠ Text.ofString "top" := by decide
  have htop : loopsRead.targetPc (.label (Text.ofString "top")) = .ok 0 := by
    refine Assembler.targetPc_eq_ok.2 (Or.inr ⟨_, rfl, ?_⟩)
    simp only [loopsRead]
    rw [Std.HashMap.getElem?_insert]
    simp [hne]
  have hend : loopsRead.targetPc (.label (Text.ofString "end")) = .ok 6 :=
    Assembler.targetPc_eq_ok.2 (Or.inr ⟨_, rfl, by simp [loopsRead]⟩)
  have hstart (pc : Nat) (hpc : pc ∈ [0, 3, 6, 10]) :
      pc ∈ Std.HashSet.ofList (loopsRead.commands.toList.map Command.pc) := by
    rw [Std.HashSet.mem_ofList, List.contains_iff_mem]
    exact hpc
  have hgoes (c : Command) {target : BranchTarget} {pc : Nat} (hc : c.target = some target)
      (hpc : loopsRead.targetPc target = .ok pc) (hmem : pc ∈ [0, 3, 6, 10])
      (hfits : fitsBranch ((pc : Int) - c.pc) = true) :=
    Assembler.resolveCommand_eq_ok.2 (Or.inr ⟨target, pc, hc, hpc, hstart pc hmem, hfits, rfl⟩)
  refine ⟨_, mapM_eq_ok.2 (.cons (hgoes _ rfl hend (by decide) ?_) (.cons
    (hgoes _ rfl htop (by decide) ?_) (.cons (Assembler.resolveCommand_eq_ok.2 (Or.inl ⟨rfl, rfl⟩))
    (.cons (hgoes _ rfl rfl (show 3 ∈ _ by decide) ?_) .nil)))), rfl⟩ <;> rfl

theorem Listing.describes_of_assemble_loops :
    ∃ bytes, assemble loops = .ok bytes ∧ bytes.length = 13 ∧
      ∃ code, Code.decode bytes = .ok code ∧ Listing.Describes loops code := by
  obtain ⟨commands, hresolve, hcode⟩ := resolve_loops
  have h : assemble loops = .ok (Command.code commands).encode := by
    rw [assemble, bind_eq_ok]
    exact ⟨_, Assembler.read_eq_ok.2 ⟨_, readLines_loops, hresolve⟩, rfl⟩
  exact ⟨_, h, by rw [hcode]; rfl, Listing.describes_of_assemble h⟩

end Classwright
