import Classwright.Proofs.Assembly.Assembled
import Classwright.Proofs.Text.Words

/-!
# Listings in several parts

An assembler that reads a listing in two parts, cut behind a line feed, ends where it would have
ended with the whole: the second part yields the same commands or the same error
(`Assembler.read_append`).  What the first part leaves behind are lines, labels and commands, some of
which have their distances already.  These are found anew at the end of each part, so nothing
depends on them (`Assembler.SameButDistances`), and the first part may branch to labels that only the
second declares.
-/

namespace Classwright

/-! ### Lines of a text in two parts -/

/-- The lines up to a line feed do not depend on what stands behind it. -/
theorem Text.exists_lines_lineFeed (front : Text) :
    ∃ line others, ∀ rest : Text,
      (front ++ 0x0A :: rest).lines = line :: (others ++ rest.lines) := by
  induction front with
  | nil =>
    refine ⟨[0x0A], [], fun rest => ?_⟩
    obtain ⟨line, others, hlines⟩ := List.exists_cons_of_ne_nil (lines_ne_nil rest)
    rw [List.nil_append, lines, hlines]
    rfl
  | cons b front ih =>
    obtain ⟨line, others, hlines⟩ := ih
    by_cases hb : b = 0x0A
    · -- the line ends with `b`, and the first line of `front` comes behind it
      refine ⟨[b], line :: others, fun rest => ?_⟩
      rw [List.cons_append, lines, hlines, hb]
      rfl
    · refine ⟨b :: line, others, fun rest => ?_⟩
      rw [List.cons_append, lines, hlines]
      simp only [beq_iff_eq, hb, if_false]

/-- A text is empty or ends with a line feed. -/
def Text.EndsLine (t : Text) : Prop :=
  t = [] ∨ t.getLast? = some 0x0A

theorem Text.EndsLine.exists_lines_append {t : Text} (h : t.EndsLine) :
    ∃ front, ∀ rest, (t ++ rest).lines = front ++ rest.lines := by
  rcases h with rfl | h
  · exact ⟨[], fun _ => rfl⟩
  · obtain ⟨front, rfl⟩ := List.getLast?_eq_some_iff.1 h
    obtain ⟨line, others, hlines⟩ := exists_lines_lineFeed front
    refine ⟨line :: others, fun rest => ?_⟩
    rw [List.append_assoc]
    exact hlines rest

/-! ### Faults of targets -/

/-- Whether a fault is found when the targets of branches are resolved. -/
def ListingFault.concernsTarget : ListingFault → Bool
  | undefinedLabel _ | noInstructionAt _ | branchTooFar _ => true
  | _ => false

/-- A computation fails, if at all, because of what a line says by itself. -/
def FaultsOfLine {α : Type} (x : Except ListingFault α) : Prop :=
  ∀ fault, x = .error fault → fault.concernsTarget = false

namespace FaultsOfLine

variable {α β : Type}

theorem ok (a : α) : FaultsOfLine (.ok a) := by
  intro fault h
  cases h

theorem error {fault : ListingFault} (h : fault.concernsTarget = false) :
    FaultsOfLine (.error fault : Except ListingFault α) := by
  intro fault' heq
  obtain rfl := Except.error.inj heq
  exact h

theorem bind {x : Except ListingFault α} {f : α → Except ListingFault β} (hx : FaultsOfLine x)
    (hf : ∀ a, FaultsOfLine (f a)) : FaultsOfLine (x >>= f) := by
  intro fault h
  rcases bind_eq_error.1 h with h | ⟨a, -, h⟩
  · exact hx fault h
  · exact hf a fault h

end FaultsOfLine

namespace Listing

theorem faultsOfLine_readNumber (word : Text) (low high : Int) :
    FaultsOfLine (readNumber word low high) := by
  unfold readNumber
  split
  · exact .error rfl
  · split
    · exact .ok _
    · exact .error rfl

theorem faultsOfLine_readPoolIndex (word : Text) (high : Int) :
    FaultsOfLine (readPoolIndex word high) := by
  unfold readPoolIndex
  split
  · exact faultsOfLine_readNumber _ _ _
  · exact .error rfl

/-- A target that is no label and no pc is a fault of its line; whether there is such a place is
asked later. -/
theorem faultsOfLine_readTarget (word : Text) : FaultsOfLine (readTarget word) := by
  unfold readTarget
  split
  · exact .ok _
  · exact (faultsOfLine_readNumber _ _ _).bind fun _ => .ok _

theorem faultsOfLine_readOperand (op : Opcode) (word : Text) :
    FaultsOfLine (readOperand op word) := by
  unfold readOperand
  cases op.operand with
  | byte | short | slot => exact (faultsOfLine_readNumber _ _ _).bind fun _ => .ok _
  | poolByte | poolShort => exact (faultsOfLine_readPoolIndex _ _).bind fun _ => .ok _
  | branch => exact (faultsOfLine_readTarget _).bind fun _ => .ok _
  | none | wide => exact .ok _

theorem faultsOfLine_readWide (words : List Text) : FaultsOfLine (readWide words) := by
  unfold readWide
  split
  · split
    · exact (faultsOfLine_readNumber _ _ _).bind fun _ => .ok _
    · exact (faultsOfLine_readNumber _ _ _).bind fun _ => .ok _
    · exact .error rfl
  · exact .error rfl

theorem faultsOfLine_readInstruction (words : List Text) :
    FaultsOfLine (readInstruction words) := by
  unfold readInstruction
  split
  · exact .error rfl
  · split
    · exact .error rfl
    · exact (faultsOfLine_readWide _).bind fun _ => .ok _
    · split
      · exact .ok _
      · exact .error rfl
      · exact faultsOfLine_readOperand _ _
      · exact .error rfl

theorem faultsOfLine_readItem (text : Text) : FaultsOfLine (readItem text) := by
  unfold readItem
  split
  · exact .ok _
  · split
    · exact .ok _
    · exact .error rfl
  · exact (faultsOfLine_readInstruction _).bind fun _ => .ok _

end Listing

namespace Assembler

open Listing

theorem readLines_fault {a b : Assembler} {lines : List Text} {e : ListingError}
    (h : a.readLines lines = (b, some e)) : e.fault.concernsTarget = false := by
  induction lines generalizing a with
  | nil => cases h
  | cons line rest ih =>
    rw [readLines] at h
    split at h
    · rename_i fault hfault
      obtain rfl := Option.some.inj (congrArg Prod.snd h)
      exact faultsOfLine_readItem _ _ hfault
    · split at h
      · obtain rfl := Option.some.inj (congrArg Prod.snd h)
        rfl
      · cases rest with
        | nil => cases h
        | cons next rest => exact ih h

theorem targetPc_fault {a : Assembler} {target : BranchTarget} {fault : ListingFault}
    (h : a.targetPc target = .error fault) : fault.concernsTarget = true := by
  unfold targetPc at h
  split at h
  · cases h
  · split at h
    · cases h
    · obtain rfl := Except.error.inj h
      rfl

theorem resolve_fault {a : Assembler} {e : ListingError} (h : a.resolve = .error e) :
    e.fault.concernsTarget = true := by
  obtain ⟨c, -, hc⟩ := exists_of_mapM_eq_error h
  unfold resolveCommand at hc
  split at hc
  · -- a command without a target is resolved
    cases hc
  · split at hc
    · rename_i fault hfault
      obtain rfl := Except.error.inj hc
      exact targetPc_fault hfault
    · split at hc
      · obtain rfl := Except.error.inj hc
        rfl
      · dsimp only at hc
        split at hc
        · obtain rfl := Except.error.inj hc
          rfl
        · cases hc

/-- A listing fails at a target, if at all, exactly when all its lines are accepted. -/
theorem readLines_snd_eq_none_iff {a : Assembler} {text : Text} :
    (a.readLines text.lines).2 = none ↔
      ∀ e, (a.read text).2 = .error e → e.fault.concernsTarget = true := by
  unfold read
  rcases hread : a.readLines text.lines with ⟨b, _ | e⟩
  · exact ⟨fun _ e he => resolve_fault he, fun _ => rfl⟩
  · constructor
    · intro h
      cases h
    · intro h
      have htarget := h e rfl
      rw [readLines_fault hread] at htarget
      cases htarget

/-! ### Lines behind other lines -/

theorem readLines_of_ne_nil {a : Assembler} {line : Text} {item : Item}
    (hitem : readItem (content line) = .ok item) (hnew : a.repeats item = false)
    {rest : List Text} (hrest : rest ≠ []) :
    a.readLines (line :: rest) = { a.accept (content line) item with
      line := (a.accept (content line) item).line + 1 }.readLines rest := by
  obtain ⟨next, rest, rfl⟩ := List.exists_cons_of_ne_nil hrest
  exact readLines_cons hitem hnew next rest

/-- Behind accepted lines and a line feed, reading goes on where it has stopped. -/
theorem readLines_append {a b : Assembler} {front : List Text}
    (h : a.readLines (front ++ [[]]) = (b, none)) {rest : List Text} (hrest : rest ≠ []) :
    a.readLines (front ++ rest) = b.readLines rest := by
  induction front generalizing a with
  | nil =>
    -- the empty line behind the last line feed says nothing and is not counted
    have hblank : a.readLines [[]] = (a, none) :=
      readLines_singleton (readItem_eq_blank.2 content_nil) rfl
    obtain rfl := congrArg Prod.fst (hblank.symm.trans h)
    rfl
  | cons line front ih =>
    have hne : front ++ [[]] ≠ [] := by simp
    have hne' : front ++ rest ≠ [] := by simp [hrest]
    cases hitem : readItem (content line) with
    | error fault =>
      unfold content at hitem
      simp only [List.cons_append, readLines, hitem] at h
      cases h
    | ok item =>
      cases hnew : a.repeats item with
      | true =>
        unfold content at hitem
        simp only [List.cons_append, readLines, hitem, hnew, if_true] at h
        cases h
      | false =>
        rw [List.cons_append, readLines_of_ne_nil hitem hnew hne] at h
        rw [List.cons_append, readLines_of_ne_nil hitem hnew hne']
        exact ih h

end Assembler

/-! ### Distances that were found already -/

/-- A command as it stands before the distance of its branch is found. -/
def Command.withoutDistance (c : Command) : Command :=
  match c.target with
  | none => c
  | some _ => { c with instruction := { c.instruction with operand := 0 } }

theorem Command.withoutDistance_pc (c : Command) : c.withoutDistance.pc = c.pc := by
  unfold withoutDistance
  cases c.target <;> rfl

namespace Assembler

/-- Two assemblers have read the same, but may have found the distances of different branches. -/
structure SameButDistances (a b : Assembler) : Prop where
  /-- They are on the same line. -/
  line_eq : a.line = b.line
  /-- The next instruction starts at the same place. -/
  pc_eq : a.pc = b.pc
  /-- The labels are the same. -/
  labels_eq : a.labels = b.labels
  /-- So are the commands without the distances that were found. -/
  commands_eq : a.commands.toList.map Command.withoutDistance =
    b.commands.toList.map Command.withoutDistance

/-- A distance is found from the labels, whatever was found before. -/
theorem resolveCommand_withoutDistance {a b : Assembler} (h : a.labels = b.labels)
    (starts : Std.HashSet Nat) (c : Command) :
    a.resolveCommand starts c.withoutDistance = b.resolveCommand starts c := by
  unfold resolveCommand targetPc Command.withoutDistance
  rw [h]
  cases htarget : c.target with
  | none => simp only [htarget]
  | some target => rfl

theorem resolve_eq_mapM {a b : Assembler} (h : a.labels = b.labels) :
    a.resolve = (a.commands.toList.map Command.withoutDistance).mapM (b.resolveCommand
      (Std.HashSet.ofList ((a.commands.toList.map Command.withoutDistance).map Command.pc))) := by
  have hpcs : (a.commands.toList.map Command.withoutDistance).map Command.pc =
      a.commands.toList.map Command.pc := by
    rw [List.map_map]
    exact List.map_congr_left fun c _ => c.withoutDistance_pc
  have hresolve (starts : Std.HashSet Nat) :
      b.resolveCommand starts ∘ Command.withoutDistance = a.resolveCommand starts := by
    funext c
    exact resolveCommand_withoutDistance h.symm starts c
  rw [hpcs, List.mapM_map, hresolve]
  rfl

namespace SameButDistances

variable {a b : Assembler}

/-- Branches go to the same places. -/
theorem resolve_eq (h : a.SameButDistances b) : a.resolve = b.resolve := by
  rw [resolve_eq_mapM h.labels_eq, resolve_eq_mapM rfl, h.commands_eq]

/-- What a line says is taken in alike. -/
theorem accept (h : a.SameButDistances b) (text : Text) (item : Listing.Item) :
    (a.accept text item).SameButDistances (b.accept text item) := by
  cases item with
  | blank => exact h
  | label name =>
    refine ⟨h.line_eq, h.pc_eq, ?_, h.commands_eq⟩
    simp only [Assembler.accept]
    rw [h.labels_eq, h.pc_eq]
  | instruction i target =>
    refine ⟨h.line_eq, ?_, h.labels_eq, ?_⟩
    · simp only [Assembler.accept]
      rw [h.pc_eq]
    · simp only [Assembler.accept, Array.toList_push, List.map_append]
      rw [h.commands_eq, h.pc_eq, h.line_eq]

theorem symm (h : a.SameButDistances b) : b.SameButDistances a :=
  ⟨h.line_eq.symm, h.pc_eq.symm, h.labels_eq.symm, h.commands_eq.symm⟩

theorem trans {c : Assembler} (h : a.SameButDistances b) (h' : b.SameButDistances c) :
    a.SameButDistances c :=
  ⟨h.line_eq.trans h'.line_eq, h.pc_eq.trans h'.pc_eq, h.labels_eq.trans h'.labels_eq,
    h.commands_eq.trans h'.commands_eq⟩

theorem nextLine (h : a.SameButDistances b) :
    { a with line := a.line + 1 }.SameButDistances { b with line := b.line + 1 } :=
  ⟨congrArg (· + 1) h.line_eq, h.pc_eq, h.labels_eq, h.commands_eq⟩

theorem repeats_eq (h : a.SameButDistances b) (item : Listing.Item) :
    a.repeats item = b.repeats item := by
  cases item with
  | label name =>
    rw [repeats, repeats, h.labels_eq]
  | blank | instruction => rfl

/-- Lines are read alike. -/
theorem readLines (h : a.SameButDistances b) (lines : List Text) :
    (a.readLines lines).2 = (b.readLines lines).2 ∧
      (a.readLines lines).1.SameButDistances (b.readLines lines).1 := by
  induction lines generalizing a b with
  | nil => exact ⟨rfl, h⟩
  | cons line rest ih =>
    rw [Assembler.readLines, Assembler.readLines]
    cases hitem : Listing.readItem (Listing.withoutComment line).trim with
    | error fault =>
      exact ⟨by simp only [h.line_eq], h⟩
    | ok item =>
      dsimp only
      rw [h.repeats_eq item]
      split
      · exact ⟨by simp only [h.line_eq], h⟩
      · cases rest with
        | nil => exact ⟨rfl, h.accept _ item⟩
        | cons next rest => exact ih (h.accept _ item).nextLine

end SameButDistances

/-- Filling in distances changes nothing else. -/
theorem map_settled (a : Assembler) (starts : Std.HashSet Nat) (commands : List Command) :
    (a.settled starts commands).map Command.withoutDistance =
      commands.map Command.withoutDistance := by
  induction commands with
  | nil => rfl
  | cons c rest ih =>
    rw [settled]
    split
    · rfl
    · rename_i c' hc
      have hsame : c'.withoutDistance = c.withoutDistance := by
        rcases resolveCommand_eq_ok.1 hc with ⟨-, rfl⟩ | ⟨target, pc, htarget, -, -, -, rfl⟩
        · rfl
        · simp only [Command.withoutDistance, htarget]
      rw [List.map_cons, List.map_cons, hsame, ih]

theorem sameButDistances_settle (a : Assembler) : a.settle.SameButDistances a := by
  refine ⟨rfl, rfl, rfl, ?_⟩
  show (a.settled _ a.commands.toList).map Command.withoutDistance = _
  exact map_settled a _ _

/-! ### Listings in two parts -/

/-- Assemblers that differ in the distances they have found read a listing alike. -/
theorem SameButDistances.read {a b : Assembler} (h : a.SameButDistances b) (text : Text) :
    (a.read text).2 = (b.read text).2 ∧ (a.read text).1.SameButDistances (b.read text).1 := by
  obtain ⟨hfault, hsame⟩ := h.readLines text.lines
  unfold Assembler.read
  rcases ha : a.readLines text.lines with ⟨a', _ | e⟩ <;>
    rcases hb : b.readLines text.lines with ⟨b', _ | e'⟩ <;> rw [ha, hb] at hfault hsame
  · exact ⟨hsame.resolve_eq,
      a'.sameButDistances_settle.trans (hsame.trans b'.sameButDistances_settle.symm)⟩
  · cases hfault
  · cases hfault
  · exact ⟨congrArg Except.error (Option.some.inj hfault), hsame⟩

/-- **Listings may be read in parts**: behind a part of a listing that ends with a line and fails at
a target, if at all, the rest is read with the outcome of the whole listing, and leaves the line, the
pc and the labels that the whole leaves. -/
theorem read_append (a : Assembler) {first : Text} (hfirst : first.EndsLine)
    (h : ∀ e, (a.read first).2 = .error e → e.fault.concernsTarget = true) (second : Text) :
    ((a.read first).1.read second).2 = (a.read (first ++ second)).2 ∧
      ((a.read first).1.read second).1.line = (a.read (first ++ second)).1.line ∧
      ((a.read first).1.read second).1.pc = (a.read (first ++ second)).1.pc ∧
      ((a.read first).1.read second).1.labels = (a.read (first ++ second)).1.labels := by
  obtain ⟨front, hlines⟩ := hfirst.exists_lines_append
  have hall := readLines_snd_eq_none_iff.2 h
  rcases hb : a.readLines first.lines with ⟨b, e⟩
  obtain rfl : e = none := by rwa [hb] at hall
  -- the first part leaves `b` with some distances, and the whole passes through `b`
  have hleft : (a.read first).1 = b.settle := by rw [read, hb]
  have hwhole : a.read (first ++ second) = b.read second := by
    have hfront : a.readLines (front ++ [[]]) = (b, none) := by
      have hnil := hlines []
      rw [List.append_nil] at hnil
      rw [← hb, hnil]
      rfl
    rw [read, read, hlines second, readLines_append hfront (Text.lines_ne_nil second)]
  -- what the first part has found is found anew behind the second
  obtain ⟨hresult, hsame⟩ := b.sameButDistances_settle.read second
  rw [hleft, hwhole]
  exact ⟨hresult, hsame.line_eq, hsame.pc_eq, hsame.labels_eq⟩

end Assembler

/-- A part of a listing that branches to a label of its own and to one that it does not declare. -/
def Listing.forward : Text :=
  Text.ofString "top:\ngoto top\ngoto end\n"

/-- What is read of it. -/
def Listing.forwardRead : Assembler where
  line := 4
  pc := 6
  labels := ({} : Std.HashMap Text Nat).insert (Text.ofString "top") 0
  commands := #[
    ⟨{ op := .goto }, some (.label (Text.ofString "top")), 0, 2, Text.ofString "goto top"⟩,
    ⟨{ op := .goto }, some (.label (Text.ofString "end")), 3, 3, Text.ofString "goto end"⟩]

theorem Listing.readLines_forward :
    ({} : Assembler).readLines forward.lines = (forwardRead, none) := by
  cbv

theorem Listing.resolve_forward :
    forwardRead.resolve = .error ⟨3, .undefinedLabel (Text.ofString "end")⟩ := by
  have hne : Text.ofString "top" ≠ Text.ofString "end" := by decide
  have hfits : fitsBranch 0 = true := by decide
  unfold Assembler.resolve
  simp [forwardRead, Assembler.resolveCommand, Assembler.targetPc, hne, hfits, bind, Except.bind]

theorem Assembler.read_append_forward :
    Listing.forward.EndsLine ∧
      (({} : Assembler).read Listing.forward).2 =
        .error ⟨3, .undefinedLabel (Text.ofString "end")⟩ ∧
      ((({} : Assembler).read Listing.forward).1.read (Text.ofString "end:\nreturn\n")).2 =
        (({} : Assembler).read (Listing.forward ++ Text.ofString "end:\nreturn\n")).2 := by
  have hends : Listing.forward.EndsLine := Or.inr (by decide)
  have hread : ({} : Assembler).read Listing.forward =
      (Listing.forwardRead.settle, Listing.forwardRead.resolve) := by
    rw [read, Listing.readLines_forward]
  have hfails : (({} : Assembler).read Listing.forward).2 =
      .error ⟨3, .undefinedLabel (Text.ofString "end")⟩ := by
    rw [hread]
    exact Listing.resolve_forward
  have htarget : ∀ e, (({} : Assembler).read Listing.forward).2 = .error e →
      e.fault.concernsTarget = true := by
    intro e he
    obtain rfl := Except.error.inj (hfails.symm.trans he)
    rfl
  exact ⟨hends, hfails, (read_append {} hends htarget (Text.ofString "end:\nreturn\n")).1⟩

end Classwright
