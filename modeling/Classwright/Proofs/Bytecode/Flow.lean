import Classwright.Machine.Link
import Classwright.Proofs.Bytecode.Codec

/-!
# Control flow and stack depth

`Code.Reaches` says which instructions control can reach, with how many values on the stack, when
both ways of every conditional branch are taken.  A depth for each instruction that every step
respects (`Code.ClosedIn`) is a certificate: control reaches an instruction with that depth only
(`Code.Reaches.certified`).
-/

namespace Classwright

/-- How many values an instruction takes from the stack and how many it leaves there, `none` where
that is unknown. -/
def Instruction.effect? (f : ClassFile) (i : Instruction) : Option (Nat × Nat) :=
  match i.op with
  | .iconst0 | .iconst1 | .bipush | .sipush | .ldc | .ldcW
  | .iload | .iload0 | .iload1 | .iload2 | .iload3 | .aload0 | .getStatic => some (0, 1)
  | .istore | .istore0 | .istore1 | .istore2 | .istore3 | .pop | .putStatic
  | .invokeSpecial | .ireturn => some (1, 0)
  | .iadd | .isub | .imul | .idiv => some (2, 1)
  | .ifEq | .ifNe | .ifLt | .ifGe | .ifGt | .ifLe => some (2, 0)
  | .goto | .vreturn => some (0, 0)
  | .invokeStatic =>
    match LinkContext.memberRef f i.operand.toNat .methodRef with
    | .ok (_, _, descriptor) =>
      match MethodType.ofDescriptor descriptor with
      | .ok type => some (type.params, if type.returnsInt then 1 else 0)
      | .error _ => none
    | .error _ => none
  | .wide | .unlisted _ => none

/-- Whether an opcode branches on a comparison. -/
def Opcode.isTest : Opcode → Bool
  | ifEq | ifNe | ifLt | ifGe | ifGt | ifLe => true
  | _ => false

/-- Where control can go behind an instruction at `pc`: to the next instruction unless it always
branches or returns, and to its target if it branches. -/
def Instruction.successors (i : Instruction) (pc : Nat) : List Int :=
  match i.op with
  | .ireturn | .vreturn => []
  | .goto => [i.target pc]
  | .ifEq | .ifNe | .ifLt | .ifGe | .ifGt | .ifLe => [pc + i.size, i.target pc]
  | _ => [pc + i.size]

namespace Instruction

theorem size_test {op : Opcode} (hop : op.isTest = true) (operand : Int) :
    ({ op, operand } : Instruction).size = 3 := by
  cases op <;> first | rfl | simp [Opcode.isTest] at hop

theorem successors_test {op : Opcode} (hop : op.isTest = true) (operand : Int) (pc : Nat) :
    ({ op, operand } : Instruction).successors pc = [(pc : Int) + 3, pc + operand] := by
  cases op <;> first | rfl | simp [Opcode.isTest] at hop

/-- Only loads and stores are ever wide, and control goes on behind them. -/
theorem successors_cut {i : Instruction} (h : i.cut.Encodable) (pc : Nat) :
    i.cut.successors pc = i.successors pc := by
  obtain ⟨op, operand, wide⟩ := i
  cases wide with
  | false => rfl
  | true =>
    rw [cut, if_pos rfl] at h ⊢
    rcases (encodable_wide_iff.1 h).1 with rfl | rfl <;> rfl

end Instruction

namespace Code

/-- Control can reach a pc with a given depth of the stack. -/
inductive Reaches (f : ClassFile) (code : Code) : Int → Int → Prop
  | start : Reaches f code 0 0
  | step {pc : Nat} {i : Instruction} {depth target : Int} {taken left : Nat}
      (h : Reaches f code pc depth) (hi : (pc, i) ∈ locate 0 code)
      (he : i.effect? f = some (taken, left)) (ht : target ∈ i.successors pc) :
      Reaches f code target (depth - taken + left)

/-! ### Certificates -/

/-- Instructions with the depth of the stack in front of each. -/
abbrev Depths := List (Instruction × Nat)

/-- The instructions alone. -/
def Depths.code (code : Depths) : Code :=
  code.map Prod.fst

@[simp] theorem Depths.code_nil : Depths.code [] = [] := rfl

@[simp] theorem Depths.code_cons (x : Instruction × Nat) (rest : Depths) :
    Depths.code (x :: rest) = x.1 :: rest.code := rfl

@[simp] theorem Depths.code_append (pre post : Depths) :
    Depths.code (pre ++ post) = pre.code ++ post.code :=
  List.map_append

/-- An instruction has a depth. -/
theorem Depths.exists_split {depths : Depths} {pre post : Code} {i : Instruction}
    (h : depths.code = pre ++ i :: post) :
    ∃ (before : Depths) (depth : Nat) (behind : Depths),
      depths = before ++ (i, depth) :: behind ∧ before.code = pre := by
  obtain ⟨before, rest, rfl, hbefore, hrest⟩ := List.map_eq_append_iff.1 h
  obtain ⟨⟨j, depth⟩, behind, rfl, rfl, -⟩ := List.map_eq_cons_iff.1 hrest
  exact ⟨before, depth, behind, rfl, hbefore⟩

/-- Control that reaches `code` finds the stack at `depth`. -/
def StartsAt (depth : Nat) (code : Depths) : Prop :=
  ∃ i rest, code = (i, depth) :: rest

/-- An instruction between `pre` and `post` finds enough values, a return leaves nothing behind,
and control goes on at an instruction that expects the depth it comes with. -/
structure ClosedAt (f : ClassFile) (result : ValueType) (pre : Depths) (i : Instruction)
    (depth : Nat) (post : Depths) : Prop where
  /-- A number is returned from a stack with nothing else on it. -/
  ireturn : i.op = .ireturn → result = .int ∧ depth = 1
  /-- Nothing is returned from an empty stack. -/
  vreturn : i.op = .vreturn → result = .void ∧ depth = 0
  /-- The stack holds what the instruction takes, and what it leaves is what is expected. -/
  flow : ∃ taken left, i.effect? f = some (taken, left) ∧ taken ≤ depth ∧
    ∀ target ∈ i.successors pre.code.size, ∃ pre' post',
      pre ++ (i, depth) :: post = pre' ++ post' ∧ target = (pre'.code.size : Int) ∧
        StartsAt (depth - taken + left) post'

/-- This holds of each instruction of `code`, which stands between `pre` and `post`. -/
def ClosedIn (f : ClassFile) (result : ValueType) (pre code post : Depths) : Prop :=
  ∀ before i depth behind, code = before ++ (i, depth) :: behind →
    ClosedAt f result (pre ++ before) i depth (behind ++ post)

variable {f : ClassFile} {result : ValueType} {pre post : Depths}

theorem closedIn_nil : ClosedIn f result pre [] post := by
  intro before i depth behind h
  simp at h

theorem closedIn_cons {i : Instruction} {depth : Nat} {rest : Depths} :
    ClosedIn f result pre ((i, depth) :: rest) post ↔
      ClosedAt f result pre i depth (rest ++ post) ∧
        ClosedIn f result (pre ++ [(i, depth)]) rest post := by
  constructor
  · intro h
    refine ⟨by simpa using h [] i depth rest rfl, fun before j e behind hrest => ?_⟩
    have hj := h ((i, depth) :: before) j e behind (by rw [hrest, List.cons_append])
    rw [List.append_assoc]
    exact hj
  · rintro ⟨hi, hrest⟩ before j e behind h
    cases before with
    | nil =>
      obtain ⟨hij, rfl⟩ := List.cons.inj h
      obtain ⟨rfl, rfl⟩ := Prod.mk.inj hij
      simpa using hi
    | cons x before =>
      obtain ⟨rfl, rfl⟩ := List.cons.inj h
      have hj := hrest before j e behind rfl
      rw [List.append_assoc] at hj
      exact hj

theorem closedIn_append {code others : Depths} :
    ClosedIn f result pre (code ++ others) post ↔
      ClosedIn f result pre code (others ++ post) ∧
        ClosedIn f result (pre ++ code) others post := by
  induction code generalizing pre with
  | nil => simp [closedIn_nil]
  | cons x code ih =>
    obtain ⟨i, depth⟩ := x
    rw [List.cons_append, closedIn_cons, ih, closedIn_cons, List.append_assoc, List.append_assoc,
      and_assoc]
    rfl

/-- An instruction with the next one as its only successor. -/
theorem closedAt_next {i : Instruction} {depth taken left : Nat}
    (hs : ∀ pc, i.successors pc = [(pc : Int) + i.size]) (he : i.effect? f = some (taken, left))
    (ht : taken ≤ depth) (hpost : StartsAt (depth - taken + left) post) :
    ClosedAt f result pre i depth post := by
  refine ⟨fun hop => ?_, fun hop => ?_, taken, left, he, ht, fun target htarget => ?_⟩
  · have hnone := hs 0
    simp [Instruction.successors, hop] at hnone
  · have hnone := hs 0
    simp [Instruction.successors, hop] at hnone
  · rw [hs, List.mem_singleton] at htarget
    refine ⟨pre ++ [(i, depth)], post, by simp, ?_, hpost⟩
    rw [htarget]
    simp

/-- A jump. -/
theorem closedAt_goto {operand : Int} {depth : Nat} (pre' post' : Depths)
    (hcode : pre ++ ({ op := .goto, operand }, depth) :: post = pre' ++ post')
    (htarget : (pre.code.size : Int) + operand = pre'.code.size) (hpost : StartsAt depth post') :
    ClosedAt f result pre { op := .goto, operand } depth post := by
  refine ⟨by simp, by simp, 0, 0, rfl, Nat.zero_le _, fun target ht => ?_⟩
  rw [Instruction.successors, List.mem_singleton] at ht
  exact ⟨pre', post', hcode, ht.trans htarget, hpost⟩

/-- A conditional branch. -/
theorem closedAt_branch {op : Opcode} (hop : op.isTest = true) {operand : Int} {depth : Nat}
    (hpost : StartsAt depth post) (pre' post' : Depths)
    (hcode : pre ++ ({ op, operand }, depth + 2) :: post = pre' ++ post')
    (htarget : (pre.code.size : Int) + operand = pre'.code.size) (hpost' : StartsAt depth post') :
    ClosedAt f result pre { op, operand } (depth + 2) post := by
  refine ⟨?_, ?_, 2, 0, ?_, by omega, fun target ht => ?_⟩
  · rintro rfl
    simp [Opcode.isTest] at hop
  · rintro rfl
    simp [Opcode.isTest] at hop
  · cases op <;> first | rfl | simp [Opcode.isTest] at hop
  · rw [Instruction.successors_test hop, List.mem_cons, List.mem_singleton] at ht
    rcases ht with rfl | rfl
    · refine ⟨pre ++ [(⟨op, operand, false⟩, depth + 2)], post, by simp, ?_, hpost⟩
      simp [Instruction.size_test hop]
    · exact ⟨pre', post', hcode, htarget, hpost'⟩

/-- A return. -/
theorem closedAt_return {op : Opcode} {depth : Nat}
    (h : op = .ireturn ∧ result = .int ∧ depth = 1 ∨ op = .vreturn ∧ result = .void ∧ depth = 0) :
    ClosedAt f result pre { op } depth post := by
  rcases h with ⟨rfl, rfl, rfl⟩ | ⟨rfl, rfl, rfl⟩
  · exact ⟨fun _ => ⟨rfl, rfl⟩, by simp, 1, 0, rfl, Nat.le_refl 1, by simp [Instruction.successors]⟩
  · exact ⟨by simp, fun _ => ⟨rfl, rfl⟩, 0, 0, rfl, Nat.le_refl 0, by simp [Instruction.successors]⟩

/-- Control reaches an instruction with its depth only. -/
theorem Reaches.certified {code : Depths} (h : ClosedIn f result [] code [])
    (hstart : StartsAt 0 code) {pc depth : Int} (hr : Reaches f code.code pc depth) :
    ∃ (before : Depths) (i : Instruction) (d : Nat) (behind : Depths),
      code = before ++ (i, d) :: behind ∧ pc = before.code.size ∧ depth = d := by
  induction hr with
  | start =>
    obtain ⟨i, rest, rfl⟩ := hstart
    exact ⟨[], i, 0, rest, rfl, rfl, rfl⟩
  | @step pc i depth target taken left _ hi he ht ih =>
    obtain ⟨before, i', d, behind, rfl, hpc, rfl⟩ := ih
    obtain ⟨before', behind', hcode, hpc'⟩ := mem_locate.1 hi
    rw [Depths.code_append, Depths.code_cons] at hcode
    obtain ⟨hbefore, rfl, -⟩ := append_inj_of_size hcode (by omega)
    have hclosed := h before i' d behind rfl
    rw [List.nil_append, List.append_nil] at hclosed
    obtain ⟨taken', left', he', htaken, hsucc⟩ := hclosed.flow
    obtain ⟨rfl, rfl⟩ := Prod.mk.inj (Option.some.inj (he'.symm.trans he))
    rw [Int.ofNat_inj.1 hpc] at ht
    obtain ⟨pre', post', hsplit, htarget, j, rest, rfl⟩ := hsucc target ht
    exact ⟨pre', j, _, rest, hsplit, htarget, by omega⟩

end Code

end Classwright
