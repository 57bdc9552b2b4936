import Classwright.Proofs.Emit.Peak

/-!
# Emitted code is type safe

Every method of the class file of a checked program has type-safe code (`Code.TypeSafe`,
`Program.Emitted.typeSafe`): control stays at instructions, finds the same depth of the stack on all
ways to one of them, never leaves the bounds of the stack and reaches its top, uses only slots that
exist, and returns what the method returns with nothing else on the stack.
-/

namespace Classwright

/-- The slot that an instruction reads or writes. -/
def Instruction.slot? (i : Instruction) : Option Nat :=
  match i.op with
  | .iload | .istore => some i.operand.toNat
  | .iload0 | .istore0 | .aload0 => some 0
  | .iload1 | .istore1 => some 1
  | .iload2 | .istore2 => some 2
  | .iload3 | .istore3 => some 3
  | _ => none

namespace Code

/-- Code that may run with a stack of `maxStack` values and `maxLocals` slots. -/
structure TypeSafe (f : ClassFile) (result : ValueType) (maxStack maxLocals : Nat) (code : Code) :
    Prop where
  /-- Control reaches instructions only, which find what they take. -/
  inside : ∀ pc depth, Reaches f code pc depth → ∃ n i taken left, (n, i) ∈ locate 0 code ∧
    pc = (n : Int) ∧ i.effect? f = some (taken, left) ∧ (taken : Int) ≤ depth
  /-- It reaches an instruction with one depth of the stack. -/
  unique : ∀ pc depth depth', Reaches f code pc depth → Reaches f code pc depth' → depth = depth'
  /-- The stack is never below empty, -/
  nonneg : ∀ pc depth, Reaches f code pc depth → 0 ≤ depth
  /-- nor higher than it may be. -/
  le_maxStack : ∀ pc depth, Reaches f code pc depth → depth ≤ maxStack
  /-- Somewhere it is as high as it may be. -/
  attained : ∃ pc, Reaches f code pc maxStack
  /-- The slots exist. -/
  slots : ∀ i ∈ code, ∀ slot, i.slot? = some slot → slot < maxLocals
  /-- Where control ends, it returns what the method returns, with nothing else on the stack. -/
  ends : ∀ (pc : Nat) depth i, Reaches f code pc depth → (pc, i) ∈ locate 0 code →
    i.successors pc = [] → i.op = .ireturn ∧ result = .int ∧ depth = 1 ∨
      i.op = .vreturn ∧ result = .void ∧ depth = 0

variable {f : ClassFile} {result : ValueType} {maxStack maxLocals : Nat}

/-- An instruction behind which control ends is a return. -/
theorem op_of_successors_eq_nil {i : Instruction} {pc : Nat} (h : i.successors pc = []) :
    i.op = .ireturn ∨ i.op = .vreturn := by
  unfold Instruction.successors at h
  split at h
  · rename_i hop
    exact Or.inl hop
  · rename_i hop
    exact Or.inr hop
  all_goals simp at h

/-- Depths that control respects make code type safe. -/
theorem typeSafe_of_closedIn {depths : Depths} (hbound : ∀ x ∈ depths, x.2 ≤ maxStack)
    (hstart : StartsAt 0 depths) (hclosed : ClosedIn f result [] depths [])
    (hpeak : ∃ pc, Reaches f depths.code pc maxStack)
    (hslots : ∀ i ∈ depths.code, ∀ slot, i.slot? = some slot → slot < maxLocals) :
    TypeSafe f result maxStack maxLocals depths.code where
  inside pc depth hr := by
    -- what is reached is an instruction with the depth noted for it
    obtain ⟨before, i, d, behind, rfl, rfl, rfl⟩ := hr.certified hclosed hstart
    obtain ⟨taken, left, heffect, htaken, -⟩ := (hclosed before i d behind rfl).flow
    refine ⟨before.code.size, i, taken, left, mem_locate.2 ⟨before.code, behind.code, ?_, ?_⟩, rfl,
      heffect, by omega⟩
    · rw [Depths.code_append, Depths.code_cons]
    · rw [Nat.zero_add]
  unique pc depth depth' hr hr' := by
    obtain ⟨before, i, d, behind, hcode, hpc, rfl⟩ := hr.certified hclosed hstart
    obtain ⟨before', i', d', behind', hcode', hpc', rfl⟩ := hr'.certified hclosed hstart
    -- both depths are noted at one place, which is that of one instruction
    have hsame : before.code ++ i :: behind.code = before'.code ++ i' :: behind'.code := by
      have hcodes := congrArg Depths.code (hcode.symm.trans hcode')
      rwa [Depths.code_append, Depths.code_cons, Depths.code_append, Depths.code_cons] at hcodes
    obtain ⟨hbefore, -, -⟩ := append_inj_of_size hsame (by omega)
    have hlength : before.length = before'.length := by
      simpa [Depths.code] using congrArg List.length hbefore
    obtain ⟨-, hcons⟩ := List.append_inj (hcode.symm.trans hcode') hlength
    obtain ⟨hpair, -⟩ := List.cons.inj hcons
    rw [(Prod.mk.inj hpair).2]
  nonneg pc depth hr := by
    obtain ⟨before, i, d, behind, -, -, rfl⟩ := hr.certified hclosed hstart
    exact Int.natCast_nonneg d
  le_maxStack pc depth hr := by
    obtain ⟨before, i, d, behind, rfl, -, rfl⟩ := hr.certified hclosed hstart
    have hle := hbound (i, d) (by simp)
    dsimp only at hle
    omega
  attained := hpeak
  slots := hslots
  ends pc depth i hr hi hnone := by
    obtain ⟨before, i', d, behind, rfl, hpc, rfl⟩ := hr.certified hclosed hstart
    obtain ⟨before', behind', hcode, hpc'⟩ := mem_locate.1 hi
    rw [Depths.code_append, Depths.code_cons] at hcode
    obtain ⟨-, rfl, -⟩ := append_inj_of_size hcode (by omega)
    have hat := hclosed before i' d behind rfl
    -- control ends at returns only
    rcases op_of_successors_eq_nil hnone with hop | hop
    · obtain ⟨hresult, rfl⟩ := hat.ireturn hop
      exact Or.inl ⟨hop, hresult, rfl⟩
    · obtain ⟨hresult, rfl⟩ := hat.vreturn hop
      exact Or.inr ⟨hop, hresult, rfl⟩

end Code

/-! ### Slots and peaks of methods -/

theorem slot?_loadSlot (n : Nat) : (loadSlot n).slot? = some n := by
  match n with
  | 0 | 1 | 2 | 3 => rfl
  | n + 4 => rfl

theorem slot?_storeSlot (n : Nat) : (storeSlot n).slot? = some n := by
  match n with
  | 0 | 1 | 2 | 3 => rfl
  | n + 4 => rfl

namespace EmitContext

/-- Emitted instructions use the slots of their context. -/
theorem Emits.slot_lt {c : EmitContext} {n : Nat} (hs : c.SlotsBelow n) {i : Instruction}
    (h : c.Emits i) {slot : Nat} (hslot : i.slot? = some slot) : slot < n := by
  cases h with
  | push h =>
    rcases push_eq_ok h with ⟨-, rfl⟩ | ⟨-, rfl⟩ | ⟨index, -, ⟨-, rfl⟩ | rfl⟩ <;>
    · simp [Instruction.slot?] at hslot
  | @load id k h =>
    obtain rfl := Option.some.inj ((slot?_loadSlot k).symm.trans hslot)
    exact hs id k h
  | @store id k h =>
    obtain rfl := Option.some.inj ((slot?_storeSlot k).symm.trans hslot)
    exact hs id k h
  | field hop => rcases hop with rfl | rfl <;> simp [Instruction.slot?] at hslot
  | invoke => simp [Instruction.slot?] at hslot
  | @plain op hop =>
    have hnone : ∀ op ∈ [Opcode.iconst0, .iconst1, .pop, .iadd, .isub, .imul, .idiv, .ireturn,
        .vreturn], ({ op } : Instruction).slot? = none := by decide
    rw [hnone op hop] at hslot
    cases hslot
  | @branch op v hop =>
    cases op <;> first | exact absurd hop (by decide) | simp [Instruction.slot?] at hslot

variable {p : Program} {pool : PoolBuilder} {f : ClassFile} {d : Declaration}

/-- The stack of a procedure is as high as it needs to be. -/
theorem Layout.peak (hf : p.Emitted pool f) {statements : List Node} {body : Code}
    (h : Layout p pool d statements body) :
    ∃ pc, Code.Reaches f (body ++ tail d) pc (stackOf p d) := by
  obtain ⟨hend, hpeak⟩ := h.code.peaks (hf.callsKnown rfl rfl)
    (show body ++ tail d = [] ++ (body ++ tail d) from rfl) .start
  rw [← h.completes_eq] at hend
  rw [stackOf, h.stmtStack_eq]
  refine exists_reaches_max hpeak ?_
  split
  · rename_i hc
    rw [Bool.and_eq_true, beq_iff_eq] at hc
    have hcode : body ++ tail d = body ++ { op := .iconst0 } :: [{ op := .ireturn }] := by
      rw [tail_of_int hc.1 hc.2]
    exact ⟨_, (hend hc.1).push hcode (fun _ => rfl) rfl⟩
  · exact ⟨0, .start⟩

end EmitContext

/-! ### Class files -/

namespace Program

variable {p : Program} {pool : PoolBuilder} {f : ClassFile}

theorem Emitted.typeSafe_procedure (hp : p.WellFormed) (hf : p.Emitted pool f) {d : Declaration}
    {raw : RawMethod} (h : MethodFor p pool d raw) :
    Code.TypeSafe f d.type raw.body.maxStack.toNat raw.body.maxLocals.toNat raw.code := by
  obtain ⟨statements, body, hlayout, hcode⟩ := h.layout
  obtain ⟨depths, hdepths, hbound, hstart, hclosed⟩ := (hlayout.withDepths hf).closed
  have hpeak := hlayout.peak hf
  rw [h.maxStack_eq, h.maxLocals_eq, hcode, ← hdepths]
  rw [← hdepths] at hpeak
  refine Code.typeSafe_of_closedIn hbound hstart hclosed hpeak fun i hi slot hslot => ?_
  rw [hdepths] at hi
  exact (hlayout.emits i hi).slot_lt (EmitContext.Layout.slotsBelow hp d) hslot

theorem Emitted.typeSafe_constructor {raw : RawMethod} (h : InitFor p pool raw) :
    Code.TypeSafe f .void raw.body.maxStack.toNat raw.body.maxLocals.toNat raw.code := by
  obtain ⟨stores, hstores, hcode⟩ := h.code_eq
  obtain ⟨depths, hdepths, hbound, hstart, hclosed⟩ :=
    (hstores.withDepths_initCode (f := f)).closed
  have hpeak : ∃ pc, Code.Reaches f (EmitContext.initCode pool stores) pc (1 : Nat) := by
    have hreceiver : EmitContext.initCode pool stores = [] ++ { op := .aload0 } :: _ := rfl
    exact ⟨_, Code.Reaches.start.push hreceiver (fun _ => rfl) rfl⟩
  rw [h.maxStack_eq, h.maxLocals_eq, hcode, ← hdepths]
  rw [← hdepths] at hpeak
  refine Code.typeSafe_of_closedIn hbound hstart hclosed hpeak fun i hi slot hslot => ?_
  rw [hdepths, EmitContext.initCode, List.mem_cons, List.mem_cons, List.mem_append,
    List.mem_singleton] at hi
  rcases hi with rfl | rfl | hi | rfl
  · obtain rfl := Option.some.inj hslot
    exact Nat.one_pos
  · simp [Instruction.slot?] at hslot
  · exact absurd ((hstores.emits i hi).slot_lt (EmitContext.slotsBelow_init p pool) hslot)
      (Nat.not_lt_zero slot)
  · simp [Instruction.slot?] at hslot

/-- Every method of a checked program can be decoded, and its code is type safe. -/
theorem Emitted.typeSafe (hp : p.Checked) (hslots : p.SlotsFit) (hf : p.Emitted pool f)
    {m : Member} (hm : m ∈ f.methods) :
    ∃ raw, Machine.loadMethod f m = .ok raw ∧
      Code.TypeSafe f (if raw.type.returnsInt then .int else .void) raw.body.maxStack.toNat
        raw.body.maxLocals.toNat raw.code := by
  obtain ⟨methods, constructor, hmethods, hprocedures, code, hcode, hinit⟩ := hf.methods
  rw [hmethods, List.mem_append, List.mem_singleton] at hm
  rcases hm with hm | rfl
  · obtain ⟨d, hd, code, hcode, hmethod⟩ := exists_of_forall₂ hprocedures hm
    obtain ⟨id, hid, hk⟩ := hp.wellFormed.mem_procedureDecls.1 hd
    obtain ⟨raw, hload, hraw⟩ := Machine.loadMethod_of_procedureCode hp hslots hid hk hcode
      (hf.pool_eq ▸ hmethod)
    have hresult : (if raw.type.returnsInt then ValueType.int else .void) = d.type := by
      rw [hraw.type_eq]
      cases d.type <;> rfl
    refine ⟨raw, hload, ?_⟩
    rw [hresult]
    exact hf.typeSafe_procedure hp.wellFormed hraw
  · obtain ⟨raw, hload, hraw⟩ := Machine.loadMethod_of_constructorCode hcode (hf.pool_eq ▸ hinit)
    refine ⟨raw, hload, ?_⟩
    rw [hraw.type_eq]
    exact typeSafe_constructor hraw

end Program

end Classwright
