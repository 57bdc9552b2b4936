import Classwright.Proofs.ClassFile.Checks
import Classwright.Proofs.Emit.Typed

/-!
# Emitted class files are verified

The class file of a checked program passes the verifier (`Program.Emitted.verify_eq_ok`).  That
branches go to instructions and that control does not run past the end follows from the depths of
the code; pool indexes and slots are checked for each kind of instruction that is emitted.
-/

namespace Classwright

open Code

namespace ClassFile

variable {f : ClassFile}

/-! ### The pool and the members -/

theorem expectTag_of_holds {index : UInt16} {c : Constant} (h : Holds f.pool index c) {tag : Tag}
    (htag : c.tag = tag) : f.expectTag index tag = .ok () :=
  expectTag_eq_ok.2 ⟨c, h, htag⟩

theorem verifyField_of_fieldOf {d : Declaration} {m : Member} (h : FieldOf f.pool d m) :
    f.verifyField m = .ok () := by
  rcases h.attributes with ⟨-, a, index, hm, ha, hindex⟩ | ⟨-, hm⟩
  · have hmember : f.verifyMember m = .ok () := by
      refine verifyMember_eq_ok.2 ⟨⟨_, h.name⟩, ⟨_, h.descriptor⟩, ?_⟩
      rw [hm, List.forall_mem_singleton]
      exact ⟨_, ha⟩
    obtain ⟨x, y, hxy, hn⟩ := BigEndian.ofTwo_two (toNat_le index)
    rw [verifyField, hmember, ok_bind, attribute?_of_holds hm ha, hxy]
    simp only [hn, UInt16.ofNat_toNat]
    exact expectTag_of_holds hindex rfl
  · have hmember : f.verifyMember m = .ok () :=
      verifyMember_eq_ok.2 ⟨⟨_, h.name⟩, ⟨_, h.descriptor⟩, by simp [hm]⟩
    have hnone : f.attribute? m constantValueAttribute = none := by
      rw [attribute?, hm, List.find?_nil]
    rw [verifyField, hmember, ok_bind, hnone]

/-! ### Code -/

/-- What the checks of a single instruction need apart from branches. -/
structure Admits (f : ClassFile) (maxLocals : Nat) (i : Instruction) : Prop where
  /-- Its operand fits its bytes. -/
  encodable : i.Encodable
  /-- The pool entry it refers to is of the right kind. -/
  tag : ∀ tag, i.op.poolTag? = some tag → ∃ (index : UInt16) (c : Constant),
    i.operand = index.toNat ∧ c.tag = tag ∧ Holds f.pool index c
  /-- Its slot exists. -/
  slot : ∀ slot, i.slot? = some slot → slot < maxLocals

theorem Admits.mono {maxLocals maxLocals' : Nat} {i : Instruction} (h : f.Admits maxLocals i)
    (hle : maxLocals ≤ maxLocals') : f.Admits maxLocals' i :=
  { h with slot := fun slot hslot => Nat.lt_of_lt_of_le (h.slot slot hslot) hle }

theorem slot?_of_operand {i : Instruction} (h : i.op.operand = .slot) :
    i.slot? = some i.operand.toNat := by
  obtain ⟨op, operand, wide⟩ := i
  cases op <;> first | rfl | simp [Opcode.operand] at h

theorem target_mem_successors {i : Instruction} (h : i.op.isBranch = true) (pc : Nat) :
    i.target pc ∈ i.successors pc := by
  obtain ⟨op, operand, wide⟩ := i
  change op.isBranch = true at h
  cases op <;> first
    | exact absurd h Bool.false_ne_true
    | simp [Instruction.successors]

/-- A branch goes to an instruction. -/
theorem exists_start_of_isBranch {result : ValueType} {depths : Depths}
    (hclosed : ClosedIn f result [] depths []) {pc : Nat} {i : Instruction}
    (hi : (pc, i) ∈ locate 0 depths.code) (hop : i.op.isBranch = true) :
    ∃ n : Nat, i.target pc = n ∧ n ∈ (locate 0 depths.code).map Prod.fst := by
  obtain ⟨pre, post, hcode, hpc⟩ := mem_locate.1 hi
  obtain ⟨before, depth, behind, rfl, rfl⟩ := Depths.exists_split hcode
  obtain ⟨taken, left, -, -, hflow⟩ := (hclosed before i depth behind rfl).flow
  rw [Nat.zero_add] at hpc
  subst hpc
  obtain ⟨pre', post', hsplit, hpc', j, rest, rfl⟩ := hflow _ (target_mem_successors hop _)
  rw [List.append_nil, List.nil_append] at hsplit
  refine ⟨pre'.code.size, hpc', List.mem_map.2 ⟨(pre'.code.size, j), mem_locate.2
    ⟨pre'.code, Depths.code rest, ?_, (Nat.zero_add _).symm⟩, rfl⟩⟩
  rw [hsplit, Depths.code_append, Depths.code_cons]

/-- Control does not run past the last instruction. -/
theorem endsCode_of_closedIn {result : ValueType} {before : Depths} {i : Instruction} {depth : Nat}
    (hclosed : ClosedIn f result [] (before ++ [(i, depth)]) []) : endsCode i = true := by
  by_contra hends
  obtain ⟨taken, left, -, -, hflow⟩ := (hclosed before i depth [] rfl).flow
  have hnext : (before.code.size : Int) + i.size ∈ i.successors before.code.size := by
    obtain ⟨op, operand, wide⟩ := i
    cases op <;> first | exact absurd rfl hends | simp [Instruction.successors]
  obtain ⟨pre', post', hsplit, hpc', j, rest, rfl⟩ := hflow _ hnext
  have hsize := congrArg (fun depths => (Depths.code depths).size) hsplit
  have hpos := j.size_pos
  simp only [List.nil_append, List.append_nil, Depths.code_append, Depths.code_cons,
    Depths.code_nil, size_append, size_cons, size_nil] at hsize
  omega

/-- Code with depths that control respects is accepted. -/
theorem verifyCode_of_closedIn {result : ValueType} {depths : Depths} (hstart : StartsAt 0 depths)
    (hclosed : ClosedIn f result [] depths []) {m : MethodCode} (hm : m.code = depths.code.encode)
    (hadmits : ∀ i ∈ depths.code, f.Admits m.maxLocals.toNat i) : f.verifyCode m = .ok () := by
  have hencodable : ∀ i ∈ depths.code, i.Encodable := fun i hi => (hadmits i hi).encodable
  obtain ⟨first, others, hfirst⟩ := hstart
  have hstarts : ∀ x ∈ locate 0 depths.code, f.verifyInstruction m.maxLocals
      (Std.HashSet.ofList ((locate 0 depths.code).map Prod.fst)) x.1 x.2 = .ok () := by
    rintro ⟨pc, i⟩ hi
    obtain ⟨pre, post, hcode, -⟩ := mem_locate.1 hi
    have hadmit := hadmits i (by rw [hcode]; simp)
    refine verifyInstruction_eq_ok.2 ⟨fun tag htag => ?_, fun hop => ?_, fun hop => ?_⟩
    · obtain ⟨index, c, hoperand, hc, hholds⟩ := hadmit.tag tag htag
      rw [hoperand, Int.toNat_natCast, UInt16.ofNat_toNat]
      exact expectTag_of_holds hholds hc
    · have hslot := hadmit.slot _ (slot?_of_operand hop)
      show i.operand < m.maxLocals.toNat
      omega
    · obtain ⟨n, hn, hmem⟩ := exists_start_of_isBranch hclosed hi hop
      exact ⟨n, hn, by simpa using hmem⟩
  have hlast : ∃ i, depths.code.getLast? = some i ∧ endsCode i = true := by
    rcases List.eq_nil_or_concat depths with rfl | ⟨before, ⟨last, depth⟩, rfl⟩
    · cases hfirst
    · rw [List.concat_eq_append] at hclosed
      refine ⟨last, ?_, endsCode_of_closedIn hclosed⟩
      rw [List.concat_eq_append, Depths.code_append, Depths.code_cons, Depths.code_nil,
        List.getLast?_concat]
  obtain ⟨last, hlast, hends⟩ := hlast
  exact verifyCode_eq_ok.2
    ⟨depths.code, last, hm ▸ Code.decode_encode hencodable, hstarts, hlast, hends⟩

theorem verifyMethod_of_methodOf {name descriptor : Text} {code : MethodCode} {m : Member}
    (h : MethodOf f.pool name descriptor code m) (hlength : code.code.length ≤ 0xFFFFFFFF)
    (hcode : f.verifyCode code = .ok ()) : f.verifyMethod m = .ok () := by
  have hmember : f.verifyMember m = .ok () := by
    obtain ⟨a, ha, hholds⟩ := h.attributes
    refine verifyMember_eq_ok.2 ⟨⟨_, h.name⟩, ⟨_, h.descriptor⟩, ?_⟩
    rw [ha, List.forall_mem_singleton]
    exact ⟨_, hholds⟩
  exact verifyMethod_eq_ok.2 ⟨hmember, code, methodCode_of_methodOf h hlength, hcode⟩

end ClassFile

/-! ### What is emitted -/

theorem poolTag?_loadSlot (n : Nat) : (loadSlot n).op.poolTag? = none := by
  match n with
  | 0 | 1 | 2 | 3 => rfl
  | n + 4 => rfl

theorem poolTag?_storeSlot (n : Nat) : (storeSlot n).op.poolTag? = none := by
  match n with
  | 0 | 1 | 2 | 3 => rfl
  | n + 4 => rfl

theorem poolTag?_of_branch {op : Opcode} (h : op.operand = .branch) : op.poolTag? = none := by
  cases op <;> first | rfl | simp [Opcode.operand] at h

section Emitted

variable {p : Program} {pool : PoolBuilder} {f : ClassFile}

/-- Emitted instructions pass the checks. -/
theorem EmitContext.Emits.admits (hf : p.Emitted pool f) {c : EmitContext} (hp : c.program = p)
    (hpool : c.pool = pool) {n : Nat} (hs : c.SlotsBelow n) (hn : n ≤ 0x10000) {i : Instruction}
    (h : c.Emits i) : f.Admits n i := by
  refine ⟨h.encodable hs hn, fun tag htag => ?_, fun slot hslot => h.slot_lt hs hslot⟩
  -- a reference of the pool names its declaration
  have hrefers {id : DeclId} {d : Declaration} {index : UInt16} (hd : c.program.decl? id = some d)
      (hr : c.pool.refs[id]? = some index) : PoolBuilder.RefersTo f.pool pool.this d index := by
    rw [hp] at hd
    rw [hpool] at hr
    obtain ⟨d', hd', href⟩ := hf.complete.refs id index hr
    obtain rfl := Option.some.inj (hd'.symm.trans hd)
    rwa [← hf.pool_eq] at href
  cases h with
  | push h =>
    rcases push_eq_ok h with ⟨-, rfl⟩ | ⟨-, rfl⟩ | ⟨index, hindex, ⟨-, rfl⟩ | rfl⟩
    · cases htag
    · cases htag
    all_goals
      obtain rfl := Option.some.inj htag
      rw [hpool] at hindex
      exact ⟨index, _, rfl, rfl, hf.pool_eq ▸ hf.complete.valid.integers _ _ hindex⟩
  | @load id k =>
    rw [poolTag?_loadSlot] at htag
    cases htag
  | @store id k =>
    rw [poolTag?_storeSlot] at htag
    cases htag
  | @field op id d index hop hd hk hr =>
    cases hrefers hd hr with
    | field _ hholds =>
      have htag : tag = .fieldRef := by rcases hop with rfl | rfl <;> exact (Option.some.inj htag).symm
      exact ⟨index, _, rfl, htag ▸ rfl, hholds⟩
    | method hproc => exact absurd hproc hk
  | @invoke id d index hd hk hr =>
    obtain rfl := Option.some.inj htag
    cases hrefers hd hr with
    | field hvalue => simp [hk] at hvalue
    | method _ hholds => exact ⟨index, _, rfl, rfl, hholds⟩
  | @plain op hop =>
    -- these have no index
    have hnone : ∀ op ∈ [Opcode.iconst0, .iconst1, .pop, .iadd, .isub, .imul, .idiv, .ireturn,
        .vreturn], op.poolTag? = none := by decide
    rw [hnone op hop] at htag
    cases htag
  | @branch op v hop =>
    rw [poolTag?_of_branch hop] at htag
    cases htag

namespace Program

theorem Emitted.verifyMethod_procedure (hp : p.Checked) (hslots : p.SlotsFit)
    (hf : p.Emitted pool f) {id : DeclId} {d : Declaration} (hd : p.decl? id = some d)
    (hk : d.kind = .procedure) {code : MethodCode}
    (hcode : EmitContext.procedureCode p pool d = .ok code) {m : Member}
    (hm : MethodOf f.pool d.name d.descriptor code m) : f.verifyMethod m = .ok () := by
  obtain ⟨statements, body, hlayout, rfl⟩ := EmitContext.procedureCode_eq_ok hp hd hk hcode
  have hlocals := hslots id d hd hk
  have hmax : (UInt16.ofNat (p.localsOf d).length).toNat = (p.localsOf d).length :=
    UInt16.toNat_ofNat_of_lt' (Nat.lt_succ_of_le hlocals)
  have hadmits : ∀ i ∈ body ++ EmitContext.tail d,
      f.Admits (UInt16.ofNat (p.localsOf d).length).toNat i := by
    intro i hi
    rw [hmax]
    exact (hlayout.emits i hi).admits hf rfl rfl (EmitContext.Layout.slotsBelow hp.wellFormed d)
      (Nat.le_succ_of_le hlocals)
  obtain ⟨depths, hdepths, -, hstart, hclosed⟩ := (hlayout.withDepths hf).closed
  rw [← hdepths] at hm hadmits
  refine ClassFile.verifyMethod_of_methodOf hm ?_
    (ClassFile.verifyCode_of_closedIn hstart hclosed rfl hadmits)
  rw [Code.length_encode fun i hi => (hadmits i hi).encodable, hdepths]
  have hsize := hlayout.size_le
  omega

theorem Emitted.verifyMethod_constructor (hf : p.Emitted pool f) {code : MethodCode}
    (hcode : EmitContext.constructorCode p pool = .ok code) {m : Member}
    (hm : MethodOf f.pool ClassFile.initName ClassFile.initDescriptor code m) :
    f.verifyMethod m = .ok () := by
  obtain ⟨stores, hstores, hsize, rfl⟩ := EmitContext.constructorCode_eq_ok hcode
  have hadmits : ∀ i ∈ EmitContext.initCode pool stores, f.Admits (1 : UInt16).toNat i := by
    have hinit : f.Admits 1 { op := .invokeSpecial, operand := pool.superInit.toNat } := by
      obtain ⟨s, hholds, -⟩ := hf.complete.superInit
      refine ⟨.longIndex rfl (toNat_le _), fun tag htag => ?_, by simp [Instruction.slot?]⟩
      obtain rfl := Option.some.inj htag
      exact ⟨pool.superInit, _, rfl, rfl, hf.pool_eq ▸ hholds⟩
    refine List.forall_mem_cons.2 ⟨⟨.none rfl rfl, ?_, ?_⟩, List.forall_mem_cons.2 ⟨hinit,
      List.forall_mem_append.2 ⟨fun i hi => ?_, List.forall_mem_singleton.2 ⟨.none rfl rfl, ?_, ?_⟩⟩⟩⟩
    · simp [Opcode.poolTag?]
    · simp [Instruction.slot?]
    · exact ((hstores.emits i hi).admits hf rfl rfl (EmitContext.slotsBelow_init p pool)
        (Nat.zero_le _)).mono (Nat.zero_le _)
    · simp [Opcode.poolTag?]
    · simp [Instruction.slot?]
  obtain ⟨depths, hdepths, -, hstart, hclosed⟩ := (hstores.withDepths_initCode (f := f)).closed
  rw [← hdepths] at hm hadmits
  refine ClassFile.verifyMethod_of_methodOf hm ?_
    (ClassFile.verifyCode_of_closedIn hstart hclosed rfl hadmits)
  rw [Code.length_encode fun i hi => (hadmits i hi).encodable, hdepths]
  omega

/-- The class file of a checked program is accepted. -/
theorem Emitted.verify_eq_ok (hp : p.Checked) (hslots : p.SlotsFit) (hf : p.Emitted pool f) :
    f.verify = .ok () := by
  obtain ⟨methods, constructor, hmethods, hprocedures, code, hcode, hinit⟩ := hf.methods
  refine ClassFile.verify_eq_ok.2 ⟨hf.version_eq, fun c hc => ?_, ?_, ?_, fun m hm => ?_,
    fun m hm => ?_⟩
  · rw [hf.pool_eq] at hc
    exact ClassFile.verifyConstant_eq_ok.2 (Or.inl (hf.pool_eq ▸ hf.complete.valid.sound c hc))
  · obtain ⟨n, hn, -⟩ := hf.complete.this
    rw [hf.this_eq]
    exact ClassFile.expectTag_of_holds (hf.pool_eq ▸ hn) rfl
  · obtain ⟨n, hn, -⟩ := hf.complete.super
    rw [hf.super_eq]
    exact ClassFile.expectTag_of_holds (hf.pool_eq ▸ hn) rfl
  · obtain ⟨d, -, hfield⟩ := exists_of_forall₂ hf.fields hm
    exact ClassFile.verifyField_of_fieldOf (hf.pool_eq ▸ hfield)
  · rw [hmethods, List.mem_append, List.mem_singleton] at hm
    rcases hm with hm | rfl
    · obtain ⟨d, hd, code, hcode, hmethod⟩ := exists_of_forall₂ hprocedures hm
      obtain ⟨id, hid, hk⟩ := hp.wellFormed.mem_procedureDecls.1 hd
      exact hf.verifyMethod_procedure hp hslots hid hk hcode (hf.pool_eq ▸ hmethod)
    · exact hf.verifyMethod_constructor hcode (hf.pool_eq ▸ hinit)

end Program

end Emitted

end Classwright
