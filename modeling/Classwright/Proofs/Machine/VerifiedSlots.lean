import Classwright.Proofs.Emit.Slots
import Classwright.Proofs.Machine.VerifiedRuns

/-!
# Slots of verified class files

The verifier compares the slot of a load or store with the number of slots where the slot is an
operand.  The one-byte forms, whose slot follows from the opcode, pass without this check: a method
without slots may read slot 0 (`ClassFile.reads_missing_slot`).  Where the one-byte forms are in
order, no request reads or writes a slot that does not exist (`ClassFile.slots_exist`).
-/

namespace Classwright

/-! ### Errors by slots -/

/-- The slot an error is about, and the number of slots there are. -/
def MachineError.slotFault? : MachineError → Option (Nat × Nat)
  | badCode (.readsSlot _ slot slots) | badCode (.writesSlot _ slot slots) => some (slot, slots)
  | _ => none

theorem MachineError.slotFault?_of_isUnresolved {e : MachineError} (h : e.isUnresolved = true) :
    e.slotFault? = none := by
  cases e with
  | badCode reason => cases reason <;> first | rfl | cases h
  | noMethod => rfl
  | _ => cases h

theorem MachineError.slotFault?_of_isOrdinary {e : MachineError} (h : e.isOrdinary = true) :
    e.slotFault? = none := by
  cases e with
  | badCode reason => cases reason <;> first | rfl | cases h
  | divisionByZero | stepLimit | callDepth | noMethod | noField => rfl
  | _ => cases h

theorem LinkContext.exists_slotUse? {c : LinkContext} {m : RawMethod}
    {starts : Std.HashMap Nat Nat} {pc slot : Nat} {i : Instruction}
    (h : (c.operation m starts pc i).slot? = some slot) :
    ∃ use, i.slotUse? = some use ∧ use.target = slot := by
  unfold operation at h
  unfold Instruction.slotUse?
  cases hop : i.op with
  | iload | iload0 | iload1 | iload2 | iload3 | istore | istore0 | istore1 | istore2 | istore3 =>
    simp only [hop] at h ⊢
    exact ⟨_, rfl, Option.some.inj h⟩
  | ldc | ldcW | getStatic | putStatic | invokeSpecial | invokeStatic =>
    simp only [hop, orFail] at h
    split at h <;> cases h
  | ireturn | vreturn =>
    simp only [hop] at h
    split at h <;> cases h
  | _ =>
    simp only [hop] at h
    cases h

/-! ### Runs -/

/-- The slots of a method exist, and its operations are linked with no error by a slot. -/
structure Method.SlotsExist (m : Method) : Prop where
  /-- A slot that is read or written exists. -/
  slot_lt : ∀ (k : Nat) (op : Operation) (slot : Nat), m.operations[k]? = some op →
    op.slot? = some slot → slot < m.maxLocals
  /-- An operation that was linked with an error has none by a slot. -/
  error : ∀ (k : Nat) (op : Operation) (e : MachineError), m.operations[k]? = some op →
    op.error? = some e → e.slotFault? = none

/-- A frame has the slots of its method. -/
structure Frame.HasSlots (f : Frame) : Prop where
  /-- The slots that the method uses exist. -/
  method : f.method.SlotsExist
  /-- There are as many as the method asks for. -/
  size_eq : f.locals.size = f.method.maxLocals

theorem Method.SlotsExist.enter {m : Method} (h : m.SlotsExist) {arguments : List Int32}
    {f : Frame} (hf : Frame.enter m arguments = .ok f) : f.HasSlots where
  method := (Frame.method_of_enter hf).symm ▸ h
  size_eq := by rw [Frame.size_locals_of_enter hf, Frame.method_of_enter hf]

/-- The slot of an operation in front of which a frame is exists. -/
theorem Frame.HasSlots.slot_lt {f : Frame} (h : f.HasSlots) {op : Operation} {slot : Nat}
    (hop : f.current? = some op) (hslot : op.slot? = some slot) : slot < f.locals.size := by
  rw [h.size_eq]
  exact h.method.slot_lt _ op slot hop hslot

/-- Every frame keeps the slots of its method, and no error by a slot arises. -/
def FrameInvariant.ofSlots {methods : Array Method} (h : ∀ m ∈ methods, m.SlotsExist) :
    FrameInvariant methods where
  frame := Frame.HasSlots
  allows e := e.slotFault? = none
  enter method hmethod _ _ hf := (h method hmethod).enter hf
  move _ _ _ _ _ hf _ _ hsize := ⟨hf.method, hsize.trans hf.size_eq⟩
  restack _ _ hf := ⟨hf.method, hf.size_eq⟩
  linked _ op e hf hop he := hf.method.error _ op e hop he
  load _ _ hf hop hle := absurd (hf.slot_lt hop rfl) (Nat.not_lt.2 hle)
  store _ _ hf hop hle := absurd (hf.slot_lt hop rfl) (Nat.not_lt.2 hle)
  callee _ _ _ _ _ _ := rfl
  ending _ _ _ := rfl
  ordinary _ := MachineError.slotFault?_of_isOrdinary

/-! ### Verified files -/

namespace ClassFile

/-- The loads and stores of a certain form use slots that their methods have. -/
def SlotsExist (f : ClassFile) (form : Instruction → Prop) : Prop :=
  ∀ member ∈ f.methods, ∀ body code, f.methodCode member = .ok body →
    Code.decode body.code = .ok code → ∀ i ∈ code, form i → ∀ use, i.slotUse? = some use →
      use.target < body.maxLocals.toNat

variable {f : ClassFile}

/-- The slots that are operands exist. -/
theorem slotsExist_operand (h : f.verify = .ok ()) :
    f.SlotsExist fun i => i.op.operand = .slot := by
  intro member hmember body code hbody hcode i hi hform use huse
  obtain ⟨-, -, -, -, -, hmethods⟩ := verify_eq_ok.1 h
  obtain ⟨-, body', hbody', hverify⟩ := verifyMethod_eq_ok.1 (hmethods member hmember)
  obtain rfl := Except.ok.inj (hbody'.symm.trans hbody)
  obtain ⟨code', last, hcode', hchecks, -, -⟩ := verifyCode_eq_ok.1 hverify
  obtain rfl := Except.ok.inj (hcode'.symm.trans hcode)
  obtain ⟨pre, post, hsplit⟩ := List.append_of_mem hi
  have hcheck := verifyInstruction_eq_ok.1 (hchecks (Code.size pre, i)
    (Code.mem_locate.2 ⟨pre, post, hsplit, (Nat.zero_add _).symm⟩))
  have hlt : i.operand < body'.maxLocals.toNat := hcheck.2.1 hform
  have htarget : use.target = i.operand.toNat := by
    obtain ⟨op, operand, wide⟩ := i
    cases op <;> first
      | (obtain rfl := Option.some.inj huse; rfl)
      | simp [Opcode.operand] at hform
  have hnonneg := (Code.encodable_of_decode hcode i hi).nonneg_of_slot hform
  omega

variable {limits : Limits} {m : Machine}

/-- The methods of a verified file that is loaded have their slots where the instructions of the
file do. -/
theorem SlotsExist.loaded (hslots : f.SlotsExist fun _ => True) (h : f.verify = .ok ())
    (hm : Machine.load f limits = .ok m) : ∀ method ∈ m.methods, method.SlotsExist := by
  intro method hmethod
  obtain ⟨c, raw, member, hmember, rfl, -, hbody, hcode, haccepts, rfl⟩ :=
    Machine.exists_of_mem_methods h hm hmethod
  constructor
  · intro k op slot hop hslot
    obtain ⟨pre, i, post, hsplit, rfl, rfl⟩ := LinkContext.exists_of_operations hop
    obtain ⟨use, huse, rfl⟩ := LinkContext.exists_slotUse? hslot
    have hi : i ∈ raw.code := by
      rw [hsplit]
      exact List.mem_append_right _ List.mem_cons_self
    exact hslots member hmember raw.body raw.code hbody hcode i hi trivial use huse
  · intro k op e hop he
    obtain ⟨pre, i, post, hsplit, rfl, rfl⟩ := LinkContext.exists_of_operations hop
    exact MachineError.slotFault?_of_isUnresolved
      (LinkContext.isUnresolved_of_operation (verify_eq_ok.1 h).2.1 haccepts hsplit he)

/-- **Slots of verified class files**: the verifier makes sure that a slot that is an operand, in
one byte or in two, exists.  If the slots of the one-byte forms exist too, then all do, and no
request to the loaded class reads or writes a slot that does not. -/
theorem slots_exist (h : f.verify = .ok ()) :
    (f.SlotsExist fun i => i.op.operand = .slot) ∧
    ((f.SlotsExist fun i => i.op.operand ≠ .slot) → (f.SlotsExist fun _ => True) ∧
      ∀ limits m, Machine.load f limits = .ok m → ∀ tracing requests e trace,
        (.error e, trace) ∈ (m.respondAll tracing requests).2 → e.slotFault? = none) := by
  refine ⟨slotsExist_operand h, fun hshort => ?_⟩
  have hall : f.SlotsExist fun _ => True := by
    intro member hmember body code hbody hcode i hi _
    by_cases hform : i.op.operand = .slot
    · exact slotsExist_operand h member hmember body code hbody hcode i hi hform
    · exact hshort member hmember body code hbody hcode i hi hform
  refine ⟨hall, fun limits m hm tracing requests e trace he => ?_⟩
  exact (FrameInvariant.ofSlots (hall.loaded h hm)).allows_of_mem rfl tracing he

end ClassFile

theorem countdown_slotsExist (form : Instruction → Prop) : countdownFile.SlotsExist form := by
  intro member hmember body code hbody hcode i hi _ use huse
  obtain rfl := List.mem_singleton.1 hmember
  obtain rfl := Except.ok.inj (methodCode_countdownMethod.symm.trans hbody)
  obtain rfl := Except.ok.inj (decode_countdownCode.symm.trans hcode)
  have huses : ∀ i ∈ countdownCode, ∀ use ∈ i.slotUse?, use.target < 1 := by decide
  exact huses i hi use huse

theorem ClassFile.slots_exist_countdown : countdownFile.verify = .ok () ∧
    ∃ m, Machine.load countdownFile {} = .ok m ∧ ∀ tracing requests e trace,
      (.error e, trace) ∈ (m.respondAll tracing requests).2 → e.slotFault? = none := by
  obtain ⟨m, hm⟩ := Machine.exists_load_countdownFile
  obtain ⟨-, hruns⟩ := ClassFile.slots_exist verify_countdownFile
  exact ⟨verify_countdownFile, m, hm, (hruns (countdown_slotsExist _)).2 {} m hm⟩

/-- Returns the value of slot 0. -/
def slotlessCode : Code :=
  [{ op := .iload0 }, { op := .ireturn }]

/-- A method with this code and without slots. -/
def slotlessMethod : Member where
  name := 5
  descriptor := 6
  attributes := [⟨7, MethodCode.encode ⟨1, 0, slotlessCode.encode⟩⟩]

/-- A class with this method alone. -/
def slotlessFile : ClassFile where
  major := ClassFile.majorVersion
  pool := #[.utf8 (Text.ofString "A"), .classRef 1, .utf8 ClassFile.objectClass, .classRef 3,
    .utf8 (Text.ofString "f"), .utf8 (Text.ofString "()I"), .utf8 ClassFile.codeAttribute]
  this := 2
  super := 4
  methods := [slotlessMethod]

theorem decode_slotlessCode : Code.decode slotlessCode.encode = .ok slotlessCode := by
  decide +kernel

theorem methodCode_slotlessMethod :
    slotlessFile.methodCode slotlessMethod = .ok ⟨1, 0, slotlessCode.encode⟩ := by
  cbv

theorem verify_slotlessFile : slotlessFile.verify = .ok () := by
  refine ClassFile.verify_eq_ok.2 ⟨⟨rfl, rfl⟩, by decide, rfl, rfl, by decide, ?_⟩
  refine List.forall_mem_singleton.2 (ClassFile.verifyMethod_eq_ok.2 ⟨rfl, _,
    methodCode_slotlessMethod,
    ClassFile.verifyCode_eq_ok.2 ⟨_, _, decode_slotlessCode, ?_, rfl, rfl⟩⟩)
  simp [ClassFile.verifyInstruction_eq_ok, slotlessCode, Code.locate, Instruction.size,
      Opcode.size, Opcode.operand, OperandKind.size, Opcode.poolTag?, Opcode.isBranch]

/-- The verifier passes a method without slots that reads slot 0, and calling it fails. -/
theorem ClassFile.reads_missing_slot : slotlessFile.verify = .ok () ∧
    ∃ m, Machine.load slotlessFile {} = .ok m ∧
      (m.respondAll false [.invoke (Text.ofString "f") []]).2 =
        [(.error (.badCode (.readsSlot (Text.ofString "f") 0 0)), [])] := by
  obtain ⟨raw, hraw⟩ : ∃ raw : RawMethod, raw = ⟨Text.ofString "f", Text.ofString "()I", ⟨0, true⟩,
    ⟨1, 0, slotlessCode.encode⟩, slotlessCode⟩ := ⟨_, rfl⟩
  have hload : Machine.loadMethod slotlessFile slotlessMethod = .ok raw := by
    rw [hraw]
    exact Machine.loadMethod_eq_ok rfl rfl methodCode_slotlessMethod decode_slotlessCode
  have hraws : slotlessFile.methods.mapM (Machine.loadMethod slotlessFile) = .ok [raw] :=
    mapM_eq_ok.2 (.cons hload .nil)
  refine ⟨verify_slotlessFile, _, Machine.load_eq_ok.2 ⟨_, _, _, rfl, rfl, hraws, rfl⟩, ?_⟩
  have hfound : (Machine.indexMethods [raw])[Text.ofString "f" ++
      MethodType.descriptor ⟨0, true⟩]? = some 0 := by
    rw [hraw]
    exact Std.HashMap.getElem?_insert_self
  simp only [Machine.respondAll, Machine.respond, Machine.invoke, Machine.findMethod?,
    List.length_nil, hfound, Option.bind_some, List.map_cons, List.map_nil]
  rw [hraw]
  rfl

end Classwright
