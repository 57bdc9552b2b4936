import Classwright.Proofs.ClassFile.Accepted
import Classwright.Proofs.Machine.Enclosed
import Mathlib

/-!
# Running verified class files

A class file that has passed the verifier is loaded unless the descriptor of a method stands for no
type of numbers (`Machine.exists_of_load_eq_error`).  Its methods are enclosed
(`Machine.enclosed_of_verify`), so no request fails by a structural error
(`ClassFile.structurally_sound`).
-/

namespace Classwright

/-! ### Descriptors -/

namespace MethodType

theorem descriptor_eq (type : MethodType) : type.descriptor =
    0x28 :: (List.replicate type.params 0x49 ++ [0x29, if type.returnsInt then 0x49 else 0x56]) := by
  rw [descriptor, procedureDescriptor_eq]
  cases type.returnsInt <;> rfl

/-- The descriptors that are read are those of the types. -/
theorem ofDescriptor_eq_ok {text : Text} {type : MethodType} :
    ofDescriptor text = .ok type ↔ text = type.descriptor := by
  constructor
  · intro h
    unfold ofDescriptor at h
    dsimp only at h
    split at h
    · rename_i rest
      split at h
      · rename_i hall
        have hparams : rest.takeWhile (· != 0x29) =
            List.replicate (rest.takeWhile (· != 0x29)).length 0x49 := by
          refine List.eq_replicate_iff.2 ⟨rfl, fun b hb => ?_⟩
          simpa using List.all_eq_true.1 hall b hb
        have hsplit := List.take_append_drop (rest.takeWhile (· != 0x29)).length rest
        rw [← List.prefix_iff_eq_take.1 (List.takeWhile_prefix _)] at hsplit
        rw [descriptor_eq]
        split at h
        · rename_i hdrop
          obtain rfl := Except.ok.inj h
          rw [hdrop] at hsplit
          rw [← hparams]
          exact congrArg _ hsplit.symm
        · rename_i hdrop
          obtain rfl := Except.ok.inj h
          rw [hdrop] at hsplit
          rw [← hparams]
          exact congrArg _ hsplit.symm
        · cases h
      · cases h
    · cases h
  · rintro rfl
    rw [descriptor, ofDescriptor_procedureDescriptor]
    obtain ⟨params, returnsInt⟩ := type
    cases returnsInt <;> rfl

/-- A text that is no descriptor is named in the error. -/
theorem ofDescriptor_eq_error {text : Text} {e : MachineError} (h : ofDescriptor text = .error e) :
    e = .badCode (.descriptor text) := by
  unfold ofDescriptor at h
  dsimp only at h
  split at h
  · split at h
    · split at h
      · cases h
      · cases h
      · exact (Except.error.inj h).symm
    · exact (Except.error.inj h).symm
  · exact (Except.error.inj h).symm

end MethodType

/-! ### Linked instructions -/

namespace LinkContext

variable {c : LinkContext} {m : RawMethod} {pre post : Code} {i : Instruction}

/-- What is done with the parts of a reference fails by an error of its own only. -/
theorem isUnresolved_of_memberRef {α : Type} (hf : c.file.PoolSound) {index : UInt16}
    {entry : Constant} (h : Holds c.file.pool index entry)
    (htag : entry.tag = .fieldRef ∨ entry.tag = .methodRef)
    {use : Text × Text × Text → Except MachineError α}
    (huse : ∀ parts e, use parts = .error e → e.isUnresolved = true) {e : MachineError}
    (he : (memberRef c.file index.toNat entry.tag >>= use) = .error e) : e.isUnresolved = true := by
  obtain ⟨owner, name, descriptor, hmember⟩ := hf.exists_memberRef h htag
  rw [hmember, ok_bind] at he
  exact huse _ e he

theorem isUnresolved_field (hf : c.file.PoolSound) {index : UInt16} {entry : Constant}
    (h : Holds c.file.pool index entry) (htag : entry.tag = .fieldRef) {e : MachineError}
    (he : c.field index.toNat = .error e) : e.isUnresolved = true := by
  rw [field, ← htag] at he
  refine isUnresolved_of_memberRef hf h (Or.inl htag) (fun parts e he => ?_) he
  dsimp only at he
  split at he
  · split at he <;> cases he
    rfl
  · cases he
    rfl

theorem isUnresolved_method (hf : c.file.PoolSound) {index : UInt16} {entry : Constant}
    (h : Holds c.file.pool index entry) (htag : entry.tag = .methodRef) {e : MachineError}
    (he : c.method index.toNat = .error e) : e.isUnresolved = true := by
  rw [method, ← htag] at he
  refine isUnresolved_of_memberRef hf h (Or.inr htag) (fun parts e he => ?_) he
  dsimp only at he
  split at he
  · split at he <;> cases he
    rfl
  · cases he
    rfl

theorem isUnresolved_superInit (hf : c.file.PoolSound) {index : UInt16} {entry : Constant}
    (h : Holds c.file.pool index entry) (htag : entry.tag = .methodRef) {e : MachineError}
    (he : c.superInit index.toNat = .error e) : e.isUnresolved = true := by
  rw [superInit, ← htag] at he
  refine isUnresolved_of_memberRef hf h (Or.inr htag) (fun parts e he => ?_) he
  dsimp only at he
  split at he <;> cases he
  rfl

theorem error?_orFail {α : Type} {r : Except MachineError α} {f : α → Operation}
    (hf : ∀ a, (f a).error? = none) {e : MachineError} (h : (orFail r f).error? = some e) :
    r = .error e := by
  cases r with
  | error e' =>
    obtain rfl := Option.some.inj h
    rfl
  | ok a => exact absurd ((hf a).symm.trans h) (by simp)

/-- An instruction of accepted code is linked with the error that a name is not found or that a
return is of the wrong kind, if with any. -/
theorem isUnresolved_of_operation (hf : c.file.PoolSound) (ha : c.file.Accepts m.code)
    (hcode : m.code = pre ++ i :: post) {e : MachineError}
    (h : (c.operation m (startsOf (Code.locate 0 m.code)) pre.size i).error? = some e) :
    e.isUnresolved = true := by
  have hi : i ∈ m.code := by rw [hcode]; simp
  -- accepted branches have targets, and accepted indexes have entries of their kind
  have hbranch (hop : i.op.isBranch = true) : ∃ n,
      target m (startsOf (Code.locate 0 m.code)) pre.size i = .ok n := by
    obtain ⟨pre', j, post', hcode', htarget⟩ := ha.branch pre i post hcode hop
    exact ⟨_, target_eq_ok hcode' i pre.size htarget⟩
  have hpool (tag : Tag) (hop : i.op.poolTag? = some tag) : ∃ (index : UInt16) (entry : Constant),
      i.operand.toNat = index.toNat ∧ entry.tag = tag ∧ Holds c.file.pool index entry := by
    obtain ⟨index, entry, hoperand, htag, hholds⟩ := ha.tag i hi tag hop
    exact ⟨index, entry, by rw [hoperand, Int.toNat_natCast], htag, hholds⟩
  unfold operation at h
  cases hop : i.op with
  | ldc | ldcW =>
    obtain ⟨index, entry, hindex, htag, hholds⟩ := hpool .integer (by rw [hop]; rfl)
    obtain ⟨value, rfl⟩ := Constant.tag_eq_integer.1 htag
    simp only [hop, hindex, integer_of_holds hholds] at h
    cases h
  | getStatic | putStatic =>
    obtain ⟨index, entry, hindex, htag, hholds⟩ := hpool .fieldRef (by rw [hop]; rfl)
    simp only [hop, hindex] at h
    exact isUnresolved_field hf hholds htag (error?_orFail (fun _ => rfl) h)
  | invokeSpecial =>
    obtain ⟨index, entry, hindex, htag, hholds⟩ := hpool .methodRef (by rw [hop]; rfl)
    simp only [hop, hindex] at h
    exact isUnresolved_superInit hf hholds htag (error?_orFail (fun _ => rfl) h)
  | invokeStatic =>
    obtain ⟨index, entry, hindex, htag, hholds⟩ := hpool .methodRef (by rw [hop]; rfl)
    simp only [hop, hindex] at h
    exact isUnresolved_method hf hholds htag (error?_orFail (fun _ => rfl) h)
  | ifEq | ifNe | ifLt | ifGe | ifGt | ifLe | goto =>
    obtain ⟨n, hn⟩ := hbranch (by rw [hop]; rfl)
    simp only [hop, hn] at h
    cases h
  | ireturn | vreturn =>
    simp only [hop] at h
    split at h <;> cases h
    rfl
  -- neither of these can be read
  | wide => exact absurd (congrArg Opcode.operand hop) (ha.encodable i hi).operand_ne_wide
  | unlisted b =>
    have hlisted := (ha.encodable i hi).isListed
    rw [hop] at hlisted
    cases hlisted
  | _ =>
    simp only [hop] at h
    cases h

/-- The method that an instruction calls has a number. -/
theorem exists_of_operation_eq_call {starts : Std.HashMap Nat Nat} {pc n : Nat} {name : Text}
    (h : c.operation m starts pc i = .call n name) : ∃ key : Text, c.methods[key]? = some n := by
  unfold operation at h
  cases hop : i.op with
  | invokeStatic =>
    simp only [hop] at h
    cases hr : c.method i.operand.toNat with
    | error e =>
      rw [hr] at h
      cases h
    | ok r =>
      rw [hr] at h
      obtain ⟨rfl, -⟩ := Operation.call.inj h
      exact exists_key_of_method hr
  | ldc | ldcW | getStatic | putStatic | invokeSpecial =>
    simp only [hop, orFail] at h
    split at h <;> cases h
  | ireturn | vreturn =>
    simp only [hop] at h
    split at h <;> cases h
  | _ =>
    simp only [hop] at h
    cases h

/-- Accepted code is linked to a method that control does not leave. -/
theorem enclosed_link {methods : Array Method} (hf : c.file.PoolSound)
    (ha : c.file.Accepts m.code)
    (hmethods : ∀ (key : Text) (n : Nat), c.methods[key]? = some n → n < methods.size) :
    (c.link m).Enclosed methods := by
  have hsize : (c.link m).operations.size = m.code.length := by
    simp only [link, List.size_toArray, List.length_map, Code.length_locate]
  constructor
  · obtain ⟨pre, last, hcode, -⟩ := ha.last
    rw [hsize, hcode]
    simp
  · intro k op next hop hleads
    obtain ⟨pre, i, post, hcode, rfl, rfl⟩ := exists_of_operations hop
    obtain ⟨pre', post', hcode', rfl, hsucc⟩ := exists_successor hcode hleads
    obtain ⟨pre'', j, post'', hcode'', hpc⟩ := ha.exists_of_successor hcode hsucc
    have hlength := Code.length_eq_of_size (hcode'.symm.trans hcode'') (Int.ofNat_inj.1 hpc)
    rw [hsize, hlength, hcode'']
    simp
  · intro k op e hop he
    obtain ⟨pre, i, post, hcode, rfl, rfl⟩ := exists_of_operations hop
    exact MachineError.isStructural_of_isUnresolved (isUnresolved_of_operation hf ha hcode he)
  · intro k n name hop
    obtain ⟨pre, i, post, hcode, rfl, hcall⟩ := exists_of_operations hop
    obtain ⟨key, hkey⟩ := exists_of_operation_eq_call hcall.symm
    exact hmethods key n hkey

end LinkContext

/-! ### Loading -/

namespace ClassFile

variable {f : ClassFile}

/-- The class of a verified file has a name. -/
theorem exists_className (h : f.verify = .ok ()) : ∃ name, f.className f.this = .ok name := by
  obtain ⟨-, hpool, hthis, -⟩ := verify_eq_ok.1 h
  obtain ⟨name, hname⟩ := PoolSound.exists_namesClass hpool hthis
  exact ⟨name, className_of_namesClass hname⟩

theorem exists_memberName {m : Member} (h : f.verifyMember m = .ok ()) :
    ∃ name descriptor, f.memberName m = .ok (name, descriptor) := by
  obtain ⟨⟨name, hname⟩, ⟨descriptor, hdescriptor⟩, -⟩ := verifyMember_eq_ok.1 h
  exact ⟨name, descriptor, memberName_of_holds hname hdescriptor⟩

theorem verifyField_eq_ok {m : Member} (h : f.verifyField m = .ok ()) :
    f.verifyMember m = .ok () ∧ ∀ a, f.attribute? m constantValueAttribute = some a →
      ∃ (index : UInt16) (value : Int32), a.data = BigEndian.two index.toNat ∧
        Holds f.pool index (.integer value) := by
  obtain ⟨hmember, h⟩ := seq_eq_ok.1 h
  refine ⟨hmember, fun a ha => ?_⟩
  rw [ha] at h
  dsimp only at h
  split at h
  · rename_i x y hdata
    obtain ⟨c, hc, htag⟩ := expectTag_eq_ok.1 h
    obtain ⟨value, rfl⟩ := Constant.tag_eq_integer.1 htag
    refine ⟨_, value, ?_, hc⟩
    rw [hdata, UInt16.toNat_ofNat_of_lt' (Nat.lt_succ_of_le (BigEndian.ofTwo_le x y))]
    have hx := x.toNat_lt
    have hy := y.toNat_lt
    simp only [BigEndian.two, BigEndian.ofTwo, List.cons.injEq, and_true]
    constructor <;> apply UInt8.toNat_inj.1 <;> simp only [UInt8.toNat_ofNat'] <;> omega
  · cases h

end ClassFile

namespace Machine

variable {f : ClassFile}

/-- The fields of a verified file have values to start with. -/
theorem exists_startValue {m : Member} (h : f.verifyField m = .ok ()) :
    ∃ value, startValue f m = .ok value := by
  obtain ⟨-, hattribute⟩ := ClassFile.verifyField_eq_ok h
  unfold startValue
  cases ha : f.attribute? m ClassFile.constantValueAttribute with
  | none => exact ⟨0, rfl⟩
  | some a =>
    obtain ⟨index, value, hdata, hholds⟩ := hattribute a ha
    obtain ⟨x, y, hxy, hn⟩ := BigEndian.ofTwo_two (toNat_le index)
    refine ⟨value, ?_⟩
    simp only [hdata, hxy, hn]
    exact LinkContext.integer_of_holds hholds

theorem exists_loadFields {members : List Member} (h : ∀ m ∈ members, f.verifyField m = .ok ())
    (fields : Fields) : ∃ after, loadFields f fields members = .ok after := by
  induction members generalizing fields with
  | nil => exact ⟨fields, rfl⟩
  | cons m rest ih =>
    rw [List.forall_mem_cons] at h
    obtain ⟨name, descriptor, hname⟩ :=
      ClassFile.exists_memberName (ClassFile.verifyField_eq_ok h.1).1
    obtain ⟨value, hvalue⟩ := exists_startValue h.1
    obtain ⟨after, hafter⟩ := ih h.2 (fields.insert name value)
    refine ⟨after, ?_⟩
    simp only [loadFields, hname, inFile, ok_bind, hvalue, hafter]

/-- A verified method is decoded unless its descriptor is none the machine knows. -/
theorem loadMethod_of_verifyMethod {m : Member} (h : f.verifyMethod m = .ok ()) :
    ∃ name descriptor body code, f.memberName m = .ok (name, descriptor) ∧
      f.methodCode m = .ok body ∧ Code.decode body.code = .ok code ∧ f.Accepts code ∧
      loadMethod f m = inMethod name (MethodType.ofDescriptor descriptor) >>= fun type =>
        .ok { name, descriptor, type, body, code } := by
  obtain ⟨hmember, body, hbody, hcode⟩ := ClassFile.verifyMethod_eq_ok.1 h
  obtain ⟨name, descriptor, hname⟩ := ClassFile.exists_memberName hmember
  obtain ⟨code, hdecode, haccepts⟩ := ClassFile.accepts_of_verifyCode hcode
  refine ⟨name, descriptor, body, code, hname, hbody, hdecode, haccepts, ?_⟩
  rw [loadMethod, hname, hbody]
  simp only [inFile, ok_bind]
  cases MethodType.ofDescriptor descriptor with
  | error e => rfl
  | ok type =>
    simp only [inMethod, ok_bind, hdecode]
    rfl

/-- Loading a verified file fails only by a descriptor. -/
theorem exists_of_load_eq_error (h : f.verify = .ok ()) {limits : Limits} {e : MachineError}
    (he : load f limits = .error e) : ∃ member ∈ f.methods, ∃ name text,
      f.memberName member = .ok (name, text) ∧ (∀ type : MethodType, text ≠ type.descriptor) ∧
        e = .inMethod name (.badCode (.descriptor text)) := by
  obtain ⟨-, -, -, -, hfields, hmethods⟩ := ClassFile.verify_eq_ok.1 h
  obtain ⟨className, hclass⟩ := ClassFile.exists_className h
  obtain ⟨fields, hloaded⟩ := exists_loadFields hfields {}
  rw [load, hclass] at he
  simp only [inFile, ok_bind, hloaded, bind_eq_error] at he
  obtain ⟨member, hmember, hfails⟩ : ∃ member ∈ f.methods, loadMethod f member = .error e := by
    rcases he with he | ⟨raws, -, he⟩
    · exact exists_of_mapM_eq_error he
    · cases he
  obtain ⟨name, text, body, code, hname, -, -, -, hload⟩ :=
    loadMethod_of_verifyMethod (hmethods member hmember)
  refine ⟨member, hmember, name, text, hname, ?_⟩
  rw [hload] at hfails
  cases htype : MethodType.ofDescriptor text with
  | error e' =>
    rw [htype] at hfails
    refine ⟨fun type heq => ?_, ?_⟩
    · rw [MethodType.ofDescriptor_eq_ok.2 heq] at htype
      cases htype
    · rw [← MethodType.ofDescriptor_eq_error htype]
      exact (Except.error.inj hfails).symm
  | ok type =>
    rw [htype] at hfails
    cases hfails

/-- The methods of a verified file that is loaded are its accepted ones. -/
theorem exists_of_mem_methods (h : f.verify = .ok ()) {limits : Limits} {m : Machine}
    (hm : load f limits = .ok m) {method : Method} (hmethod : method ∈ m.methods) :
    ∃ (c : LinkContext) (raw : RawMethod) (member : Member), member ∈ f.methods ∧ c.file = f ∧
      (∀ (key : Text) (n : Nat), c.methods[key]? = some n → n < m.methods.size) ∧
      f.methodCode member = .ok raw.body ∧ Code.decode raw.body.code = .ok raw.code ∧
      f.Accepts raw.code ∧ method = c.link raw := by
  obtain ⟨-, -, -, -, -, hmethods⟩ := ClassFile.verify_eq_ok.1 h
  obtain ⟨className, fields, raws, -, -, hraws, rfl⟩ := load_eq_ok.1 hm
  rw [List.mem_toArray, List.mem_map] at hmethod
  obtain ⟨raw, hraw, rfl⟩ := hmethod
  obtain ⟨member, hmember, hload⟩ := exists_of_forall₂ (mapM_eq_ok.1 hraws) hraw
  obtain ⟨name, text, body, code, -, hbody, hcode, haccepts, hload'⟩ :=
    loadMethod_of_verifyMethod (hmethods member hmember)
  rw [hload', bind_eq_ok] at hload
  obtain ⟨type, -, hraw'⟩ := hload
  obtain rfl := Except.ok.inj hraw'
  refine ⟨_, _, member, hmember, rfl, fun key n hn => ?_, hbody, hcode, haccepts, rfl⟩
  obtain ⟨raw, hn, -⟩ := exists_of_indexMethods hn
  rw [List.size_toArray, List.length_map]
  exact (List.getElem?_eq_some_iff.1 hn).1

/-- The methods of a verified file are enclosed. -/
theorem enclosed_of_verify (h : f.verify = .ok ()) {limits : Limits} {m : Machine}
    (hm : load f limits = .ok m) : m.Enclosed := by
  intro method hmethod
  obtain ⟨c, raw, member, -, rfl, hsize, -, -, haccepts, rfl⟩ := exists_of_mem_methods h hm hmethod
  exact LinkContext.enclosed_link (ClassFile.verify_eq_ok.1 h).2.1 haccepts hsize

end Machine

/-- **Structural soundness of the verifier**: a verified class file is loaded unless a descriptor
stands for no type of numbers, and no request to the loaded class fails because control leaves the
code, a branch goes to no instruction, an instruction cannot be run, or a pool entry is missing or
of the wrong kind. -/
theorem ClassFile.structurally_sound {f : ClassFile} (h : f.verify = .ok ()) :
    (∀ limits e, Machine.load f limits = .error e → ∃ member ∈ f.methods, ∃ name text,
      f.memberName member = .ok (name, text) ∧ (∀ type : MethodType, text ≠ type.descriptor) ∧
        e = .inMethod name (.badCode (.descriptor text))) ∧
    ∀ limits m, Machine.load f limits = .ok m → ∀ tracing requests e trace,
      (.error e, trace) ∈ (m.respondAll tracing requests).2 → e.isStructural = false :=
  ⟨fun _ _ he => Machine.exists_of_load_eq_error h he,
    fun _ _ hm tracing _ _ _ he =>
      (Machine.enclosed_of_verify h hm).invariant.allows_of_mem rfl tracing he⟩

/-- Calls the method of entry 9 with a smaller number until it is 0, then returns entry 10. -/
def countdownCode : Code :=
  [{ op := .iload0 }, { op := .iconst0 }, { op := .ifNe, operand := 6 },
    { op := .ldc, operand := 10 }, { op := .ireturn }, { op := .iload0 }, { op := .iconst1 },
    { op := .isub }, { op := .invokeStatic, operand := 9 }, { op := .ireturn }]

/-- The method with this code. -/
def countdownMethod : Member where
  name := 5
  descriptor := 6
  attributes := [⟨7, MethodCode.encode ⟨2, 1, countdownCode.encode⟩⟩]

/-- A class with this method alone. -/
def countdownFile : ClassFile where
  major := ClassFile.majorVersion
  pool := #[.utf8 (Text.ofString "A"), .classRef 1, .utf8 ClassFile.objectClass, .classRef 3,
    .utf8 (Text.ofString "f"), .utf8 (Text.ofString "(I)I"), .utf8 ClassFile.codeAttribute,
    .nameAndType 5 6, .methodRef 2 8, .integer 70000]
  this := 2
  super := 4
  methods := [countdownMethod]

theorem decode_countdownCode : Code.decode countdownCode.encode = .ok countdownCode := by
  decide +kernel

theorem methodCode_countdownMethod :
    countdownFile.methodCode countdownMethod = .ok ⟨2, 1, countdownCode.encode⟩ := by
  cbv

theorem verify_countdownFile : countdownFile.verify = .ok () := by
  refine ClassFile.verify_eq_ok.2 ⟨⟨rfl, rfl⟩, by decide, rfl, rfl, by decide, ?_⟩
  refine List.forall_mem_singleton.2 (ClassFile.verifyMethod_eq_ok.2 ⟨rfl, _,
    methodCode_countdownMethod,
    ClassFile.verifyCode_eq_ok.2 ⟨_, _, decode_countdownCode, ?_, rfl, rfl⟩⟩)
  -- what is left to check: the target of the branch and the two indexes
  suffices h : (∃ n : Nat, (8 : Int) = n ∧ n ∈ [0, 1, 2, 5, 7, 8, 9, 10, 11, 14]) ∧
      countdownFile.expectTag 10 .integer = .ok () ∧
      countdownFile.expectTag 9 .methodRef = .ok () by
    simpa [ClassFile.verifyInstruction_eq_ok, countdownCode, Code.locate, Instruction.size,
      Opcode.size, Opcode.operand, OperandKind.size, Opcode.poolTag?, Opcode.isBranch,
      Instruction.target] using h
  exact ⟨⟨8, rfl, by decide⟩, rfl, rfl⟩

theorem Machine.exists_load_countdownFile : ∃ m, Machine.load countdownFile {} = .ok m := by
  cases hm : Machine.load countdownFile {} with
  | ok m => exact ⟨m, rfl⟩
  | error e =>
    -- the only method has a descriptor that stands for a type
    obtain ⟨member, hmember, name, text, hname, hnone, -⟩ :=
      Machine.exists_of_load_eq_error verify_countdownFile hm
    obtain rfl := List.mem_singleton.1 hmember
    obtain ⟨-, rfl⟩ := Prod.mk.inj (Except.ok.inj hname)
    exact absurd rfl (hnone ⟨1, true⟩)

theorem ClassFile.structurally_sound_countdown : countdownFile.verify = .ok () ∧
    ∃ m, Machine.load countdownFile {} = .ok m ∧ ∀ tracing requests e trace,
      (.error e, trace) ∈ (m.respondAll tracing requests).2 → e.isStructural = false := by
  obtain ⟨m, hm⟩ := Machine.exists_load_countdownFile
  obtain ⟨-, hruns⟩ := ClassFile.structurally_sound verify_countdownFile
  exact ⟨verify_countdownFile, m, hm, hruns {} m hm⟩

end Classwright
