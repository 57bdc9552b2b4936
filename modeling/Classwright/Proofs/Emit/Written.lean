import Classwright.Proofs.Machine.Load
import Classwright.Proofs.Text.Plain

/-!
# Emitted class files can be written

The class file of a checked program has plain strings and small counts (`Program.Emitted.regular`),
so it is read back from its bytes.  It has bytes if and only if the names of the class and the
descriptors of its procedures are not too long (`Program.Emitted.exists_encode_iff`).
-/

namespace Classwright

/-- The names and descriptors that a class file has room for. -/
structure Program.NamesFit (p : Program) : Prop where
  /-- The name of the class fits, -/
  name : p.name.length ≤ 0xFFFF
  /-- and so do the names of its constants, variables and procedures. -/
  members : ∀ id d, p.decl? id = some d → d.table = classTable → d.name.length ≤ 0xFFFF
  /-- No procedure has too many parameters. -/
  arity : ∀ id d, p.decl? id = some d → d.kind = .procedure → d.arity ≤ 65532

/-! ### Strings -/

theorem length_procedureDescriptor (arity : Nat) (result : ValueType) :
    (procedureDescriptor arity result).length = arity + 3 := by
  rw [procedureDescriptor_eq]
  simp

theorem isPlain_procedureDescriptor (arity : Nat) (result : ValueType) :
    Text.IsPlain (procedureDescriptor arity result) := by
  have hint : 0 < (0x49 : UInt8).toNat ∧ (0x49 : UInt8).toNat < 0x80 := by decide
  have hend : Text.IsPlain [0x29, if result = .int then 0x49 else 0x56] := by
    cases result <;> decide
  rw [procedureDescriptor_eq]
  refine List.forall_mem_cons.2 ⟨by decide, List.forall_mem_append.2 ⟨fun b hb => ?_, hend⟩⟩
  obtain ⟨-, rfl⟩ := List.mem_replicate.1 hb
  exact hint

namespace Program

variable {p : Program} {pool : PoolBuilder} {f : ClassFile}

/-- The strings of a program are plain. -/
theorem WellFormed.isPlain_of_poolText (hp : p.WellFormed) {t : Text}
    (h : PoolBuilder.PoolText p t) : t.IsPlain := by
  rcases h with rfl | ⟨id, d, hd, -, rfl | ⟨hk, rfl⟩⟩ | hstandard
  · exact hp.name.isPlain
  · exact (hp.decl_name id d hd).isPlain
  · rw [Declaration.descriptor_of_procedure hk]
    exact isPlain_procedureDescriptor d.arity d.type
  · have hplain : ∀ t ∈ [ClassFile.objectClass, ClassFile.initName, ClassFile.initDescriptor,
        ClassFile.codeAttribute, ClassFile.constantValueAttribute, ClassFile.intDescriptor],
        Text.IsPlain t := by decide
    exact hplain t hstandard

theorem NamesFit.length_le (h : p.NamesFit) {t : Text} (ht : PoolBuilder.PoolText p t) :
    t.length ≤ 0xFFFF := by
  rcases ht with rfl | ⟨id, d, hd, htable, rfl | ⟨hk, rfl⟩⟩ | hstandard
  · exact h.name
  · exact h.members id d hd htable
  · have harity := h.arity id d hd hk
    rw [Declaration.descriptor_of_procedure hk, length_procedureDescriptor]
    omega
  · have hshort : ∀ t ∈ [ClassFile.objectClass, ClassFile.initName, ClassFile.initDescriptor,
        ClassFile.codeAttribute, ClassFile.constantValueAttribute, ClassFile.intDescriptor],
        t.length ≤ 0xFFFF := by decide
    exact hshort t hstandard

/-! ### Counts -/

theorem Emitted.length_fields_le (hf : p.Emitted pool f) : f.fields.length ≤ 0xFFFF := by
  have hfields : p.fieldDecls.length = f.fields.length := hf.fields.length_eq
  have hmembers : p.fieldDecls.length ≤ p.members.length :=
    Nat.le_trans (List.length_filter_le _ _) (List.length_filterMap_le _ _)
  have hentries := hf.complete.length_members_le
  have hsize : pool.entries.size ≤ 0xFFFE := hf.complete.valid.size_le
  omega

theorem Emitted.length_methods_le (hf : p.Emitted pool f) : f.methods.length ≤ 0xFFFF := by
  obtain ⟨methods, constructor, hmethods, hprocedures, -⟩ := hf.methods
  have hlength : p.procedureDecls.length = methods.length := hprocedures.length_eq
  have hmembers : p.procedureDecls.length ≤ p.members.length :=
    Nat.le_trans (List.length_filterMap_le _ _) (List.length_filter_le _ _)
  have hentries := hf.complete.length_members_le
  have hsize : pool.entries.size ≤ 0xFFFE := hf.complete.valid.size_le
  rw [hmethods, List.length_append, List.length_singleton]
  omega

end Program

/-! ### Members -/

theorem Holds.mem {entries : Array Constant} {index : UInt16} {c : Constant}
    (h : Holds entries index c) : c ∈ entries :=
  Array.mem_of_getElem? h.2

theorem FieldOf.regular {entries : Array Constant} {d : Declaration} {m : Member}
    (h : FieldOf entries d m) : m.Regular := by
  rcases h.attributes with ⟨-, a, index, hm, -, -⟩ | ⟨-, hm⟩
  · constructor
    · simp [hm]
    · rw [hm, List.forall_mem_singleton]
      simp [Attribute.Regular, BigEndian.two]
  · constructor <;> simp [hm]

theorem MethodOf.regular {entries : Array Constant} {name descriptor : Text} {code : MethodCode}
    {m : Member} (h : MethodOf entries name descriptor code m)
    (hlength : code.code.length ≤ 0xFFFF) : m.Regular := by
  obtain ⟨a, hm, -⟩ := h.attributes
  constructor
  · simp [hm]
  · rw [hm, List.forall_mem_singleton]
    simp only [Attribute.Regular, MethodCode.encode, List.length_append, BigEndian.two,
      BigEndian.four, List.length_cons, List.length_nil]
    omega

/-! ### Class files -/

namespace Program

variable {p : Program} {pool : PoolBuilder} {f : ClassFile}

/-- Each method of the class file has code of at most 65535 bytes. -/
theorem Emitted.exists_methodOf (hp : p.Checked) (hslots : p.SlotsFit) (hf : p.Emitted pool f)
    {m : Member} (hm : m ∈ f.methods) : ∃ name descriptor code,
      MethodOf pool.entries name descriptor code m ∧ code.code.length ≤ 0xFFFF := by
  obtain ⟨methods, constructor, hmethods, hprocedures, code, hcode, hinit⟩ := hf.methods
  rw [hmethods, List.mem_append, List.mem_singleton] at hm
  rcases hm with hm | rfl
  · obtain ⟨d, hd, code, hcode, hmethod⟩ := exists_of_forall₂ hprocedures hm
    obtain ⟨id, hid, hk⟩ := hp.wellFormed.mem_procedureDecls.1 hd
    obtain ⟨statements, body, hlayout, rfl⟩ := EmitContext.procedureCode_eq_ok hp hid hk hcode
    refine ⟨_, _, _, hmethod, ?_⟩
    rw [Code.length_encode (hlayout.encodable hp.wellFormed (hslots id d hid hk))]
    exact hlayout.size_le
  · obtain ⟨stores, hstores, hsize, rfl⟩ := EmitContext.constructorCode_eq_ok hcode
    refine ⟨_, _, _, hinit, ?_⟩
    rw [Code.length_encode (EmitContext.encodable_initCode hstores)]
    exact hsize

/-- The class file of a checked program is read back from its bytes. -/
theorem Emitted.regular (hp : p.Checked) (hslots : p.SlotsFit) (hf : p.Emitted pool f) :
    f.Regular where
  isUtf8 t ht := by
    rw [hf.pool_eq] at ht
    exact (hp.wellFormed.isPlain_of_poolText (hf.complete.valid.texts t ht)).isUtf8
  fields_le := hf.length_fields_le
  methods_le := hf.length_methods_le
  fields m hm := by
    obtain ⟨d, -, hfield⟩ := exists_of_forall₂ hf.fields hm
    exact hfield.regular
  methods m hm := by
    obtain ⟨name, descriptor, code, hmethod, hlength⟩ := hf.exists_methodOf hp hslots hm
    exact hmethod.regular hlength

/-- The names of the class and the descriptors of its procedures are in the pool. -/
theorem Emitted.namesFit (hp : p.WellFormed) (hf : p.Emitted pool f)
    (h : ∀ t, .utf8 t ∈ f.pool → t.length ≤ 0xFFFF) : p.NamesFit := by
  have hentry {index : UInt16} {t : Text} (ht : Holds pool.entries index (.utf8 t)) :
      t.length ≤ 0xFFFF := h t (hf.pool_eq ▸ ht.mem)
  have hprocedure (id : DeclId) (d : Declaration) (hd : p.decl? id = some d)
      (hk : d.kind = .procedure) : d.name.length ≤ 0xFFFF ∧ d.descriptor.length ≤ 0xFFFF := by
    obtain ⟨methods, constructor, -, hprocedures, -⟩ := hf.methods
    obtain ⟨n, hn⟩ := List.getElem?_of_mem (hp.mem_procedureDecls.2 ⟨id, hd, hk⟩)
    obtain ⟨m, -, code, -, hmethod⟩ := forall₂_getElem? hprocedures hn
    exact ⟨hentry hmethod.name, hentry hmethod.descriptor⟩
  refine ⟨?_, fun id d hd ht => ?_, fun id d hd hk => ?_⟩
  · obtain ⟨n, -, hn⟩ := hf.complete.this
    exact hentry hn
  · by_cases hk : d.kind = .procedure
    · exact (hprocedure id d hd hk).1
    · have hvalue : d.isValue = true := by simp [Declaration.isValue, hk]
      obtain ⟨n, hn⟩ := List.getElem?_of_mem (hp.mem_fieldDecls.2 ⟨id, hd, ht, hvalue⟩)
      obtain ⟨m, -, hfield⟩ := forall₂_getElem? hf.fields hn
      exact hentry hfield.name
  · have hlength := (hprocedure id d hd hk).2
    rw [Declaration.descriptor_of_procedure hk, length_procedureDescriptor] at hlength
    omega

/-- The class file has bytes if and only if the names fit. -/
theorem Emitted.exists_encode_iff (hp : p.WellFormed) (hf : p.Emitted pool f) :
    (∃ bytes, f.encode = .ok bytes) ↔ p.NamesFit := by
  have hsize : f.pool.size ≤ maxPoolEntries := hf.pool_eq ▸ hf.complete.valid.size_le
  have htexts (t : Text) (ht : .utf8 t ∈ f.pool) : PoolBuilder.PoolText p t :=
    hf.complete.valid.texts t (hf.pool_eq ▸ ht)
  have hknown : ∀ tag first second value, Constant.other tag first second value ∉ f.pool := by
    intro tag first second value hmem
    exact hf.complete.valid.sound _ (hf.pool_eq ▸ hmem)
  have hencode (t : Text) (ht : .utf8 t ∈ f.pool) : ModifiedUtf8.encode t = t :=
    (hp.isPlain_of_poolText (htexts t ht)).encode
  rw [ClassFile.exists_encode_iff hsize hknown]
  constructor
  · intro h
    exact hf.namesFit hp fun t ht => hencode t ht ▸ h t ht
  · intro h t ht
    rw [hencode t ht]
    exact h.length_le (htexts t ht)

/-- If it has none, one of its strings is too long. -/
theorem Emitted.length_of_encode_eq_error (hf : p.Emitted pool f) {e : ClassFileError}
    (h : f.encode = .error e) : ∃ length, 0xFFFF < length ∧ e = .utf8TooLong length := by
  have hsize : f.pool.size ≤ maxPoolEntries := hf.pool_eq ▸ hf.complete.valid.size_le
  rw [ClassFile.encode, if_neg (Nat.not_lt_of_le hsize), bind_eq_error] at h
  rcases h with h | ⟨bytes, -, h⟩
  · obtain ⟨c, hmem, hc⟩ := Constant.exists_of_encodeAll_eq_error h
    cases c with
    | utf8 t =>
      rw [Constant.encode] at hc
      split at hc
      · rename_i hlong
        exact ⟨_, hlong, (Except.error.inj hc).symm⟩
      · cases hc
    | other tag first second value =>
      rw [Array.mem_toList_iff, hf.pool_eq] at hmem
      exact (hf.complete.valid.sound _ hmem).elim
    | _ => cases hc
  · cases h

end Program

end Classwright
