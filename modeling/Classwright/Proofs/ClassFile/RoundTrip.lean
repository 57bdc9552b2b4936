import Classwright.ClassFile.Reader
import Classwright.ClassFile.Writer
import Classwright.Proofs.Bytecode.Codec
import Classwright.Proofs.Text.Modified

/-!
# Reading back class files

Each reader reads back what the writer of its kind has written in front of any other bytes, so a
class file is read back from its bytes (`ClassFile.decode_encode`) when its strings are valid and
its counts fit their bytes (`ClassFile.Regular`), and a method body from its attribute
(`MethodCode.decode_encode`).
-/

namespace Classwright

theorem BigEndian.ofFour_four {n : Nat} (h : n ≤ 0xFFFFFFFF) :
    ∃ w x y z, BigEndian.four n = [w, x, y, z] ∧ BigEndian.ofFour w x y z = n := by
  refine ⟨_, _, _, _, rfl, ?_⟩
  simp only [BigEndian.ofFour, UInt8.toNat_ofNat']
  omega

namespace Reader

/-! ### Numbers and rows -/

theorem split?_append (xs rest : List UInt8) : split? xs.length (xs ++ rest) = some (xs, rest) := by
  induction xs with
  | nil => cases rest <;> rfl
  | cons x xs ih =>
    rw [List.length_cons, List.cons_append, split?, ih]
    rfl

theorem take_append {n : Nat} {xs : List UInt8} (h : xs.length = n) (rest : List UInt8) :
    take n (xs ++ rest) = .ok (xs, rest) := by
  subst h
  simp only [take, split?_append]

theorem two_append {n : Nat} (h : n ≤ 0xFFFF) (rest : List UInt8) :
    two (BigEndian.two n ++ rest) = .ok (UInt16.ofNat n, rest) := by
  obtain ⟨x, y, hxy, hn⟩ := BigEndian.ofTwo_two h
  rw [hxy, List.cons_append, List.cons_append, List.nil_append, two, hn]

theorem two_toNat_append (w : UInt16) (rest : List UInt8) :
    two (BigEndian.two w.toNat ++ rest) = .ok (w, rest) := by
  rw [two_append (Nat.le_of_lt_succ w.toNat_lt), UInt16.ofNat_toNat]

theorem four_append {n : Nat} (h : n ≤ 0xFFFFFFFF) (rest : List UInt8) :
    four (BigEndian.four n ++ rest) = .ok (n, rest) := by
  obtain ⟨w, x, y, z, hbytes, hn⟩ := BigEndian.ofFour_four h
  rw [hbytes, List.cons_append, List.cons_append, List.cons_append, List.cons_append,
    List.nil_append, four, hn]

theorem times_append {α : Type} {read : Reader α} {write : α → List UInt8} {xs : List α}
    (h : ∀ x ∈ xs, ∀ rest, read (write x ++ rest) = .ok (x, rest)) (rest : List UInt8) :
    times read xs.length (xs.flatMap write ++ rest) = .ok (xs, rest) := by
  induction xs with
  | nil => rfl
  | cons x xs ih =>
    rw [List.forall_mem_cons] at h
    rw [List.length_cons, List.flatMap_cons, List.append_assoc, times, h.1, ok_bind]
    dsimp only
    rw [ih h.2, ok_bind]
    rfl

end Reader

/-! ### Members -/

/-- The attributes whose length fits four bytes. -/
def Attribute.Regular (a : Attribute) : Prop :=
  a.data.length ≤ 0xFFFFFFFF

/-- The fields and methods whose counts fit their bytes. -/
structure Member.Regular (m : Member) : Prop where
  /-- The number of attributes fits two bytes. -/
  length_le : m.attributes.length ≤ 0xFFFF
  /-- So do the attributes. -/
  attributes : ∀ a ∈ m.attributes, a.Regular

namespace Reader

theorem oneAttribute_append {a : Attribute} (h : a.Regular) (rest : List UInt8) :
    oneAttribute (a.encode ++ rest) = .ok (a, rest) := by
  simp only [oneAttribute, Attribute.encode, List.append_assoc, two_toNat_append, ok_bind,
    four_append h, take_append rfl]
  rfl

theorem attributes_append {as : List Attribute} (hlength : as.length ≤ 0xFFFF)
    (h : ∀ a ∈ as, a.Regular) (rest : List UInt8) :
    attributes (BigEndian.two as.length ++ (as.flatMap Attribute.encode ++ rest)) =
      .ok (as, rest) := by
  simp only [attributes, two_append hlength, ok_bind,
    UInt16.toNat_ofNat_of_lt' (Nat.lt_succ_of_le hlength)]
  exact times_append (fun a ha => oneAttribute_append (h a ha)) rest

theorem member_append {m : Member} (h : m.Regular) (rest : List UInt8) :
    member (m.encode ++ rest) = .ok (m, rest) := by
  simp only [member, Member.encode, List.append_assoc, two_toNat_append, ok_bind,
    attributes_append h.length_le h.attributes]
  rfl

theorem members_append {ms : List Member} (hlength : ms.length ≤ 0xFFFF)
    (h : ∀ m ∈ ms, m.Regular) (rest : List UInt8) :
    members (Member.encodeAll ms ++ rest) = .ok (ms, rest) := by
  simp only [members, Member.encodeAll, List.append_assoc, two_append hlength, ok_bind,
    UInt16.toNat_ofNat_of_lt' (Nat.lt_succ_of_le hlength)]
  exact times_append (fun m hm => member_append (h m hm)) rest

/-! ### The pool -/

theorem int32_ofNat_toNat (v : Int32) : Int32.ofNat v.toUInt32.toNat = v := by
  apply Int32.toBitVec.inj
  simp [Int32.ofNat]

theorem constant_append {c : Constant} {bytes : List UInt8} (h : c.encode = .ok bytes)
    (hvalid : ∀ t, c = .utf8 t → t.IsUtf8) (rest : List UInt8) :
    constant (bytes ++ rest) = .ok (c, rest) := by
  cases c with
  | utf8 t =>
    have htext := (hvalid t rfl).decode?_encode
    simp only [Constant.encode] at h
    split at h
    · simp at h
    · rename_i hlength
      obtain rfl := Except.ok.inj h
      -- a string that is written has a length of two bytes
      have hle : (ModifiedUtf8.encode t).length ≤ 0xFFFF := Nat.le_of_not_lt hlength
      have htag : Tag.ofByte Tag.utf8.byte = .utf8 := rfl
      simp only [constant, List.cons_append, one, ok_bind, htag, List.append_assoc,
        two_append hle, UInt16.toNat_ofNat_of_lt' (Nat.lt_succ_of_le hle), text,
        take_append rfl, htext]
      rfl
  | integer value =>
    obtain rfl := Except.ok.inj h
    have htag : Tag.ofByte Tag.integer.byte = .integer := rfl
    have hle : value.toUInt32.toNat ≤ 0xFFFFFFFF := Nat.le_of_lt_succ value.toUInt32.toNat_lt
    simp only [constant, List.cons_append, one, ok_bind, htag, four_append hle, int32_ofNat_toNat]
    rfl
  | classRef name =>
    obtain rfl := Except.ok.inj h
    have htag : Tag.ofByte Tag.classRef.byte = .classRef := rfl
    simp only [constant, List.cons_append, one, ok_bind, htag, two_toNat_append]
    rfl
  | fieldRef owner signature =>
    obtain rfl := Except.ok.inj h
    have htag : Tag.ofByte Tag.fieldRef.byte = .fieldRef := rfl
    simp only [constant, List.cons_append, one, ok_bind, htag, List.append_assoc,
      two_toNat_append]
    rfl
  | methodRef owner signature =>
    obtain rfl := Except.ok.inj h
    have htag : Tag.ofByte Tag.methodRef.byte = .methodRef := rfl
    simp only [constant, List.cons_append, one, ok_bind, htag, List.append_assoc,
      two_toNat_append]
    rfl
  | nameAndType name descriptor =>
    obtain rfl := Except.ok.inj h
    have htag : Tag.ofByte Tag.nameAndType.byte = .nameAndType := rfl
    simp only [constant, List.cons_append, one, ok_bind, htag, List.append_assoc,
      two_toNat_append]
    rfl
  | other => simp [Constant.encode] at h

theorem constants_append {cs : List Constant} {bytes : List UInt8}
    (h : Constant.encodeAll cs = .ok bytes) (hvalid : ∀ t, .utf8 t ∈ cs → t.IsUtf8)
    (index : Nat) (rest : List UInt8) :
    constants index cs.length (bytes ++ rest) = .ok (cs, rest) := by
  induction cs generalizing index bytes with
  | nil =>
    obtain rfl := Except.ok.inj h
    rfl
  | cons c cs ih =>
    simp only [Constant.encodeAll, bind_eq_ok, pure_eq_ok] at h
    obtain ⟨first, hfirst, others, hothers, rfl⟩ := h
    have hc := constant_append hfirst (fun t ht => hvalid t (ht ▸ List.mem_cons_self))
      (others ++ rest)
    have hcs := ih hothers (fun t ht => hvalid t (List.mem_cons_of_mem _ ht)) (index + 1)
    rw [List.length_cons, List.append_assoc]
    simp only [constants, hc, hcs, ok_bind]
    rfl

end Reader

/-! ### Class files -/

/-- The class files whose strings are valid and whose counts fit their bytes. -/
structure ClassFile.Regular (f : ClassFile) : Prop where
  /-- The strings are valid. -/
  isUtf8 : ∀ t, .utf8 t ∈ f.pool → t.IsUtf8
  /-- The number of fields fits two bytes. -/
  fields_le : f.fields.length ≤ 0xFFFF
  /-- So does the number of methods. -/
  methods_le : f.methods.length ≤ 0xFFFF
  /-- The fields are regular. -/
  fields : ∀ m ∈ f.fields, m.Regular
  /-- So are the methods. -/
  methods : ∀ m ∈ f.methods, m.Regular

/-- A class file is read back from its bytes. -/
theorem ClassFile.decode_encode {f : ClassFile} (hf : f.Regular) {bytes : List UInt8}
    (h : f.encode = .ok bytes) : ClassFile.decode bytes = .ok f := by
  unfold ClassFile.encode at h
  split at h
  · simp at h
  · rename_i hpool
    simp only [bind_eq_ok, pure_eq_ok] at h
    obtain ⟨pool, hencoded, rfl⟩ := h
    have hsize : f.pool.size + 1 ≤ 0xFFFF := by
      unfold maxPoolEntries at hpool
      omega
    have hmagic : ClassFile.magic ≤ 0xFFFFFFFF := by decide
    have hcount : (UInt16.ofNat (f.pool.size + 1)).toNat - 1 = f.pool.toList.length := by
      rw [UInt16.toNat_ofNat_of_lt' (Nat.lt_succ_of_le hsize), Array.length_toList]
      omega
    have hpoolRead := Reader.constants_append hencoded
      (fun t ht => hf.isUtf8 t (Array.mem_toList_iff.1 ht)) 1
    have hnone : Reader.attributes (BigEndian.two 0) = .ok ([], []) := rfl
    have hskip : ∀ rest, Reader.take (2 * (UInt16.ofNat 0).toNat) rest = .ok ([], rest) :=
      fun rest => Reader.take_append List.length_nil rest
    have hzero : 0 ≤ 0xFFFF := Nat.zero_le _
    simp only [ClassFile.decode, Reader.classFile, List.append_assoc, Reader.four_append hmagic,
      ok_bind, Reader.two_toNat_append, Reader.two_append hsize, hcount, hpoolRead,
      Reader.two_append hzero, hskip, Reader.members_append hf.fields_le hf.fields,
      Reader.members_append hf.methods_le hf.methods, ne_eq, not_true_eq_false, if_false, hnone]
    rfl

theorem Constant.exists_encodeAll_iff {cs : List Constant} :
    (∃ bytes, Constant.encodeAll cs = .ok bytes) ↔ ∀ c ∈ cs, ∃ bytes, c.encode = .ok bytes := by
  induction cs with
  | nil => simp [Constant.encodeAll]
  | cons c cs ih =>
    simp only [Constant.encodeAll, bind_eq_ok, pure_eq_ok, List.forall_mem_cons, ← ih]
    constructor
    · rintro ⟨_, first, hfirst, others, hothers, -⟩
      exact ⟨⟨first, hfirst⟩, others, hothers⟩
    · rintro ⟨⟨first, hfirst⟩, others, hothers⟩
      exact ⟨first ++ others, first, hfirst, others, hothers, rfl⟩

/-- Entries cannot be written when one of them cannot. -/
theorem Constant.exists_of_encodeAll_eq_error {cs : List Constant} {e : ClassFileError}
    (h : Constant.encodeAll cs = .error e) : ∃ c ∈ cs, c.encode = .error e := by
  induction cs with
  | nil => cases h
  | cons c cs ih =>
    rw [Constant.encodeAll, bind_eq_error] at h
    rcases h with hc | ⟨bytes, -, h⟩
    · exact ⟨c, List.mem_cons_self, hc⟩
    · rcases bind_eq_error.1 h with hcs | ⟨others, -, h⟩
      · obtain ⟨c', hmem, hc'⟩ := ih hcs
        exact ⟨c', List.mem_cons_of_mem _ hmem, hc'⟩
      · cases h

/-- A class file with entries of known kinds can be written if its strings are not too long. -/
theorem ClassFile.exists_encode_iff {f : ClassFile} (hsize : f.pool.size ≤ maxPoolEntries)
    (hknown : ∀ tag first second value, .other tag first second value ∉ f.pool) :
    (∃ bytes, f.encode = .ok bytes) ↔
      ∀ t, .utf8 t ∈ f.pool → (ModifiedUtf8.encode t).length ≤ 0xFFFF := by
  have hpool : (∃ bytes, f.encode = .ok bytes) ↔
      ∃ bytes, Constant.encodeAll f.pool.toList = .ok bytes := by
    unfold ClassFile.encode
    rw [if_neg (Nat.not_lt_of_le hsize)]
    simp only [bind_eq_ok, pure_eq_ok]
    constructor
    · rintro ⟨_, pool, hpool, -⟩
      exact ⟨pool, hpool⟩
    · rintro ⟨pool, hpool⟩
      exact ⟨_, pool, hpool, rfl⟩
  rw [hpool, Constant.exists_encodeAll_iff]
  simp only [Array.mem_toList_iff]
  constructor
  · intro h t ht
    obtain ⟨bytes, hbytes⟩ := h _ ht
    simp only [Constant.encode] at hbytes
    split at hbytes
    · simp at hbytes
    · rename_i hle
      exact Nat.le_of_not_lt hle
  · intro h c hc
    cases c with
    | utf8 t =>
      have hle := h t hc
      simp only [Constant.encode, if_neg (Nat.not_lt_of_le hle)]
      exact ⟨_, rfl⟩
    | other => exact absurd hc (hknown _ _ _ _)
    | integer | classRef | fieldRef | methodRef | nameAndType => exact ⟨_, rfl⟩

/-- A method body is read back from its attribute. -/
theorem MethodCode.decode_encode {m : MethodCode} (h : m.code.length ≤ 0xFFFFFFFF) :
    MethodCode.decode m.encode = .ok m := by
  have hskip : ∀ rest, Reader.take (8 * (UInt16.ofNat 0).toNat) rest = .ok ([], rest) :=
    fun rest => Reader.take_append List.length_nil rest
  have hnone : Reader.attributes (BigEndian.two 0) = .ok ([], []) := rfl
  have hzero : 0 ≤ 0xFFFF := Nat.zero_le _
  simp only [MethodCode.decode, Reader.methodCode, MethodCode.encode, List.append_assoc,
    Reader.two_toNat_append, ok_bind, Reader.four_append h, Reader.take_append rfl,
    Reader.two_append hzero, hskip, hnone]
  rfl

end Classwright
