import Classwright.Proofs.ClassFile.RoundTrip
import Classwright.Proofs.Emit.File

/-!
# Counts that fit their bytes

The writer cuts down the counts of members and attributes to two bytes and the lengths of
attributes to four without a check.  Nothing is lost: each declaration of the class takes a
reference in the pool that is never shared, however the table of the class was filled, and so does
the constructor (`PoolBuilder.takes_addProgram`).  So fields and methods together are at most as
many as pool entries (`Program.members_le_pool`), and what is written in front of the members of a
class file, of their attributes and of the data of these is exact (`Program.counts_of_classFile`).
-/

namespace Classwright

/-! ### Members that are written exactly -/

/-- A member with at most one attribute, the length of which fits four bytes. -/
structure Member.Compact (m : Member) : Prop where
  /-- There is one attribute or none. -/
  attributes_le : m.attributes.length ≤ 1
  /-- Its length fits. -/
  data_lt : ∀ a ∈ m.attributes, a.data.length < 2 ^ 32

/-- The counts and lengths in the bytes of a row of members are those of the row. -/
structure Member.CountsExact (ms : List Member) : Prop where
  /-- The first two bytes are the number of the members. -/
  members : ∃ x y, Member.encodeAll ms = x :: y :: ms.flatMap Member.encode ∧
    BigEndian.ofTwo x y = ms.length
  /-- The two bytes behind the flags, the name and the descriptor of a member are the number of its
  attributes. -/
  attributes : ∀ m ∈ ms, ∃ x y,
    m.encode = BigEndian.two m.flags.toNat ++ BigEndian.two m.name.toNat ++
      BigEndian.two m.descriptor.toNat ++ x :: y :: m.attributes.flatMap Attribute.encode ∧
    BigEndian.ofTwo x y = m.attributes.length
  /-- The four bytes behind the name of an attribute are the length of its data. -/
  data : ∀ m ∈ ms, ∀ a ∈ m.attributes, ∃ w x y z,
    a.encode = BigEndian.two a.name.toNat ++ w :: x :: y :: z :: a.data ∧
    BigEndian.ofFour w x y z = a.data.length

theorem Member.CountsExact.of_compact {ms : List Member} (hlength : ms.length ≤ 0xFFFF)
    (h : ∀ m ∈ ms, m.Compact) : CountsExact ms := by
  refine ⟨?_, fun m hm => ?_, fun m hm a ha => ?_⟩
  · obtain ⟨x, y, hxy, hn⟩ := BigEndian.ofTwo_two hlength
    exact ⟨x, y, by rw [encodeAll, hxy]; rfl, hn⟩
  · have hle : m.attributes.length ≤ 0xFFFF := by
      have := (h m hm).attributes_le
      omega
    obtain ⟨x, y, hxy, hn⟩ := BigEndian.ofTwo_two hle
    exact ⟨x, y, by rw [encode, hxy, List.append_assoc _ [x, y]]; rfl, hn⟩
  · have hle : a.data.length ≤ 0xFFFFFFFF := by
      have := (h m hm).data_lt a ha
      omega
    obtain ⟨w, x, y, z, hbytes, hn⟩ := BigEndian.ofFour_four hle
    exact ⟨w, x, y, z, by rw [Attribute.encode, hbytes, List.append_assoc]; rfl, hn⟩

/-! ### Entries that are taken -/

namespace PoolBuilder

/-- A step that succeeds takes at least `n` entries, and no more than indexes have room for. -/
def Takes {α : Type} (n : Nat) (x : PoolM α) : Prop :=
  ∀ (pool pool' : PoolBuilder) (a : α), x.run pool = .ok a pool' →
    pool.entries.size + n ≤ pool'.entries.size ∧
      (pool.entries.size ≤ maxPoolEntries → pool'.entries.size ≤ maxPoolEntries)

section Rules

variable {α β : Type} {m n : Nat}

theorem Takes.pure (a : α) : Takes 0 (Pure.pure a : PoolM α) := by
  intro pool pool' b h
  obtain ⟨-, rfl⟩ := run_pure_eq_ok.1 h
  exact ⟨Nat.le_refl _, id⟩

theorem Takes.throw (e : EmitError) : Takes n (throw e : PoolM α) :=
  fun _ _ _ h => absurd h run_throw_ne_ok

theorem Takes.bind {x : PoolM α} {f : α → PoolM β} (hx : Takes m x) (hf : ∀ a, Takes n (f a)) :
    Takes (m + n) (x >>= f) := by
  intro pool pool' b h
  obtain ⟨a, pool₁, hfirst, hsecond⟩ := run_bind_eq_ok.1 h
  obtain ⟨htaken₁, hroom₁⟩ := hx pool pool₁ a hfirst
  obtain ⟨htaken₂, hroom₂⟩ := hf a pool₁ pool' b hsecond
  exact ⟨by omega, fun hsize => hroom₂ (hroom₁ hsize)⟩

theorem Takes.mono {x : PoolM α} (hx : Takes n x) (h : m ≤ n) : Takes m x := by
  intro pool pool' a hrun
  obtain ⟨htaken, hroom⟩ := hx pool pool' a hrun
  exact ⟨by omega, hroom⟩

/-- Changes beside the entries. -/
theorem Takes.note {f : PoolBuilder → PoolBuilder}
    (hsame : ∀ pool, (f pool).entries = pool.entries) : Takes 0 (modify f : PoolM Unit) := by
  intro pool pool' u h
  obtain rfl := run_modify_eq_ok.1 h
  rw [hsame]
  exact ⟨Nat.le_refl _, id⟩

/-- What may be found already takes nothing for sure. -/
theorem Takes.share (find : PoolBuilder → Option UInt16) {x : PoolM UInt16} (hx : Takes n x) :
    Takes 0 (get >>= fun pool : PoolBuilder =>
      match find pool with
      | some index => Pure.pure index
      | none => x) := by
  intro pool pool' index h
  obtain ⟨_, _, hget, h⟩ := run_bind_eq_ok.1 h
  obtain ⟨rfl, rfl⟩ := run_get_eq_ok.1 hget
  split at h
  · exact Takes.pure _ pool pool' index h
  · exact hx.mono (Nat.zero_le n) pool pool' index h

end Rules

/-- An entry that is appended is taken, if there is room for it. -/
theorem takes_add (c : Constant) : Takes 1 (add c) := by
  intro pool pool' index h
  simp only [add, run_bind_eq_ok, run_get_eq_ok] at h
  obtain ⟨_, _, ⟨rfl, rfl⟩, h⟩ := h
  split at h
  · exact absurd h run_throw_ne_ok
  · split at h
    · exact absurd h run_throw_ne_ok
    · rename_i hfull
      simp only [run_bind_eq_ok, run_modify_eq_ok, run_pure_eq_ok] at h
      obtain ⟨_, _, rfl, -, rfl⟩ := h
      rw [Array.size_push]
      exact ⟨Nat.le_refl _, fun _ => Nat.lt_of_not_le hfull⟩

/-- So is one whose index is noted. -/
theorem takes_noted (c : Constant) {note : UInt16 → PoolBuilder → PoolBuilder}
    (hsame : ∀ index pool, (note index pool).entries = pool.entries) :
    Takes 1 (add c >>= fun index => modify (note index) >>= fun _ => Pure.pure index) :=
  (takes_add c).bind fun index => (Takes.note (hsame index)).bind fun _ => .pure index

theorem takes_addUtf8 (text : Text) : Takes 0 (addUtf8 text) :=
  Takes.share (fun pool => pool.utf8s[text]?) (takes_noted _ fun _ _ => rfl)

theorem takes_addInteger (value : Int32) : Takes 0 (addInteger value) :=
  Takes.share (fun pool => pool.integers[value]?) (takes_noted _ fun _ _ => rfl)

theorem takes_addClass (name : Text) : Takes 0 (addClass name) :=
  Takes.share (fun pool => pool.classes[name]?)
    ((takes_addUtf8 name).bind fun _ => takes_noted _ fun _ _ => rfl)

theorem takes_addSignature (name descriptor : Text) : Takes 0 (addSignature name descriptor) := by
  refine (takes_addUtf8 name).bind (n := 0) fun nameIndex => ?_
  refine (takes_addUtf8 descriptor).bind (n := 0) fun descriptorIndex => ?_
  exact Takes.share (fun pool => pool.signatures[(nameIndex, descriptorIndex)]?)
    (takes_noted _ fun _ _ => rfl)

/-- A reference is never shared. -/
theorem takes_addFieldRef (owner : UInt16) (name descriptor : Text) :
    Takes 1 (addFieldRef owner name descriptor) :=
  (takes_addSignature name descriptor).bind fun _ => takes_add _

theorem takes_addMethodRef (owner : UInt16) (name descriptor : Text) :
    Takes 1 (addMethodRef owner name descriptor) :=
  (takes_addSignature name descriptor).bind fun _ => takes_add _

theorem takes_addMember (owner : UInt16) (d : Declaration) : Takes 1 (addMember owner d) := by
  unfold addMember
  cases d.kind with
  | constant =>
    exact (takes_addUtf8 _).bind fun _ => (takes_addUtf8 _).bind fun _ =>
      (takes_addInteger _).bind fun _ => (takes_addUtf8 _).bind fun _ => takes_addFieldRef _ _ _
  | var => exact takes_addFieldRef _ _ _
  | procedure => exact takes_addMethodRef _ _ _
  | parameter => exact .throw _

/-- A declaration that is listed several times takes an entry each time. -/
theorem takes_addMembers (p : Program) (owner : UInt16) (ids : List DeclId) :
    Takes (ids.filterMap p.decl?).length (addMembers p owner ids) := by
  induction ids with
  | nil => exact .pure ()
  | cons member rest ih =>
    unfold addMembers
    cases hd : p.decl? member with
    | none =>
      rw [List.filterMap_cons_none hd]
      exact ih
    | some d =>
      rw [List.filterMap_cons_some hd, List.length_cons]
      refine Takes.mono ((takes_addMember owner d).bind fun ref =>
        Takes.bind (.note fun _ => rfl) fun _ => ih) ?_
      omega

theorem takes_addIntegers (values : List Int32) : Takes 0 (addIntegers values) := by
  induction values with
  | nil => exact .pure ()
  | cons value rest ih => exact (takes_addInteger value).bind fun _ => ih

theorem takes_addProgram (p : Program) :
    Takes ((p.members.filterMap p.decl?).length + 1) (addProgram p) := by
  -- only the references of the declarations and of the constructor are sure to be new
  refine Takes.mono (n := 0 + (0 + (0 + (0 + ((p.members.filterMap p.decl?).length + (1 + (0 +
    (0 + (0 + 0))))))))) ?_ (by omega)
  refine (takes_addClass _).bind fun this => ?_
  refine Takes.bind (.note fun _ => rfl) fun _ => ?_
  refine (takes_addClass _).bind fun super => ?_
  refine Takes.bind (.note fun _ => rfl) fun _ => ?_
  refine (takes_addMembers p this _).bind fun _ => ?_
  refine (takes_addMethodRef _ _ _).bind fun superInit => ?_
  refine Takes.bind (.note fun _ => rfl) fun _ => ?_
  refine (takes_addIntegers _).bind fun _ => ?_
  refine (takes_addUtf8 _).bind fun _ => ?_
  exact .note fun _ => rfl

/-- The pool of a program has an entry for each listed declaration and one for the constructor. -/
theorem size_of_ofProgram {p : Program} {pool : PoolBuilder} (h : ofProgram p = .ok pool) :
    (p.members.filterMap p.decl?).length + 1 ≤ pool.entries.size ∧
      pool.entries.size ≤ maxPoolEntries := by
  unfold ofProgram at h
  split at h
  · rename_i hrun
    obtain rfl := Except.ok.inj h
    obtain ⟨htaken, hroom⟩ := takes_addProgram p {} _ _ hrun
    have hempty : ({} : PoolBuilder).entries.size = 0 := rfl
    exact ⟨by omega, hroom (Nat.zero_le _)⟩
  · cases h

/-! ### Members of class files -/

variable {pool : PoolBuilder}

theorem attributes_member {flags : UInt16} {name descriptor : Text} {m : Member}
    (h : pool.member flags name descriptor = .ok m) : m.attributes = [] := by
  simp only [member, bind_eq_ok, pure_eq_ok] at h
  obtain ⟨_, -, _, -, rfl⟩ := h
  rfl

/-- Only values have fields, and these are compact. -/
theorem compact_of_field? {d : Declaration} {m : Member} (h : pool.field? d = .ok (some m)) :
    d.isValue = true ∧ m.Compact := by
  unfold field? at h
  split at h
  · rename_i hkind
    simp only [bind_eq_ok] at h
    obtain ⟨_, -, a, -, h⟩ := h
    split at h
    · cases h
    · obtain rfl := Option.some.inj (pure_eq_ok.1 h)
      refine ⟨by rw [Declaration.isValue, hkind]; rfl, Nat.le_refl 1, ?_⟩
      rw [List.forall_mem_singleton]
      exact (by decide : 2 < 2 ^ 32)
  · rename_i hkind
    simp only [bind_eq_ok, pure_eq_ok] at h
    obtain ⟨m', hm', hsome⟩ := h
    obtain rfl := Option.some.inj hsome
    have hnone := attributes_member hm'
    exact ⟨by rw [Declaration.isValue, hkind]; rfl, by rw [hnone]; exact Nat.zero_le 1,
      by rw [hnone]; exact fun a ha => absurd ha List.not_mem_nil⟩
  · cases h

theorem compact_of_method {flags : UInt16} {name descriptor : Text} {code : MethodCode}
    {m : Member} (h : pool.method flags name descriptor code = .ok m)
    (hcode : code.code.length ≤ maxCodeLength) : m.Compact := by
  simp only [method, bind_eq_ok, pure_eq_ok] at h
  obtain ⟨_, -, a, -, rfl⟩ := h
  refine ⟨Nat.le_refl 1, ?_⟩
  rw [List.forall_mem_singleton]
  dsimp only
  have hlength : code.encode.length = code.code.length + 12 := by
    simp only [MethodCode.encode, BigEndian.two, BigEndian.four, List.length_append,
      List.length_cons, List.length_nil]
    omega
  unfold maxCodeLength at hcode
  omega

/-- There are at most as many fields as values. -/
theorem length_fields_le {ds : List Declaration} {rs : List (Option Member)}
    (h : List.Forall₂ (fun d r => pool.field? d = .ok r) ds rs) :
    (rs.filterMap id).length ≤ (ds.filter Declaration.isValue).length := by
  induction h with
  | nil => exact Nat.le_refl 0
  | @cons d r ds rs hd _ ih =>
    cases r with
    | none =>
      have hle := (List.sublist_cons_self d ds).filter Declaration.isValue |>.length_le
      exact Nat.le_trans ih hle
    | some m =>
      rw [List.filter_cons_of_pos (compact_of_field? hd).1]
      exact Nat.succ_le_succ ih

end PoolBuilder

/-! ### Bodies of methods -/

/-- An instruction never has more bytes than are counted for it, whatever its operand is. -/
theorem Instruction.length_encode_le (i : Instruction) : i.encode.length ≤ i.size := by
  unfold encode size Opcode.size
  cases i.wide with
  | true => exact Nat.le_refl 4
  | false =>
    cases i.op.operand <;> simp [OperandKind.size, operandTwo, BigEndian.two]

theorem Code.length_encode_le (code : Code) : code.encode.length ≤ code.size := by
  induction code with
  | nil => exact Nat.le_refl 0
  | cons i code ih =>
    have hi := i.length_encode_le
    have hencode : encode (i :: code) = i.encode ++ encode code := rfl
    rw [hencode, List.length_append, size]
    omega

namespace Program

variable {p : Program} {pool : PoolBuilder}

theorem length_procedureCode_le {d : Declaration} {code : MethodCode}
    (h : EmitContext.procedureCode p pool d = .ok code) : code.code.length ≤ maxCodeLength := by
  obtain ⟨body, -, hsize, rfl⟩ := EmitContext.exists_body_of_procedureCode h
  exact Nat.le_trans (Code.length_encode_le _) hsize

theorem length_constructorCode_le {code : MethodCode}
    (h : EmitContext.constructorCode p pool = .ok code) : code.code.length ≤ maxCodeLength := by
  simp only [EmitContext.constructorCode, bind_eq_ok] at h
  obtain ⟨stores, -, h⟩ := h
  split at h
  · cases h
  · rename_i hsize
    obtain rfl := Except.ok.inj h
    exact Nat.le_trans (Code.length_encode_le _) (Nat.le_of_not_lt hsize)

/-! ### Class files -/

/-- The procedures are the listed declarations that are no values. -/
theorem procedureDecls_eq (p : Program) :
    p.procedureDecls = (p.members.filterMap p.decl?).filter fun d => !d.isValue := by
  rw [procedureDecls, procedures, List.filterMap_filter, List.filter_filterMap]
  refine List.filterMap_congr fun id _ => ?_
  cases hd : p.decl? id with
  | none => simp [hasKind, hd]
  | some d => cases hk : d.kind <;> simp [hasKind, hd, hk, Declaration.isValue, Option.filter]

/-- Each field and each method, the constructor included, has its own entry in the pool. -/
theorem members_le_pool {f : ClassFile} (h : p.classFile = .ok f) :
    f.fields.length + f.methods.length ≤ f.pool.size ∧ f.pool.size ≤ maxPoolEntries := by
  simp only [classFile, fields, methods, bind_eq_ok, pure_eq_ok] at h
  obtain ⟨pool, hpool, fields, ⟨rs, hrs, rfl⟩, methods, ⟨ms, hms, code, -, constructor, -, rfl⟩,
    rfl⟩ := h
  obtain ⟨htaken, hroom⟩ := PoolBuilder.size_of_ofProgram hpool
  have hfields := PoolBuilder.length_fields_le (mapM_eq_ok.1 hrs)
  have hmethods : ms.length = p.procedureDecls.length := (mapM_eq_ok.1 hms).length_eq.symm
  -- a listed declaration has a field or a method, and the constructor has the entry that is left
  have hsplit :=
    List.length_eq_length_filter_add (l := p.members.filterMap p.decl?) Declaration.isValue
  rw [procedureDecls_eq] at hmethods
  rw [List.length_append, List.length_singleton]
  exact ⟨by dsimp only; omega, hroom⟩

theorem compact_of_classFile {f : ClassFile} (h : p.classFile = .ok f) :
    (∀ m ∈ f.fields, m.Compact) ∧ ∀ m ∈ f.methods, m.Compact := by
  simp only [classFile, fields, methods, bind_eq_ok, pure_eq_ok] at h
  obtain ⟨pool, -, fields, ⟨rs, hrs, rfl⟩, methods,
    ⟨ms, hms, code, hcode, constructor, hconstructor, rfl⟩, rfl⟩ := h
  constructor
  · intro m hm
    obtain ⟨_, hr, rfl⟩ := List.mem_filterMap.1 hm
    obtain ⟨d, -, hd⟩ := exists_of_forall₂ (mapM_eq_ok.1 hrs) hr
    exact (PoolBuilder.compact_of_field? hd).2
  · intro m hm
    rcases List.mem_append.1 hm with hm | hm
    · obtain ⟨d, -, hd⟩ := exists_of_forall₂ (mapM_eq_ok.1 hms) hm
      simp only [procedureMethod, bind_eq_ok] at hd
      obtain ⟨code, hcode, hd⟩ := hd
      exact PoolBuilder.compact_of_method hd (length_procedureCode_le hcode)
    · obtain rfl := List.mem_singleton.1 hm
      exact PoolBuilder.compact_of_method hconstructor (length_constructorCode_le hcode)

/-- Whatever the table of the class lists, the counts and lengths of an emitted class file fit the
bytes they are written in, so these hold them as they are. -/
theorem counts_of_classFile {f : ClassFile} (h : p.classFile = .ok f) :
    f.fields.length ≤ 0xFFFF ∧ f.methods.length ≤ 0xFFFF ∧
      (∀ m ∈ f.fields ++ f.methods, m.Compact) ∧
      Member.CountsExact f.fields ∧ Member.CountsExact f.methods := by
  obtain ⟨hmembers, hpool⟩ := members_le_pool h
  obtain ⟨hfields, hmethods⟩ := compact_of_classFile h
  unfold maxPoolEntries at hpool
  have hfieldCount : f.fields.length ≤ 0xFFFF := by omega
  have hmethodCount : f.methods.length ≤ 0xFFFF := by omega
  exact ⟨hfieldCount, hmethodCount, List.forall_mem_append.2 ⟨hfields, hmethods⟩,
    .of_compact hfieldCount hfields, .of_compact hmethodCount hmethods⟩

/-- The class `A` with a constant and a procedure, each of which is listed twice. -/
def repetitive : Program :=
  let once : Program :=
    { name := Text.ofString "A"
      position := .unknown
      decls := #[{ kind := .constant, name := Text.ofString "c", value := 7 },
        { kind := .procedure, name := Text.ofString "f", body := .block [] .unknown }]
      tables := #[{ members := #[0, 1] }] }
  (once.repeatMember 1 1).repeatMember 0 1

theorem counts_of_repetitive : ∃ f, repetitive.classFile = .ok f ∧
    f.fields.length ≤ 0xFFFF ∧ f.methods.length ≤ 0xFFFF ∧
      (∀ m ∈ f.fields ++ f.methods, m.Compact) ∧
      Member.CountsExact f.fields ∧ Member.CountsExact f.methods := by
  have hcheck : repetitive.classFile.isOk = true := by cbv
  obtain ⟨f, hf⟩ := exists_of_isOk hcheck
  exact ⟨f, hf, counts_of_classFile hf⟩

end Program

end Classwright
