import Classwright.Proofs.ClassFile.Access
import Classwright.Proofs.Numbering
import Mathlib.Data.List.Basic

/-!
# Loading the class file of a program

The class file of a checked program can be loaded.  Fields are numbered in the order of the
constants and variables of the class, methods in the order of its procedures with the constructor
behind them, and each method holds the code laid out for its procedure (`Machine.Represents`,
`Machine.represents_of_load`).
-/

namespace Classwright

/-! ### Names and descriptors -/

theorem procedureDescriptor_eq (arity : Nat) (result : ValueType) :
    procedureDescriptor arity result =
      0x28 :: (List.replicate arity 0x49 ++ [0x29, if result = .int then 0x49 else 0x56]) := by
  cases result <;>
  · rw [procedureDescriptor, List.append_assoc, List.append_assoc]
    rfl

namespace MethodType

theorem ofDescriptor_procedureDescriptor (arity : Nat) (result : ValueType) :
    ofDescriptor (procedureDescriptor arity result) = .ok ⟨arity, result == .int⟩ := by
  have htake (last : UInt8) : (List.replicate arity (0x49 : UInt8) ++ [0x29, last]).takeWhile
      (· != 0x29) = List.replicate arity 0x49 := by
    rw [List.takeWhile_append_of_pos (by simp)]
    simp
  have hdrop (last : UInt8) : (List.replicate arity (0x49 : UInt8) ++ [0x29, last]).drop arity =
      [0x29, last] := by
    rw [List.drop_left' List.length_replicate]
  rw [procedureDescriptor_eq]
  simp only [ofDescriptor, htake, List.length_replicate, hdrop]
  rw [if_pos (by simp)]
  cases result <;> rfl

theorem ofDescriptor_init : ofDescriptor ClassFile.initDescriptor = .ok ⟨0, false⟩ := by decide

end MethodType

namespace Declaration

/-- The name and the descriptor of a procedure put together. -/
def key (d : Declaration) : Text :=
  d.name ++ d.descriptor

theorem descriptor_of_procedure {d : Declaration} (hk : d.kind = .procedure) :
    d.descriptor = procedureDescriptor d.arity d.type := by
  simp [descriptor, isValue, hk]

end Declaration

theorem Text.IsIdentifier.notMem_open {t : Text} (h : t.IsIdentifier) : (0x28 : UInt8) ∉ t := by
  obtain ⟨b, rest, rfl, hb, hrest⟩ := h.word
  have hpart : ∀ c ∈ b :: rest, Character.isWordPart c = true :=
    List.forall_mem_cons.2 ⟨Character.isWordPart_iff.2 (Or.inl hb), hrest⟩
  intro hmem
  have hword := hpart _ hmem
  exact absurd hword (by decide)

/-- No name is that of the constructor. -/
theorem Text.IsIdentifier.append_ne_init {t : Text} (h : t.IsIdentifier) (rest : Text) :
    t ++ rest ≠ ClassFile.initName ++ ClassFile.initDescriptor := by
  obtain ⟨b, others, rfl, hb, -⟩ := h.word
  intro heq
  rw [List.cons_append] at heq
  obtain ⟨rfl, -⟩ := List.cons.inj (heq.trans (show ClassFile.initName ++ ClassFile.initDescriptor =
    (0x3C : UInt8) :: _ from rfl))
  exact absurd hb (by decide)

/-- A method that returns a number is not the constructor, whatever its name. -/
theorem append_procedureDescriptor_ne_init (t : Text) (n : Nat) :
    t ++ procedureDescriptor n .int ≠ ClassFile.initName ++ ClassFile.initDescriptor := by
  have hlast : (t ++ procedureDescriptor n .int).getLast? = some 0x49 := by
    rw [procedureDescriptor_eq, if_pos rfl, ← List.cons_append, ← List.append_assoc,
      List.getLast?_append]
    rfl
  intro heq
  rw [heq] at hlast
  exact absurd hlast (by decide)

/-- A name and a descriptor can be told apart. -/
theorem append_procedureDescriptor_inj {s t : Text} (hs : (0x28 : UInt8) ∉ s) {n m : Nat}
    {x y : ValueType} (h : s ++ procedureDescriptor n x = t ++ procedureDescriptor m y) :
    s = t ∧ n = m ∧ x = y := by
  have hnot : (0x28 : UInt8) ∉
      List.replicate n 0x49 ++ [(0x29 : UInt8), if x = .int then 0x49 else 0x56] := by
    simp only [List.mem_append, List.mem_replicate, List.mem_cons, List.not_mem_nil, or_false,
      not_or]
    refine ⟨by simp, by decide, ?_⟩
    split <;> decide
  rw [procedureDescriptor_eq, procedureDescriptor_eq, List.append_cons_inj_of_notMem hs hnot] at h
  obtain ⟨rfl, -, h⟩ := h
  have hlength := congrArg List.length h
  simp only [List.length_append, List.length_replicate, List.length_cons, List.length_nil] at hlength
  obtain rfl : n = m := by omega
  have hlast := List.append_cancel_left h
  refine ⟨rfl, rfl, ?_⟩
  cases x <;> cases y <;> first | rfl | simp at hlast

namespace Program

variable {p : Program}

/-- No two procedures have the same name and number of parameters. -/
theorem WellFormed.procedure_unique (hp : p.WellFormed) {i j : DeclId} {d e : Declaration}
    (hi : p.decl? i = some d) (hj : p.decl? j = some e) (hd : d.kind = .procedure)
    (he : e.kind = .procedure) (hname : d.name = e.name) (harity : d.arity = e.arity) : i = j := by
  obtain ⟨d', hd', hdt⟩ :=
    hp.mem_members.1 (List.mem_filter.1 (hp.mem_procedures.2 ⟨d, hi, hd⟩)).1
  obtain ⟨e', he', het⟩ :=
    hp.mem_members.1 (List.mem_filter.1 (hp.mem_procedures.2 ⟨e, hj, he⟩)).1
  obtain rfl := Option.some.inj (hd'.symm.trans hi)
  obtain rfl := Option.some.inj (he'.symm.trans hj)
  exact hp.tidy.procedure_unique i j d' e' hi hj (hdt.trans het.symm)
    (by simp [Declaration.isValue, hd]) (by simp [Declaration.isValue, he]) hname harity

/-- A key tells the name, the number of parameters and the result. -/
theorem WellFormed.key_inj (hp : p.WellFormed) {i : DeclId} {d : Declaration}
    (hi : p.decl? i = some d) (hd : d.kind = .procedure) {name : Text} {n : Nat} {x : ValueType}
    (h : d.key = name ++ procedureDescriptor n x) : d.name = name ∧ d.arity = n ∧ d.type = x := by
  rw [Declaration.key, Declaration.descriptor_of_procedure hd] at h
  exact append_procedureDescriptor_inj (hp.decl_name i d hi).notMem_open h

/-- The methods of the class by name and descriptor, in order. -/
def methodKeys (p : Program) : List Text :=
  p.procedureDecls.map Declaration.key ++ [ClassFile.initName ++ ClassFile.initDescriptor]

/-- The fields of the class by name, in order. -/
def fieldNames (p : Program) : List Text :=
  p.fieldDecls.map Declaration.name

theorem WellFormed.nodup_methodKeys (hp : p.WellFormed) : p.methodKeys.Nodup := by
  rw [methodKeys, List.nodup_append]
  refine ⟨?_, List.nodup_singleton _, ?_⟩
  · rw [procedureDecls, List.Nodup, List.pairwise_map, List.pairwise_filterMap]
    have hnodup : p.procedures.Nodup := (hp.tidy.nodup_membersOf classTable).filter _
    refine hnodup.imp_of_mem ?_
    intro i j hi hj hne d hd e he heq
    obtain ⟨d', hd', hk⟩ := hp.mem_procedures.1 hi
    obtain ⟨e', he', hk'⟩ := hp.mem_procedures.1 hj
    obtain rfl := Option.some.inj (hd'.symm.trans hd)
    obtain rfl := Option.some.inj (he'.symm.trans he)
    obtain ⟨hname, harity, -⟩ := hp.key_inj hd hk
      (heq.trans (by rw [Declaration.key, Declaration.descriptor_of_procedure hk']))
    exact hne (hp.procedure_unique hd he hk hk' hname harity)
  · intro key hkey init hinit
    obtain ⟨d, hd, rfl⟩ := List.mem_map.1 hkey
    obtain rfl := List.mem_singleton.1 hinit
    obtain ⟨id, hid, -⟩ := hp.mem_procedureDecls.1 hd
    exact (hp.decl_name id d hid).append_ne_init d.descriptor

theorem Tidy.nodup_fieldNames (hp : p.Tidy) : p.fieldNames.Nodup := by
  rw [fieldNames, fieldDecls, List.Nodup, List.pairwise_map, List.pairwise_filter,
    List.pairwise_filterMap]
  refine (hp.nodup_membersOf classTable).imp_of_mem ?_
  intro i j hi hj hne d hd e he hdv hev heq
  obtain ⟨d', hd', hdt⟩ := (hp.mem_membersOf classTable i).1 hi
  obtain ⟨e', he', het⟩ := (hp.mem_membersOf classTable j).1 hj
  obtain rfl := Option.some.inj (hd'.symm.trans hd)
  obtain rfl := Option.some.inj (he'.symm.trans he)
  exact hne (hp.value_unique hd he (hdt.trans het.symm) hdv hev heq)

theorem WellFormed.nodup_fieldNames (hp : p.WellFormed) : p.fieldNames.Nodup :=
  hp.tidy.nodup_fieldNames

end Program

/-! ### Fields -/

/-- The value a field starts with: that of the constant, 0 for a variable. -/
def Declaration.initialValue (d : Declaration) : Int32 :=
  if d.kind = .constant then d.value else 0

namespace Machine

variable {f : ClassFile}

theorem startValue_of_fieldOf {d : Declaration} {m : Member} (h : FieldOf f.pool d m) :
    startValue f m = .ok d.initialValue := by
  rw [startValue]
  rcases h.attributes with ⟨hk, a, index, hm, ha, hindex⟩ | ⟨hk, hm⟩
  · obtain ⟨x, y, hxy, hn⟩ := BigEndian.ofTwo_two (toNat_le index)
    rw [ClassFile.attribute?_of_holds hm ha, hxy, Declaration.initialValue, if_pos hk]
    simp only [hn]
    exact LinkContext.integer_of_holds hindex
  · have hnone : f.attribute? m ClassFile.constantValueAttribute = none := by
      rw [ClassFile.attribute?, hm, List.find?_nil]
    rw [hnone, Declaration.initialValue, if_neg (by simp [hk])]

/-- Fields of different names are numbered in order. -/
theorem loadFields_of_forall₂ {ds : List Declaration} {ms : List Member}
    (h : List.Forall₂ (FieldOf f.pool) ds ms) (hnodup : (ds.map Declaration.name).Nodup)
    (fields : Fields) (hnew : ∀ name ∈ ds.map Declaration.name, name ∉ fields.index) :
    loadFields f fields ms =
      .ok ⟨(numberFrom Declaration.name fields.index fields.values.size ds).1,
        fields.values ++ (ds.map Declaration.initialValue).toArray⟩ := by
  induction h generalizing fields with
  | nil => simp [loadFields, numberFrom]
  | @cons d m ds ms hd _ ih =>
    rw [List.map_cons, List.nodup_cons] at hnodup
    rw [List.map_cons, List.forall_mem_cons] at hnew
    have hname : inFile (f.memberName m) = .ok (d.name, ClassFile.intDescriptor) := by
      rw [ClassFile.memberName_of_holds hd.name hd.descriptor]
      rfl
    have hinsert : fields.insert d.name d.initialValue =
        ⟨fields.index.insert d.name fields.values.size, fields.values.push d.initialValue⟩ := by
      rw [Fields.insert, Std.HashMap.getElem?_eq_none hnew.1]
    rw [loadFields, hname, ok_bind]
    simp only [startValue_of_fieldOf hd]
    rw [hinsert, ih hnodup.2]
    · rw [numberFrom_cons]
      simp
    · intro name hmem
      rw [Std.HashMap.mem_insert, not_or, beq_iff_eq]
      exact ⟨fun heq => hnodup.1 (heq ▸ hmem), hnew.2 name hmem⟩

/-! ### Methods -/

/-- A method is decoded if its name, its type, its body and its instructions are. -/
theorem loadMethod_eq_ok {m : Member} {name descriptor : Text} {type : MethodType}
    {body : MethodCode} {code : Code} (hname : f.memberName m = .ok (name, descriptor))
    (htype : MethodType.ofDescriptor descriptor = .ok type) (hbody : f.methodCode m = .ok body)
    (hcode : Code.decode body.code = .ok code) :
    loadMethod f m = .ok { name, descriptor, type, body, code } := by
  rw [loadMethod, hname, hbody]
  simp only [inFile, inMethod, ok_bind, htype, hcode]
  rfl

theorem loadMethod_of_methodOf {m : Member} {name descriptor : Text} {type : MethodType}
    {body : MethodCode} {code : Code} (h : MethodOf f.pool name descriptor body m)
    (htype : MethodType.ofDescriptor descriptor = .ok type)
    (hcode : ∀ i ∈ code, i.Encodable) (hsize : code.size ≤ 0xFFFF)
    (hbody : body.code = code.encode) :
    loadMethod f m = .ok { name, descriptor, type, body, code } := by
  have hlength : body.code.length ≤ 0xFFFFFFFF := by
    rw [hbody, Code.length_encode hcode]
    omega
  refine loadMethod_eq_ok (ClassFile.memberName_of_holds h.name h.descriptor) htype
    (ClassFile.methodCode_of_methodOf h hlength) ?_
  rw [hbody, Code.decode_encode hcode]

end Machine

/-- `raw` is the decoded method of a procedure. -/
structure MethodFor (p : Program) (pool : PoolBuilder) (d : Declaration) (raw : RawMethod) :
    Prop where
  /-- It has the name of the procedure. -/
  name_eq : raw.name = d.name
  /-- It has the descriptor of the procedure. -/
  descriptor_eq : raw.descriptor = d.descriptor
  /-- It takes and returns what the procedure does. -/
  type_eq : raw.type = ⟨d.arity, d.type == .int⟩
  /-- Its code is that of the statements with the return behind them. -/
  layout : ∃ statements body, EmitContext.Layout p pool d statements body ∧
    raw.code = body ++ EmitContext.tail d
  /-- Its stack is as high as the procedure needs. -/
  maxStack_eq : raw.body.maxStack.toNat = EmitContext.stackOf p d
  /-- It has a slot for each parameter and variable. -/
  maxLocals_eq : raw.body.maxLocals.toNat = (p.localsOf d).length

/-- `raw` is the decoded constructor. -/
structure InitFor (p : Program) (pool : PoolBuilder) (raw : RawMethod) : Prop where
  /-- It has the name of a constructor. -/
  name_eq : raw.name = ClassFile.initName
  /-- It has the descriptor of a constructor. -/
  descriptor_eq : raw.descriptor = ClassFile.initDescriptor
  /-- It takes nothing and returns nothing. -/
  type_eq : raw.type = ⟨0, false⟩
  /-- Its code stores the constants. -/
  code_eq : ∃ stores, EmitContext.StoresCode { program := p, pool } p.constants stores ∧
    raw.code = EmitContext.initCode pool stores
  /-- It needs one place on the stack, -/
  maxStack_eq : raw.body.maxStack.toNat = 1
  /-- and one slot. -/
  maxLocals_eq : raw.body.maxLocals.toNat = 1

/-- What each procedure has in slots fits a number of two bytes. -/
def Program.SlotsFit (p : Program) : Prop :=
  ∀ id d, p.decl? id = some d → d.kind = .procedure → (p.localsOf d).length ≤ 0xFFFF

namespace Machine

variable {p : Program} {pool : PoolBuilder} {f : ClassFile}

/-- The method of a procedure can be decoded. -/
theorem loadMethod_of_procedureCode (hp : p.Checked) (hslots : p.SlotsFit) {id : DeclId}
    {d : Declaration} (hd : p.decl? id = some d) (hk : d.kind = .procedure) {code : MethodCode}
    (hcode : EmitContext.procedureCode p pool d = .ok code) {m : Member}
    (hm : MethodOf f.pool d.name d.descriptor code m) :
    ∃ raw, loadMethod f m = .ok raw ∧ MethodFor p pool d raw := by
  obtain ⟨statements, body, hlayout, rfl⟩ := EmitContext.procedureCode_eq_ok hp hd hk hcode
  have hlocals := hslots id d hd hk
  have htype : MethodType.ofDescriptor d.descriptor = .ok ⟨d.arity, d.type == .int⟩ := by
    rw [Declaration.descriptor_of_procedure hk, MethodType.ofDescriptor_procedureDescriptor]
  refine ⟨_, loadMethod_of_methodOf hm htype (hlayout.encodable hp.wellFormed hlocals)
    hlayout.size_le rfl, rfl, rfl, rfl, ⟨statements, body, hlayout, rfl⟩, ?_, ?_⟩
  · exact UInt16.toNat_ofNat_of_lt' (Nat.lt_succ_of_le hlayout.stackOf_le)
  · exact UInt16.toNat_ofNat_of_lt' (Nat.lt_succ_of_le hlocals)

/-- The constructor can be decoded. -/
theorem loadMethod_of_constructorCode {code : MethodCode}
    (hcode : EmitContext.constructorCode p pool = .ok code) {m : Member}
    (hm : MethodOf f.pool ClassFile.initName ClassFile.initDescriptor code m) :
    ∃ raw, loadMethod f m = .ok raw ∧ InitFor p pool raw := by
  obtain ⟨stores, hstores, hsize, rfl⟩ := EmitContext.constructorCode_eq_ok hcode
  exact ⟨_, loadMethod_of_methodOf hm MethodType.ofDescriptor_init
    (EmitContext.encodable_initCode hstores) hsize rfl, rfl, rfl, rfl, ⟨stores, hstores, rfl⟩, rfl,
    rfl⟩

/-- The names that the instructions of a loaded class refer to. -/
def linkContext (m : Machine) (p : Program) (f : ClassFile) : LinkContext :=
  { file := f, className := p.name, fields := m.fieldIndex, methods := m.methodIndex }

/-- `m` is a loaded class file of a program. -/
structure Represents (m : Machine) (p : Program) (pool : PoolBuilder) (f : ClassFile) : Prop where
  /-- The class file is that of the program. -/
  emitted : p.Emitted pool f
  /-- Methods are numbered in the order of the procedures. -/
  methodIndex_iff : ∀ (key : Text) (n : Nat), m.methodIndex[key]? = some n ↔
    p.methodKeys[n]? = some key
  /-- Fields are numbered in the order of the constants and variables. -/
  fieldIndex_iff : ∀ (name : Text) (n : Nat), m.fieldIndex[name]? = some n ↔
    p.fieldNames[n]? = some name
  /-- There is a value for each field. -/
  statics_size : m.statics.size = p.fieldNames.length
  /-- There is a method for each procedure. -/
  procedure : ∀ (n : Nat) (d : Declaration), p.procedureDecls[n]? = some d → ∃ raw,
    MethodFor p pool d raw ∧ m.methods[n]? = some ((m.linkContext p f).link raw)
  /-- The constructor stands behind them. -/
  constructor : ∃ raw, InitFor p pool raw ∧
    m.methods[p.procedureDecls.length]? = some ((m.linkContext p f).link raw)

/-- What loading a class file takes and yields. -/
theorem load_eq_ok {limits : Limits} {m : Machine} : load f limits = .ok m ↔
    ∃ className fields raws, inFile (f.className f.this) = .ok className ∧
      loadFields f {} f.fields = .ok fields ∧ f.methods.mapM (loadMethod f) = .ok raws ∧
      m = {
        methods := (raws.map (LinkContext.link
          { file := f, className, fields := fields.index, methods := indexMethods raws })).toArray
        methodIndex := indexMethods raws
        fieldIndex := fields.index
        statics := fields.values
        limits } := by
  simp only [load, bind_eq_ok, pure_eq_ok]
  constructor
  · rintro ⟨className, hclass, fields, hfields, raws, hraws, rfl⟩
    exact ⟨className, fields, raws, hclass, hfields, hraws, rfl⟩
  · rintro ⟨className, fields, raws, hclass, hfields, hraws, rfl⟩
    exact ⟨className, hclass, fields, hfields, raws, hraws, rfl⟩

/-- The number of a method that is found is that of a method with the name and descriptor. -/
theorem exists_of_indexMethods {raws : List RawMethod} {key : Text} {n : Nat}
    (h : (indexMethods raws)[key]? = some n) :
    ∃ raw, raws[n]? = some raw ∧ raw.name ++ raw.descriptor = key := by
  rcases exists_of_getElem?_numberFrom (fun raw : RawMethod => raw.name ++ raw.descriptor) h with
    hnone | ⟨i, raw, rfl, hraw, hkey⟩
  · simp at hnone
  · rw [Nat.zero_add]
    exact ⟨raw, hraw, hkey⟩

/-- A class file can be loaded if its methods can be decoded. -/
theorem load_of_mapM (hp : p.Tidy) (hf : p.Emitted pool f) {raws : List RawMethod}
    (hraws : f.methods.mapM (loadMethod f) = .ok raws) (limits : Limits) :
    load f limits = .ok {
      methods := (raws.map (LinkContext.link {
        file := f
        className := p.name
        fields := (numberFrom Declaration.name {} 0 p.fieldDecls).1
        methods := indexMethods raws })).toArray
      methodIndex := indexMethods raws
      fieldIndex := (numberFrom Declaration.name {} 0 p.fieldDecls).1
      statics := (p.fieldDecls.map Declaration.initialValue).toArray
      limits } := by
  have hpool := hf.pool_eq
  have hclass : inFile (f.className f.this) = .ok p.name := by
    rw [ClassFile.className_of_namesClass (by rw [hpool, hf.this_eq]; exact hf.complete.this)]
    rfl
  have hfields : loadFields f {} f.fields =
      .ok ⟨(numberFrom Declaration.name {} 0 p.fieldDecls).1,
        (p.fieldDecls.map Declaration.initialValue).toArray⟩ := by
    rw [loadFields_of_forall₂ (hpool ▸ hf.fields) hp.nodup_fieldNames {} (by simp)]
    simp
  exact load_eq_ok.2 ⟨_, _, raws, hclass, hfields, hraws, rfl⟩

/-- The class file of a checked program can be loaded. -/
theorem exists_load (hp : p.Checked) (hslots : p.SlotsFit) (hf : p.Emitted pool f)
    (limits : Limits) :
    ∃ m, load f limits = .ok m ∧ m.Represents p pool f ∧ m.limits = limits ∧ m.steps = 0 ∧
      m.statics = (p.fieldDecls.map Declaration.initialValue).toArray := by
  obtain ⟨methods, constructor, hmethods, hprocedures, code, hcode, hinit⟩ := hf.methods
  have hpool := hf.pool_eq
  -- each method of the file is loaded, and is that of its procedure
  obtain ⟨raws, hraws, hfor⟩ := exists_forall₂ (A := fun m raw => loadMethod f m = .ok raw)
    (B := MethodFor p pool) hprocedures (by
      rintro d hd m ⟨code, hcode, hm⟩
      obtain ⟨id, hid, hk⟩ := hp.wellFormed.mem_procedureDecls.1 hd
      exact loadMethod_of_procedureCode hp hslots hid hk hcode (hpool ▸ hm))
  obtain ⟨init, hload, hinitFor⟩ := loadMethod_of_constructorCode hcode (hpool ▸ hinit)
  have hall : f.methods.mapM (loadMethod f) = .ok (raws ++ [init]) := by
    rw [hmethods, mapM_eq_ok]
    exact List.rel_append hraws (.cons hload .nil)
  have hlength : raws.length = p.procedureDecls.length := hfor.length_eq.symm
  -- methods and procedures are found under the same keys
  have hkeys : (raws ++ [init]).map (fun m => m.name ++ m.descriptor) = p.methodKeys := by
    rw [List.map_append, map_eq_of_forall₂ (f := Declaration.key) hfor (by
      intro d raw h
      rw [h.name_eq, h.descriptor_eq, Declaration.key])]
    rw [List.map_singleton, hinitFor.name_eq, hinitFor.descriptor_eq, Program.methodKeys]
  refine ⟨_, load_of_mapM hp.wellFormed.tidy hf hall limits,
    ⟨hf, ?_, ?_, ?_, ?_, init, hinitFor, ?_⟩, rfl, rfl, rfl⟩
  · intro key n
    rw [← hkeys]
    exact getElem?_numbering _ (hkeys ▸ hp.wellFormed.nodup_methodKeys) key n
  · intro name n
    exact getElem?_numbering Declaration.name hp.wellFormed.nodup_fieldNames name n
  · simp [Program.fieldNames]
  · intro n d hd
    obtain ⟨raw, hraw, hmethod⟩ := forall₂_getElem? hfor hd
    have hlt := (List.getElem?_eq_some_iff.1 hraw).1
    refine ⟨raw, hmethod, ?_⟩
    rw [List.getElem?_toArray, List.getElem?_map, List.getElem?_append_left hlt, hraw]
    rfl
  · rw [List.getElem?_toArray, List.getElem?_map, ← hlength, List.getElem?_append_right (by simp)]
    simp
    rfl

end Machine

end Classwright
