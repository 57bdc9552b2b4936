import Classwright.Emit.ClassFile
import Classwright.Proofs.Emit.Methods
import Classwright.Proofs.Emit.Pool

/-!
# Emitted class files

The class file of a checked program has the entries of a complete pool, a field for each constant
and variable, a method for each procedure, and the constructor behind them (`Program.Emitted`,
`Program.emitted_of_classFile`).
-/

namespace Classwright

namespace Program

/-- The constants and variables of the class, in order. -/
def fieldDecls (p : Program) : List Declaration :=
  (p.members.filterMap p.decl?).filter Declaration.isValue

/-- The procedures of the class, in order. -/
def procedureDecls (p : Program) : List Declaration :=
  p.procedures.filterMap p.decl?

variable {p : Program}

theorem WellFormed.mem_procedureDecls (hp : p.WellFormed) {d : Declaration} :
    d ∈ p.procedureDecls ↔ ∃ id, p.decl? id = some d ∧ d.kind = .procedure := by
  simp only [procedureDecls, List.mem_filterMap, hp.mem_procedures]
  constructor
  · rintro ⟨id, ⟨d', hd', hk⟩, hd⟩
    obtain rfl := Option.some.inj (hd'.symm.trans hd)
    exact ⟨id, hd, hk⟩
  · rintro ⟨id, hd, hk⟩
    exact ⟨id, ⟨d, hd, hk⟩, hd⟩

theorem WellFormed.mem_fieldDecls (hp : p.WellFormed) {d : Declaration} :
    d ∈ p.fieldDecls ↔
      ∃ id, p.decl? id = some d ∧ d.table = classTable ∧ d.isValue = true := by
  simp only [fieldDecls, List.mem_filter, List.mem_filterMap, hp.mem_members]
  constructor
  · rintro ⟨⟨id, ⟨d', hd', ht⟩, hd⟩, hv⟩
    obtain rfl := Option.some.inj (hd'.symm.trans hd)
    exact ⟨id, hd, ht, hv⟩
  · rintro ⟨id, hd, ht, hv⟩
    exact ⟨⟨id, ⟨d, hd, ht⟩, hd⟩, hv⟩

end Program

/-! ### Members -/

/-- `m` is the field of a declaration. -/
structure FieldOf (entries : Array Constant) (d : Declaration) (m : Member) : Prop where
  /-- It has the name of the declaration. -/
  name : Holds entries m.name (.utf8 d.name)
  /-- It is a number. -/
  descriptor : Holds entries m.descriptor (.utf8 ClassFile.intDescriptor)
  /-- A constant has its value as an attribute, a variable has none. -/
  attributes :
    (d.kind = .constant ∧ ∃ a index, m.attributes = [⟨a, BigEndian.two index.toNat⟩] ∧
      Holds entries a (.utf8 ClassFile.constantValueAttribute) ∧
      Holds entries index (.integer d.value)) ∨
    (d.kind = .var ∧ m.attributes = [])

/-- `m` is a method with a given name, descriptor and body. -/
structure MethodOf (entries : Array Constant) (name descriptor : Text) (code : MethodCode)
    (m : Member) : Prop where
  /-- It has the name. -/
  name : Holds entries m.name (.utf8 name)
  /-- It has the descriptor. -/
  descriptor : Holds entries m.descriptor (.utf8 descriptor)
  /-- Its only attribute is the body. -/
  attributes : ∃ a, m.attributes = [⟨a, code.encode⟩] ∧
    Holds entries a (.utf8 ClassFile.codeAttribute)

namespace PoolBuilder

variable {S : Text → Prop} {pool : PoolBuilder}

theorem utf8Index_eq_ok (hp : pool.Valid S) {text : Text} {index : UInt16}
    (h : pool.utf8Index text = .ok index) : Holds pool.entries index (.utf8 text) := by
  unfold utf8Index at h
  split at h
  · rename_i index' hindex
    obtain rfl := Except.ok.inj h
    exact hp.utf8s text _ hindex
  · simp at h

theorem member_eq_ok (hp : pool.Valid S) {flags : UInt16} {name descriptor : Text} {m : Member}
    (h : pool.member flags name descriptor = .ok m) :
    Holds pool.entries m.name (.utf8 name) ∧ Holds pool.entries m.descriptor (.utf8 descriptor) ∧
      m.attributes = [] := by
  simp only [member, bind_eq_ok, pure_eq_ok] at h
  obtain ⟨n, hn, d, hd, rfl⟩ := h
  exact ⟨utf8Index_eq_ok hp hn, utf8Index_eq_ok hp hd, rfl⟩

theorem method_eq_ok (hp : pool.Valid S) {flags : UInt16} {name descriptor : Text}
    {code : MethodCode} {m : Member} (h : pool.method flags name descriptor code = .ok m) :
    MethodOf pool.entries name descriptor code m := by
  simp only [method, bind_eq_ok, pure_eq_ok] at h
  obtain ⟨m', hm', a, ha, rfl⟩ := h
  obtain ⟨hname, hdescriptor, -⟩ := member_eq_ok hp hm'
  exact ⟨hname, hdescriptor, a, rfl, utf8Index_eq_ok hp ha⟩

/-- A value has a field, and nothing else has one. -/
theorem field?_eq_ok (hp : pool.Valid S) {d : Declaration} {r : Option Member}
    (hk : d.kind ≠ .parameter) (h : pool.field? d = .ok r) :
    (d.isValue = true ∧ ∃ m, r = some m ∧ FieldOf pool.entries d m) ∨
      (d.isValue = false ∧ r = none) := by
  unfold field? at h
  split at h
  · rename_i hconst
    simp only [bind_eq_ok] at h
    obtain ⟨m, hm, a, ha, h⟩ := h
    split at h
    · simp at h
    · rename_i index hindex
      obtain rfl := pure_eq_ok.1 h
      obtain ⟨hname, hdescriptor, -⟩ := member_eq_ok hp hm
      exact Or.inl ⟨by simp [Declaration.isValue, hconst], _, rfl, hname, hdescriptor,
        Or.inl ⟨hconst, a, index, rfl, utf8Index_eq_ok hp ha, hp.integers _ _ hindex⟩⟩
  · rename_i hvar
    simp only [bind_eq_ok, pure_eq_ok] at h
    obtain ⟨m, hm, rfl⟩ := h
    obtain ⟨hname, hdescriptor, hattributes⟩ := member_eq_ok hp hm
    exact Or.inl ⟨by simp [Declaration.isValue, hvar], m, rfl, hname, hdescriptor,
      Or.inr ⟨hvar, hattributes⟩⟩
  · rename_i hconst hvar
    refine Or.inr ⟨?_, (pure_eq_ok.1 h).symm⟩
    cases hkind : d.kind <;> simp_all [Declaration.isValue]

theorem forall₂_fields (hp : pool.Valid S) {ds : List Declaration} {rs : List (Option Member)}
    (hk : ∀ d ∈ ds, d.kind ≠ .parameter)
    (h : List.Forall₂ (fun d r => pool.field? d = .ok r) ds rs) :
    List.Forall₂ (FieldOf pool.entries) (ds.filter Declaration.isValue) (rs.filterMap id) := by
  induction h with
  | nil => exact .nil
  | cons hd _ ih =>
    rw [List.forall_mem_cons] at hk
    rcases field?_eq_ok hp hk.1 hd with ⟨hv, m, rfl, hm⟩ | ⟨hv, rfl⟩
    · rw [List.filter_cons_of_pos hv]
      exact .cons hm (ih hk.2)
    · rw [List.filter_cons_of_neg (by simp [hv])]
      exact ih hk.2

end PoolBuilder

/-! ### Class files -/

namespace Program

/-- `f` is the class file of a program with the pool `pool`. -/
structure Emitted (p : Program) (pool : PoolBuilder) (f : ClassFile) : Prop where
  /-- The pool is complete. -/
  complete : pool.Complete p
  /-- Its entries are those of the file. -/
  pool_eq : f.pool = pool.entries
  /-- The file is that of the class, -/
  this_eq : f.this = pool.this
  /-- which extends the class that all classes extend, -/
  super_eq : f.super = pool.super
  /-- in the versions that are written. -/
  version_eq : f.major = ClassFile.majorVersion ∧ f.minor = ClassFile.minorVersion
  /-- There is a field for each constant and variable. -/
  fields : List.Forall₂ (FieldOf pool.entries) p.fieldDecls f.fields
  /-- There is a method for each procedure, and the constructor behind them. -/
  methods : ∃ methods constructor, f.methods = methods ++ [constructor] ∧
    List.Forall₂ (fun d m => ∃ code, EmitContext.procedureCode p pool d = .ok code ∧
      MethodOf pool.entries d.name d.descriptor code m) p.procedureDecls methods ∧
    ∃ code, EmitContext.constructorCode p pool = .ok code ∧
      MethodOf pool.entries ClassFile.initName ClassFile.initDescriptor code constructor

theorem exists_pool_of_classFile {p : Program} {f : ClassFile} (h : p.classFile = .ok f) :
    ∃ pool, PoolBuilder.ofProgram p = .ok pool := by
  rw [classFile, bind_eq_ok] at h
  obtain ⟨pool, hpool, -⟩ := h
  exact ⟨pool, hpool⟩

/-- What is emitted for a program with tidy tables, if anything is. -/
theorem Tidy.emitted {p : Program} {pool : PoolBuilder} {f : ClassFile} (hp : p.Tidy)
    (hpool : PoolBuilder.ofProgram p = .ok pool) (h : p.classFile = .ok f) : p.Emitted pool f := by
  simp only [classFile, fields, methods, hpool, ok_bind, bind_eq_ok, pure_eq_ok] at h
  obtain ⟨fields, ⟨rs, hrs, rfl⟩, methods, ⟨ms, hms, code, hcode, constructor, hconstructor, rfl⟩,
    rfl⟩ := h
  have hcomplete := PoolBuilder.complete_of_ofProgram hp hpool
  refine ⟨hcomplete, rfl, rfl, rfl, ⟨rfl, rfl⟩, ?_, ms, constructor, rfl, ?_, code, hcode,
    PoolBuilder.method_eq_ok hcomplete.valid hconstructor⟩
  · refine PoolBuilder.forall₂_fields hcomplete.valid ?_ (mapM_eq_ok.1 hrs)
    intro d hd
    obtain ⟨id, hid, hd⟩ := List.mem_filterMap.1 hd
    exact PoolBuilder.ne_parameter_of_ofProgram hpool id hid d hd
  · refine (mapM_eq_ok.1 hms).imp ?_
    intro d m hm
    simp only [procedureMethod, bind_eq_ok] at hm
    obtain ⟨code, hcode, hm⟩ := hm
    exact ⟨code, hcode, PoolBuilder.method_eq_ok hcomplete.valid hm⟩

/-- What is emitted for a well-formed program with its pool. -/
theorem emitted_of_pool {p : Program} {pool : PoolBuilder} {f : ClassFile} (hp : p.WellFormed)
    (hpool : PoolBuilder.ofProgram p = .ok pool) (h : p.classFile = .ok f) : p.Emitted pool f :=
  hp.tidy.emitted hpool h

/-- What is emitted for a well-formed program. -/
theorem emitted_of_classFile {p : Program} {f : ClassFile} (hp : p.WellFormed)
    (h : p.classFile = .ok f) : ∃ pool, p.Emitted pool f := by
  obtain ⟨pool, hpool⟩ := exists_pool_of_classFile h
  exact ⟨pool, emitted_of_pool hp hpool h⟩

end Program

end Classwright
