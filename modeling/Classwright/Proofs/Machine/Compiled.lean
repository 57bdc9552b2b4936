import Classwright.Proofs.ClassFile.Verified
import Classwright.Proofs.Emit.Written
import Classwright.Proofs.Machine.Requests
import Mathlib

/-!
# Compiled programs

What a machine does with the class file of an accepted source text: a call of a procedure does what
the evaluator says about it (`Build.implements_procedures`), and no request makes it run into an
error other than a division by zero or a limit (`Build.type_safe`).  The class file is well formed
and can be written and read back (`Build.serialisable`).
-/

namespace Classwright

namespace Machine

/-- `m` is a class file just loaded, whose static fields were given values. -/
structure Started (f : ClassFile) (limits : Limits) (fields : FieldValues) (m : Machine) :
    Prop where
  /-- It differs from what was loaded in the values of the fields only. -/
  loaded : ∃ start, load f limits = .ok start ∧ m.statics.size = start.statics.size ∧
    m = { start with statics := m.statics }
  /-- Its fields have the values. -/
  holds : m.Holds fields

theorem load_with {f : ClassFile} {limits : Limits} {m : Machine} (h : load f limits = .ok m)
    (limits' : Limits) : load f limits' = .ok { m with limits := limits' } := by
  obtain ⟨name, fields, raws, hname, hfields, hraws, rfl⟩ := load_eq_ok.1 h
  exact load_eq_ok.2 ⟨name, fields, raws, hname, hfields, hraws, rfl⟩

/-- What is loaded represents the program. -/
theorem represents_of_build {text : Text} {p : Program} {f : ClassFile}
    (h : (Build.ofText text).result = .ok (p, f)) (hslots : p.SlotsFit) :
    p.WellFormed ∧ ∃ pool, ∀ limits, ∃ m, load f limits = .ok m ∧ m.Represents p pool f ∧
      m.limits = limits ∧ m.steps = 0 := by
  obtain ⟨hp, hfile⟩ := Build.checked h
  obtain ⟨pool, hf⟩ := Program.emitted_of_classFile hp.wellFormed hfile
  refine ⟨hp.wellFormed, pool, fun limits => ?_⟩
  obtain ⟨m, hload, hm, hlimits, hsteps, -⟩ := exists_load hp hslots hf limits
  exact ⟨m, hload, hm, hlimits, hsteps⟩

theorem Represents.exists_started {p : Program} {pool : PoolBuilder} {f : ClassFile}
    {limits : Limits} {m : Machine} (hm : m.Represents p pool f) (hload : load f limits = .ok m)
    (fields : FieldValues) : ∃ start, Started f limits fields start := by
  have hsize : (p.staticsOf fields).size = m.statics.size := by
    simp [Program.staticsOf, hm.statics_size]
  exact ⟨{ m with statics := p.staticsOf fields }, ⟨m, hload, hsize, rfl⟩,
    (hm.with hsize m.limits m.steps).holds rfl⟩

end Machine

/-- Calls of the procedure `d` on a loaded class file do what the evaluator says about it. -/
structure Machine.Implements (f : ClassFile) (p : Program) (id : DeclId) (d : Declaration)
    (arguments : List Int32) (fields : FieldValues) : Prop where
  /-- The class file can be loaded, and its fields can be given the values. -/
  starts : ∀ limits, ∃ m, Started f limits fields m
  /-- A call that hits no limit ends as the evaluation does. -/
  sound : ∀ limits m tracing, Started f limits fields m →
    (m.invoke d.name arguments tracing).2.1 = .error (.stepLimit limits.maxSteps) ∨
    (∃ depth, (m.invoke d.name arguments tracing).2.1 = .error (.callDepth depth)) ∨
    ∃ r, p.Ends id arguments fields r ∧ Agrees (m.invoke d.name arguments tracing) r
  /-- Under some limits a call ends as the evaluation does, if that ends. -/
  complete : ∀ r, p.Ends id arguments fields r → ∃ limits : Limits, 0 < limits.maxSteps ∧
    0 < limits.maxDepth ∧ ∀ m tracing, Started f limits fields m →
      Agrees (m.invoke d.name arguments tracing) r

/-- Calls of the procedures of an accepted program do what the evaluator says about them. -/
theorem Build.implements_procedures {text : Text} {p : Program} {f : ClassFile}
    (h : (Build.ofText text).result = .ok (p, f)) (hslots : p.SlotsFit) {id : DeclId}
    {d : Declaration} (hd : p.decl? id = some d) (hk : d.kind = .procedure)
    {arguments : List Int32} (harguments : arguments.length = d.arity) (fields : FieldValues) :
    Machine.Implements f p id d arguments fields := by
  obtain ⟨hp, pool, hloads⟩ := Machine.represents_of_build h hslots
  refine ⟨fun limits => ?_, ?_, fun r hr => ?_⟩
  · obtain ⟨m, hload, hm, -⟩ := hloads limits
    exact hm.exists_started hload fields
  · rintro limits m tracing ⟨⟨start, hload, hsize, hm⟩, hfields⟩
    obtain ⟨start', hload', hstart, rfl, -⟩ := hloads limits
    obtain rfl := Except.ok.inj (hload.symm.trans hload')
    rw [hm] at hfields ⊢
    exact (hstart.with hsize start.limits start.steps).invoke_agrees hp hd hk harguments hfields
      tracing
  · obtain ⟨start, hload, hstart, -, hsteps⟩ := hloads {}
    have hsize : (p.staticsOf fields).size = start.statics.size := by
      simp [Program.staticsOf, hstart.statics_size]
    have hstart' := hstart.with hsize start.limits start.steps
    obtain ⟨limits, hpos, hpos', hagrees⟩ := hstart'.exists_limits hp hsteps hd hk harguments
      (hstart'.holds rfl) hr
    refine ⟨limits, hpos, hpos', ?_⟩
    rintro m tracing ⟨⟨loaded, hload', hsize', hm⟩, hfields⟩
    obtain rfl := Except.ok.inj (hload'.symm.trans (Machine.load_with hload limits))
    rw [hm] at hfields ⊢
    have hstatics : m.statics = p.staticsOf fields :=
      (hstart.with hsize' limits start.steps).statics_eq hfields
    rw [hstatics]
    exact hagrees tracing

/-- A program that computes factorials and counts its calls. -/
def factorialSource : Text :=
  Text.ofString ("class F \x7b int t; public int f(int n) \x7b t = t + 1; " ++
    "if (n <= 1) \x7b return 1; \x7d return n * f(n - 1); \x7d \x7d")

set_option maxRecDepth 20000 in
theorem factorialSource_builds : ∃ p f, (Build.ofText factorialSource).result = .ok (p, f) ∧
    p.SlotsFit ∧ p.NamesFit ∧ ∃ id d, p.decl? id = some d ∧ d.kind = .procedure ∧ d.arity = 1 := by
  have hcheck : ((Build.ofText factorialSource).result.toOption.any fun (p, _) =>
      (p.name.length ≤ 0xFFFF && p.decls.toList.all fun d =>
        (p.localsOf d).length ≤ 0xFFFF && (d.name.length ≤ 0xFFFF && d.arity ≤ 65532)) &&
        ((p.decl? 1).any fun d => d.kind == .procedure && d.arity == 1)) = true := by
    rw [factorialSource, Text.ofString_append, Text.ofString_ofList, Text.ofString_ofList]
    cbv
  obtain ⟨⟨p, f⟩, h, hcheck⟩ := exists_of_any hcheck
  simp only [Bool.and_eq_true, List.all_eq_true, Option.any_eq_true, decide_eq_true_eq,
    beq_iff_eq] at hcheck
  obtain ⟨⟨hname, hdecls⟩, d, hd, hprocedure⟩ := hcheck
  have hdecl {id : DeclId} {e : Declaration} (he : p.decl? id = some e) :=
    hdecls e (Array.mem_toList_iff.2 (Array.mem_of_getElem? he))
  exact ⟨p, f, h, fun id e he _ => (hdecl he).1, ⟨hname, fun id e he _ => (hdecl he).2.1,
    fun id e he _ => (hdecl he).2.2⟩, 1, d, hd, hprocedure⟩

theorem Build.implements_factorial : ∃ p f, (Build.ofText factorialSource).result = .ok (p, f) ∧
    ∃ id d, p.decl? id = some d ∧ d.kind = .procedure ∧
      Machine.Implements f p id d [5] (fun _ => 0) := by
  obtain ⟨p, f, h, hslots, -, id, d, hd, hk, harity⟩ := factorialSource_builds
  have harguments : [(5 : Int32)].length = d.arity := harity.symm
  exact ⟨p, f, h, id, d, hd, hk, Build.implements_procedures h hslots hd hk harguments _⟩

/-- The code of an accepted program is type safe: it is for each method, and so no sequence of
requests for what the program declares meets an error in the code. -/
theorem Build.type_safe {text : Text} {p : Program} {f : ClassFile}
    (h : (Build.ofText text).result = .ok (p, f)) (hslots : p.SlotsFit) :
    (∀ member ∈ f.methods, ∃ raw, Machine.loadMethod f member = .ok raw ∧
      Code.TypeSafe f (if raw.type.returnsInt then .int else .void) raw.body.maxStack.toNat
        raw.body.maxLocals.toNat raw.code) ∧
    ∀ limits, ∃ m, Machine.load f limits = .ok m ∧ ∀ tracing requests,
      (∀ request ∈ requests, Request.Declared p request) → ∀ e,
        .error e ∈ (m.performAll tracing requests).2 → Machine.Permitted e := by
  obtain ⟨hp, hfile⟩ := Build.checked h
  obtain ⟨pool, hf⟩ := Program.emitted_of_classFile hp.wellFormed hfile
  refine ⟨fun member hmember => hf.typeSafe hp hslots hmember, fun limits => ?_⟩
  obtain ⟨m, hload, hm, -⟩ := Machine.exists_load hp hslots hf limits
  exact ⟨m, hload, fun tracing requests hrequests e he =>
    hm.permitted_of_mem hp.wellFormed hrequests tracing he⟩

theorem Build.type_safe_factorial : ∃ p f, (Build.ofText factorialSource).result = .ok (p, f) ∧
    p.SlotsFit ∧ ∀ limits, ∃ m, Machine.load f limits = .ok m ∧ ∀ tracing requests,
      (∀ request ∈ requests, Request.Declared p request) → ∀ e,
        .error e ∈ (m.performAll tracing requests).2 → Machine.Permitted e := by
  obtain ⟨p, f, h, hslots, -⟩ := factorialSource_builds
  exact ⟨p, f, h, hslots, (Build.type_safe h hslots).2⟩

/-- The class file of an accepted program is accepted by the verifier and can be loaded.  It has
bytes if and only if the names of the program fit, and then it is read back from them. -/
theorem Build.serialisable {text : Text} {p : Program} {f : ClassFile}
    (h : (Build.ofText text).result = .ok (p, f)) (hslots : p.SlotsFit) :
    f.verify = .ok () ∧ (∀ limits, ∃ m, Machine.load f limits = .ok m) ∧
    ((∃ bytes, f.encode = .ok bytes) ↔ p.NamesFit) ∧
    ∀ bytes, f.encode = .ok bytes → ClassFile.decode bytes = .ok f := by
  obtain ⟨hp, hfile⟩ := Build.checked h
  obtain ⟨pool, hf⟩ := Program.emitted_of_classFile hp.wellFormed hfile
  refine ⟨hf.verify_eq_ok hp hslots, fun limits => ?_, hf.exists_encode_iff hp.wellFormed,
    fun bytes hbytes => ClassFile.decode_encode (hf.regular hp hslots) hbytes⟩
  obtain ⟨m, hload, -⟩ := Machine.exists_load hp hslots hf limits
  exact ⟨m, hload⟩

theorem Build.serialisable_factorial : ∃ p f, (Build.ofText factorialSource).result = .ok (p, f) ∧
    f.verify = .ok () ∧ ∃ bytes, f.encode = .ok bytes ∧ ClassFile.decode bytes = .ok f := by
  obtain ⟨p, f, h, hslots, hnames, -⟩ := factorialSource_builds
  obtain ⟨hverify, -, hiff, hdecode⟩ := Build.serialisable h hslots
  obtain ⟨bytes, hbytes⟩ := hiff.2 hnames
  exact ⟨p, f, h, hverify, bytes, hbytes, hdecode bytes hbytes⟩

end Classwright
