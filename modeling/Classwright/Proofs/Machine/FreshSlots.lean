import Classwright.Proofs.Emit.Assigned
import Classwright.Proofs.Machine.Filling
import Mathlib

/-!
# Compiled programs cannot see what new slots hold

The methods of an accepted program read a slot only when it is assigned
(`Program.Emitted.assigned`).  So a machine answers every sequence of requests in the same way
whatever the slots behind the arguments of a new frame hold (`Build.unaffected_by_filling`).
-/

namespace Classwright

/-! ### Linked methods -/

namespace LinkContext

variable {c : LinkContext} {m : RawMethod} {starts : Std.HashMap Nat Nat} {pc slot : Nat}
  {i : Instruction}

theorem orFail_ne_load {α : Type} {r : Except MachineError α} {f : α → Operation}
    (hf : ∀ a, f a ≠ .load slot) : orFail r f ≠ .load slot := by
  cases r with
  | error e => simp [orFail]
  | ok a => exact hf a

/-- An operation that reads a slot is that of an instruction that does. -/
theorem slotUse?_of_operation_eq_load (h : c.operation m starts pc i = .load slot) :
    i.slotUse? = some (.load slot) := by
  unfold operation at h
  unfold Instruction.slotUse?
  cases hop : i.op with
  | iload | iload0 | iload1 | iload2 | iload3 =>
    simp only [hop] at h ⊢
    rw [Operation.load.inj h]
  | ldc | ldcW | getStatic | putStatic | invokeSpecial | invokeStatic =>
    simp only [hop] at h
    exact absurd h (orFail_ne_load (by simp))
  | ireturn | vreturn =>
    simp only [hop] at h
    split at h <;> cases h
  | _ =>
    simp only [hop] at h
    cases h

/-- An instruction that writes a slot becomes an operation that does. -/
theorem operation_of_slotUse?_eq_store (h : i.slotUse? = some (.store slot)) :
    c.operation m starts pc i = .store slot := by
  unfold Instruction.slotUse? at h
  unfold operation
  cases hop : i.op with
  | istore | istore0 | istore1 | istore2 | istore3 =>
    simp only [hop, Option.some.injEq, SlotUse.store.injEq] at h ⊢
    rw [h]
  | _ =>
    simp only [hop] at h
    cases h

/-- An operation of a linked method is that of an instruction with a mark. -/
theorem exists_marked_of_operations {marks : Marked (Set Nat)} (hcode : marks.code = m.code)
    {k : Nat} {op : Operation} (hop : (c.link m).operations[k]? = some op) :
    ∃ (before : Marked (Set Nat)) (i : Instruction) (known : Set Nat)
      (behind : Marked (Set Nat)), marks = before ++ (i, known) :: behind ∧ before.length = k ∧
        op = c.operation m (startsOf (Code.locate 0 m.code)) before.code.size i := by
  obtain ⟨pre, i, post, hsplit, rfl, hop⟩ := exists_of_operations hop
  rw [← hcode] at hsplit
  obtain ⟨before, rest, rfl, rfl, hrest⟩ := List.map_eq_append_iff.1 hsplit
  obtain ⟨⟨i, known⟩, behind, rfl, rfl, -⟩ := List.map_eq_cons_iff.1 hrest
  exact ⟨before, i, known, behind, rfl, (List.length_map _).symm, hop⟩

/-- A method whose instructions are marked assigns slots before it reads them. -/
theorem exists_assigns {marks : Marked (Set Nat)} (hcode : marks.code = m.code)
    (hstart : StartsWith (· ⊆ {slot | slot < m.type.params}) marks)
    (hmarks : EachIn (MarkedAt slotFlow) [] marks []) : ∃ known, (c.link m).Assigns known := by
  refine ⟨fun k => {slot | ∃ x, marks[k]? = some x ∧ slot ∈ x.2}, ?_, ?_, ?_⟩
  · rintro slot ⟨x, hx, hslot⟩
    obtain ⟨i, known, rest, rfl, hsub⟩ := hstart
    obtain rfl := Option.some.inj hx
    exact hsub hslot
  · intro k slot hop
    obtain ⟨before, i, known, behind, rfl, rfl, hload⟩ := exists_marked_of_operations hcode hop
    have hat := hmarks before i known behind rfl
    refine ⟨(i, known), by simp, ?_⟩
    exact hat.allows slot (slotUse?_of_operation_eq_load hload.symm)
  · rintro k op next slot hop hleads ⟨x, hx, hslot⟩
    obtain ⟨before, i, known, behind, rfl, rfl, rfl⟩ := exists_marked_of_operations hcode hop
    have hat := hmarks before i known behind rfl
    rw [List.nil_append, List.append_nil] at hat
    rw [Marked.code_append, Marked.code_cons] at hcode
    have hlength : before.code.length = before.length := List.length_map _
    -- control goes to a successor of the instruction, which the marks say how to find
    obtain ⟨pre, post, hpre, rfl, hsucc⟩ := exists_successor hcode.symm (hlength ▸ hleads)
    obtain ⟨pre', post', hsplit, hsize, j, behind', rest, rfl, hcarries⟩ := hat.flow _ hsucc
    have hsame : pre ++ post = pre'.code ++ Marked.code ((j, behind') :: rest) := by
      rw [← hpre, ← hcode, ← Marked.code_append, ← hsplit, Marked.code_append, Marked.code_cons]
    have hnext : pre.length = pre'.length := by
      rw [Code.length_eq_of_size hsame (Int.ofNat_inj.1 hsize), Marked.code, List.length_map]
    rw [hsplit, hnext, List.getElem?_append_right (Nat.le_refl _), Nat.sub_self] at hx
    obtain rfl := Option.some.inj hx
    rcases hcarries slot hslot with hknown | hstore
    · exact Or.inl ⟨(i, known), by simp, hknown⟩
    · exact Or.inr (operation_of_slotUse?_eq_store hstore)

end LinkContext

/-! ### Loaded programs -/

namespace Program

variable {p : Program} {pool : PoolBuilder} {f : ClassFile}

/-- A method that is loaded is that of a procedure or the constructor. -/
theorem Emitted.methodFor_or_initFor (hp : p.Checked) (hslots : p.SlotsFit) (hf : p.Emitted pool f)
    {m : Member} (hm : m ∈ f.methods) {raw : RawMethod} (hload : Machine.loadMethod f m = .ok raw) :
    (∃ id d, p.decl? id = some d ∧ d.kind = .procedure ∧ MethodFor p pool d raw) ∨
      InitFor p pool raw := by
  obtain ⟨methods, constructor, hmethods, hprocedures, code, hcode, hinit⟩ := hf.methods
  rw [hmethods, List.mem_append, List.mem_singleton] at hm
  rcases hm with hm | rfl
  · obtain ⟨d, hd, code, hcode, hmethod⟩ := exists_of_forall₂ hprocedures hm
    obtain ⟨id, hid, hk⟩ := hp.wellFormed.mem_procedureDecls.1 hd
    obtain ⟨raw', hload', hraw⟩ := Machine.loadMethod_of_procedureCode hp hslots hid hk hcode
      (hf.pool_eq ▸ hmethod)
    obtain rfl := Except.ok.inj (hload'.symm.trans hload)
    exact Or.inl ⟨id, d, hid, hk, hraw⟩
  · obtain ⟨raw', hload', hraw⟩ := Machine.loadMethod_of_constructorCode hcode (hf.pool_eq ▸ hinit)
    obtain rfl := Except.ok.inj (hload'.symm.trans hload)
    exact Or.inr hraw

theorem Emitted.exists_assigns (hp : p.Checked) (hslots : p.SlotsFit) (hf : p.Emitted pool f)
    {m : Member} (hm : m ∈ f.methods) {raw : RawMethod} (hload : Machine.loadMethod f m = .ok raw)
    (c : LinkContext) : ∃ known, (c.link raw).Assigns known := by
  rcases hf.methodFor_or_initFor hp hslots hm hload with ⟨id, d, hd, hk, hraw⟩ | hraw
  · obtain ⟨statements, body, hlayout, hcode⟩ := hraw.layout
    have hparams : raw.type.params = d.arity := by rw [hraw.type_eq]
    obtain ⟨marks, hmarks, hstart, heach⟩ := (hlayout.withMarks hp hd hk).closed
    rw [← hparams] at hstart
    exact LinkContext.exists_assigns (hmarks.trans hcode.symm) hstart heach
  · obtain ⟨stores, hstores, hcode⟩ := hraw.code_eq
    obtain ⟨marks, hmarks, hstart, heach⟩ := (hstores.withMarks_initCode _).closed
    exact LinkContext.exists_assigns (hmarks.trans hcode.symm) hstart heach

/-- The methods of a loaded program assign slots before they read them. -/
theorem Emitted.assigned (hp : p.Checked) (hslots : p.SlotsFit) (hf : p.Emitted pool f)
    {limits : Limits} {m : Machine} (h : Machine.load f limits = .ok m) : m.Assigned := by
  obtain ⟨className, fields, raws, -, -, hraws, rfl⟩ := Machine.load_eq_ok.1 h
  -- every loaded method comes from a member of the class file
  have hmember (n : Nat) (raw : RawMethod) (hn : raws[n]? = some raw) :
      ∃ member ∈ f.methods, Machine.loadMethod f member = .ok raw :=
    exists_of_forall₂ (mapM_eq_ok.1 hraws) (List.mem_of_getElem? hn)
  constructor
  · intro n method hmethod
    rw [List.getElem?_toArray, List.getElem?_map, Option.map_eq_some_iff] at hmethod
    obtain ⟨raw, hraw, rfl⟩ := hmethod
    obtain ⟨member, hmem, hload⟩ := hmember n raw hraw
    exact hf.exists_assigns hp hslots hmem hload _
  · intro name arity result n method hn hmethod
    obtain ⟨raw, hraw, hkey⟩ := Machine.exists_of_indexMethods hn
    rw [List.getElem?_toArray, List.getElem?_map, hraw] at hmethod
    obtain rfl := Option.some.inj hmethod
    obtain ⟨member, hmem, hload⟩ := hmember n raw hraw
    show raw.type.params ≤ arity
    rcases hf.methodFor_or_initFor hp hslots hmem hload with ⟨id, d, hd, hk, hfor⟩ | hinit
    · rw [hfor.name_eq, hfor.descriptor_eq] at hkey
      obtain ⟨-, harity, -⟩ := hp.wellFormed.key_inj hd hk hkey
      rw [hfor.type_eq]
      exact Nat.le_of_eq harity
    · rw [hinit.type_eq]
      exact Nat.zero_le arity

end Program

/-- No sequence of requests to an accepted program can tell what the slots behind the arguments of
new frames hold: the answers, the traces, the values of the fields and the number of operations are
the same as with 0 in them. -/
theorem Build.unaffected_by_filling {text : Text} {p : Program} {f : ClassFile}
    (h : (Build.ofText text).result = .ok (p, f)) (hslots : p.SlotsFit) (limits : Limits) :
    ∃ m, Machine.load f limits = .ok m ∧ ∀ tracing (requests : List (Request × Filling)),
      m.respondAllFilled tracing requests = m.respondAll tracing (requests.map Prod.fst) := by
  obtain ⟨hp, hfile⟩ := Build.checked h
  obtain ⟨pool, hf⟩ := Program.emitted_of_classFile hp.wellFormed hfile
  obtain ⟨m, hload, -⟩ := Machine.exists_load hp hslots hf limits
  exact ⟨m, hload, fun tracing requests =>
    (hf.assigned hp hslots hload).respondAllFilled_eq tracing requests⟩

/-- A program with a variable that is assigned and read in a loop only. -/
def evenSource : Text :=
  Text.ofString ("class E \x7b public int e(int a) \x7b int r; int s; r = 0; " ++
    "while (r < a) \x7b s = r; r = s + 2; \x7d return r; \x7d \x7d")

set_option maxRecDepth 20000 in
theorem evenSource_builds : ∃ p f, (Build.ofText evenSource).result = .ok (p, f) ∧
    p.SlotsFit := by
  have hcheck : ((Build.ofText evenSource).result.toOption.any fun (p, _) =>
      p.decls.toList.all fun d => (p.localsOf d).length ≤ 0xFFFF) = true := by
    rw [evenSource, Text.ofString_append, Text.ofString_ofList, Text.ofString_ofList]
    cbv
  obtain ⟨⟨p, f⟩, h, hcheck⟩ := exists_of_any hcheck
  simp only [List.all_eq_true, decide_eq_true_eq] at hcheck
  refine ⟨p, f, h, fun id d hd _ => ?_⟩
  exact hcheck d (Array.mem_toList_iff.2 (Array.mem_of_getElem? hd))

theorem Build.unaffected_by_filling_even : ∃ p f,
    (Build.ofText evenSource).result = .ok (p, f) ∧ p.SlotsFit ∧
      ∃ m, Machine.load f {} = .ok m ∧ ∀ tracing (requests : List (Request × Filling)),
        m.respondAllFilled tracing requests = m.respondAll tracing (requests.map Prod.fst) := by
  obtain ⟨p, f, h, hslots⟩ := evenSource_builds
  exact ⟨p, f, h, hslots, Build.unaffected_by_filling h hslots {}⟩

end Classwright
