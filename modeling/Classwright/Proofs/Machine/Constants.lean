import Classwright.Proofs.Emit.References
import Classwright.Proofs.Machine.Bounded

/-!
# Constants at run time

The field of a constant keeps its value whatever is asked of a machine
(`Build.constants_immutable`).  Where a method stores into such a field, it has just pushed the value
that the field has (`Method.Repeats`): procedures do not store into constants at all, and the
constructor stores the declared values.  This is a fact about each operation by itself, which one
step keeps (`RunContext.Asks.keeps`) and so a whole call does (`RunContext.Performs.keeps`).
-/

namespace Classwright

/-! ### Fields that keep their values -/

/-- `pinned field v`: the field keeps the value `v`. -/
abbrev Pinning := Nat → Int32 → Prop

/-- The fields have the values they are to keep. -/
def Pinning.Holds (pinned : Pinning) (statics : Array Int32) : Prop :=
  ∀ field v, pinned field v → statics[field]? = some v

/-- A store into a field that keeps its value stands directly behind an operation that pushes this
value, and control comes to it from there only. -/
def Method.Repeats (pinned : Pinning) (m : Method) : Prop :=
  ∀ k field v, m.operations[k]? = some (.putField field) → pinned field v →
    ∃ j, k = j + 1 ∧ m.operations[j]? = some (.push v) ∧
      ∀ j' op, m.operations[j']? = some op → op.LeadsTo j' k → j' = j

/-- In front of a store into a field that keeps its value, this value is on top of the stack. -/
def Frame.Ready (pinned : Pinning) (f : Frame) : Prop :=
  ∀ field v, f.current? = some (.putField field) → pinned field v →
    ∃ below, f.stack.pop? = some (v, below)

/-- A frame that is not in front of a store into a field that keeps its value. -/
def Frame.Aside (pinned : Pinning) (f : Frame) : Prop :=
  ∀ field v, f.current? = some (.putField field) → ¬ pinned field v

/-- Methods that store into fields as these are pinned and call only each other. -/
structure Method.Closed (methods : Array Method) (pinned : Pinning) (good : Method → Prop) :
    Prop where
  /-- They keep the values of pinned fields. -/
  repeats : ∀ m, good m → m.Repeats pinned
  /-- What they call is one of them. -/
  calls : ∀ m, good m → ∀ (k n : Nat) (name : Text) (callee : Method),
    m.operations[k]? = some (.call n name) → methods[n]? = some callee → good callee

/-- An activity of methods that keep the values of pinned fields. -/
def Activity.Keeps (pinned : Pinning) (good : Method → Prop) : Activity → Prop
  | .call method _ => good method
  | .run frame => good frame.method ∧ frame.Ready pinned

theorem Frame.Aside.ready {pinned : Pinning} {f : Frame} (h : f.Aside pinned) : f.Ready pinned :=
  fun field v hop hv => absurd hv (h field v hop)

/-- A frame that is entered is not in front of such a store. -/
theorem Frame.aside_of_enter {pinned : Pinning} {m : Method} (hm : m.Repeats pinned)
    {arguments : List Int32} {f : Frame} (h : Frame.enter m arguments = .ok f) :
    f.Aside pinned := by
  obtain ⟨-, rfl⟩ := Frame.enter_eq_ok.1 h
  intro field v hop hv
  obtain ⟨j, hj, -⟩ := hm 0 field v hop hv
  cases hj

/-- A frame that goes on with a result is in front of the same operation. -/
theorem Frame.Aside.receive {pinned : Pinning} {f g : Frame} (hf : f.Aside pinned) {callee : Method}
    {v : Int32} (h : f.receive callee v = .ok g) : g.Aside pinned := by
  obtain ⟨stack, rfl, -⟩ := Frame.exists_of_receive h
  exact hf

namespace RunContext

variable {c : RunContext} {pinned : Pinning} {good : Method → Prop} {st st' : CallState}
  {f g waiting : Frame} {statics : Array Int32}

/-- A frame that comes to a store into a pinned field has pushed the value of the field. -/
theorem exists_push_of_continues {op : Operation} (hf : f.method.Repeats pinned)
    (hop : f.current? = some op) (h : f.Continues op g) {field : Nat} {v : Int32}
    (hstore : g.current? = some (.putField field)) (hv : pinned field v) : op = .push v := by
  unfold Frame.current? at hstore hop
  rw [h.method_eq] at hstore
  obtain ⟨j, -, hpush, honly⟩ := hf g.next field v hstore hv
  obtain rfl := honly f.next op hop h.leads
  exact Option.some.inj (hop.symm.trans hpush)

/-- **One operation** keeps the values of pinned fields. -/
theorem Asks.keeps (hf : f.method.Repeats pinned) (hready : f.Ready pinned)
    (hst : pinned.Holds st.statics) (h : c.Asks st f (.move statics g)) :
    pinned.Holds statics ∧ g.Ready pinned := by
  obtain ⟨op, hop, -, heffect⟩ := h
  have hsound := Frame.sound_effect c.methods st.statics f op
  rw [heffect] at hsound
  obtain ⟨hstores, hcont⟩ := hsound
  constructor
  · rcases hstores with rfl | ⟨field, v, below, rfl, hpop, rfl⟩
    · exact hst
    · intro field' v' hv'
      rw [Array.getElem?_setIfInBounds]
      split
      · rename_i heq
        -- the value on the stack is the one that the field has
        subst heq
        obtain ⟨below', hpop'⟩ := hready field v' hop hv'
        obtain ⟨rfl, -⟩ := Prod.mk.inj (Option.some.inj (hpop.symm.trans hpop'))
        have hlt := (Array.getElem?_eq_some_iff.1 (hst field v hv')).1
        rw [if_pos hlt]
      · exact hst field' v' hv'
  · intro field v hstore hv
    obtain rfl := exists_push_of_continues hf hop hcont hstore hv
    change f.pushes st.statics f.stack v = _ at heffect
    unfold Frame.pushes at heffect
    split at heffect
    · cases heffect
    · obtain ⟨-, rfl⟩ := Effect.move.inj heffect
      exact ⟨f.stack, rfl⟩

/-- A frame that waits for a call is not in front of a store into a pinned field. -/
theorem Asks.aside (hf : f.method.Repeats pinned) {callee : Method} {arguments : List Int32}
    (h : c.Asks st f (.enter callee arguments waiting)) : waiting.Aside pinned := by
  obtain ⟨op, hop, ⟨n, name, rfl, -⟩, -, hcont⟩ := h.sound
  intro field v hstore hv
  cases exists_push_of_continues hf hop hcont hstore hv

/-- **A call keeps the values of pinned fields**, and so does all that it calls, whether it succeeds
or fails. -/
theorem Performs.keeps (hgood : Method.Closed c.methods pinned good) {a : Activity}
    {r : Except MachineError Int32} (h : c.Performs st a r st') (ha : a.Keeps pinned good)
    (hst : pinned.Holds st.statics) : pinned.Holds st'.statics := by
  induction h with
  | tooDeep | refused | fallsOff | exhausted | fails | leaves => exact hst
  | entered _ hf _ ih =>
    refine ih ⟨?_, (Frame.aside_of_enter (hgood.repeats _ ha) hf).ready⟩ hst
    rw [Frame.method_of_enter hf]
    exact ha
  | moves hask _ ih =>
    obtain ⟨op, -, -, hcont⟩ := hask.sound
    obtain ⟨hmoved, hready⟩ := hask.keeps (hgood.repeats _ ha.1) ha.2 hst
    exact ih ⟨hcont.method_eq ▸ ha.1, hready⟩ hmoved
  | callFails hask _ ih =>
    obtain ⟨op, hop, ⟨n, name, rfl, hcallee⟩, -⟩ := hask.sound
    exact ih (hgood.calls _ ha.1 _ n name _ hop hcallee) hst
  | callOverflows hask _ _ ih =>
    obtain ⟨op, hop, ⟨n, name, rfl, hcallee⟩, -⟩ := hask.sound
    exact ih (hgood.calls _ ha.1 _ n name _ hop hcallee) hst
  | callReturns hask _ hw _ ih ih' =>
    obtain ⟨op, hop, ⟨n, name, rfl, hcallee⟩, -, hcont⟩ := hask.sound
    have hback := ih (hgood.calls _ ha.1 _ n name _ hop hcallee) hst
    have haside := hask.aside (hgood.repeats _ ha.1)
    refine ih' ⟨?_, (haside.receive hw).ready⟩ hback
    rw [Frame.method_of_receive hw, hcont.method_eq]
    exact ha.1

end RunContext

/-! ### Constants of a program -/

namespace Program

/-- The fields of constants keep the declared values. -/
def pinning (p : Program) : Pinning := fun field v =>
  ∃ d, p.fieldDecls[field]? = some d ∧ d.kind = .constant ∧ d.value = v

/-- A field is found under the name of its declaration only. -/
theorem WellFormed.fieldDecls_of_name {p : Program} (hp : p.WellFormed) {d : Declaration}
    (hd : d ∈ p.fieldDecls) {n : Nat} (hn : p.fieldNames[n]? = some d.name) :
    p.fieldDecls[n]? = some d := by
  obtain ⟨k, hk⟩ := List.mem_iff_getElem?.1 hd
  have hname : p.fieldNames[k]? = some d.name := by
    rw [fieldNames, List.getElem?_map, hk]
    rfl
  have hlt : k < p.fieldNames.length := (List.getElem?_eq_some_iff.1 hname).1
  obtain rfl := (List.getElem?_inj hlt hp.nodup_fieldNames).1 (hname.trans hn.symm)
  exact hk

end Program

namespace LinkContext

/-- A store into a field comes from an instruction with a reference to the field. -/
theorem field_of_operation {c : LinkContext} {m : RawMethod} {starts : Std.HashMap Nat Nat}
    {pc n : Nat} {i : Instruction} (h : c.operation m starts pc i = .putField n) :
    i.op = .putStatic ∧ c.field i.operand.toNat = .ok n := by
  unfold operation at h
  cases hop : i.op with
  | putStatic =>
    simp only [hop] at h
    cases hr : c.field i.operand.toNat with
    | error e =>
      rw [hr] at h
      cases h
    | ok k =>
      rw [hr] at h
      obtain rfl := Operation.putField.inj h
      exact ⟨rfl, rfl⟩
  | ldc | ldcW | getStatic | invokeSpecial | invokeStatic =>
    simp only [hop, orFail] at h
    split at h <;> cases h
  | ireturn | vreturn =>
    simp only [hop] at h
    split at h <;> cases h
  | _ =>
    simp only [hop] at h
    cases h

end LinkContext

section Methods

variable {m : Machine} {p : Program} {pool : PoolBuilder} {f : ClassFile} {raw : RawMethod}

/-- The field of a variable is that of no constant. -/
theorem Machine.Represents.ne_of_pinning (hp : p.WellFormed) (hm : m.Represents p pool f) {id : DeclId}
    (hid : id ∈ p.members) {d : Declaration} (hd : p.decl? id = some d) (hvar : d.kind = .var)
    {n field : Nat} (hn : m.fieldIndex[d.name]? = some n) {v : Int32} (hv : p.pinning field v) :
    n ≠ field := by
  rintro rfl
  obtain ⟨e, he, hconstant, -⟩ := hv
  obtain ⟨d', hd', htable⟩ := hp.mem_members.1 hid
  obtain rfl := Option.some.inj (hd'.symm.trans hd)
  have hfound := hp.fieldDecls_of_name
    (hp.mem_fieldDecls.2 ⟨id, hd, htable, by simp [Declaration.isValue, hvar]⟩)
    ((hm.fieldIndex_iff _ _).1 hn)
  obtain rfl := Option.some.inj (hfound.symm.trans he)
  cases hvar.symm.trans hconstant

/-- **Procedures do not store into constants**: what they write is a variable. -/
theorem MethodFor.repeats (hp : p.WellFormed) (hm : m.Represents p pool f) {d : Declaration}
    (hraw : MethodFor p pool d raw) : ((m.linkContext p f).link raw).Repeats p.pinning := by
  intro k field v hstore hv
  exfalso
  obtain ⟨pre, i, post, hcode, -, hop⟩ := LinkContext.exists_of_operations hstore
  obtain ⟨hput, hfield⟩ := LinkContext.field_of_operation hop.symm
  obtain ⟨name, descriptor, hparts, hindex⟩ := LinkContext.field_eq_ok.1 hfield
  obtain ⟨statements, body, hlayout, hbody⟩ := hraw.layout
  -- the store is among the uses of the pool that go in parallel with the statements
  have hlinked : (EmitContext.ofProcedure p pool d).Linked f :=
    ⟨hm.emitted.complete, hm.emitted.pool_eq⟩
  have htail : f.poolUses (EmitContext.tail d) = [] := by
    unfold EmitContext.tail
    cases d.body.completes <;> cases d.type <;> rfl
  have huses : f.poolUses raw.code = p.resolved (p.statementsPoolUses statements) := by
    rw [hbody, ClassFile.poolUses_append, htail, List.append_nil]
    exact hlayout.code.poolUses_eq hp hlinked
  have huse : f.poolUse? i = some (.ok (.write (p.name, name, descriptor))) := by
    have hmember : LinkContext.memberRef f i.operand.toNat .fieldRef =
        .ok (p.name, name, descriptor) := hparts
    simp only [ClassFile.poolUse?, hput, hmember, Except.map]
  have hmem : (.ok (.write (p.name, name, descriptor)) : Except MachineError _) ∈
      p.resolved (p.statementsPoolUses statements) := by
    rw [← huses, hcode]
    exact List.mem_filterMap.2 ⟨i, by simp, huse⟩
  obtain ⟨use, hmem, heq⟩ := List.mem_map.1 hmem
  have hdeclared : use.Declared p := hlayout.code.declared hp use hmem
  cases use with
  | write id =>
    obtain ⟨e, he, htable, hvar⟩ := hdeclared
    have hsymbol : p.symbol id = (p.name, name, descriptor) :=
      PoolUse.write.inj (Except.ok.inj heq)
    simp only [Program.symbol, he, Prod.mk.injEq] at hsymbol
    obtain ⟨-, rfl, -⟩ := hsymbol
    exact hm.ne_of_pinning hp (hp.mem_members.2 ⟨e, he, htable⟩) he hvar hindex hv rfl
  | number | read | call | construct => cases Except.ok.inj heq

/-- An instruction of the stores of constants pushes a number, or it stores the value of a constant
directly behind the instruction that pushes it. -/
theorem EmitContext.StoresCode.split {c : EmitContext} {ids : List DeclId} {code : Code}
    (h : c.StoresCode ids code) {pre post : Code} {i : Instruction}
    (hcode : code = pre ++ i :: post) :
    (∃ v place, c.push v place = .ok i) ∨ ∃ id ∈ ids, ∃ d index pre' j,
      c.program.decl? id = some d ∧ d.kind = .constant ∧ c.push d.value d.position = .ok j ∧
        c.pool.refs[id]? = some index ∧ pre = pre' ++ [j] ∧
        i = { op := .putStatic, operand := index.toNat } := by
  induction h generalizing pre with
  | nil => simp at hcode
  | @cons id d rest j index code hd hk hj hr _ ih =>
    match pre with
    | [] =>
      obtain ⟨rfl, -⟩ := List.cons.inj hcode
      exact Or.inl ⟨_, _, hj⟩
    | [x] =>
      obtain ⟨rfl, hrest⟩ := List.cons.inj hcode
      obtain ⟨rfl, -⟩ := List.cons.inj hrest
      exact Or.inr ⟨id, List.mem_cons_self, d, index, [], _, hd, hk, hj, hr, rfl, rfl⟩
    | x :: y :: pre =>
      obtain ⟨rfl, hrest⟩ := List.cons.inj hcode
      obtain ⟨rfl, hrest'⟩ := List.cons.inj hrest
      rcases ih hrest' with hpush | ⟨id', hid, d', index', pre', j', hd', hk', hj', hr', rfl, hi⟩
      · exact Or.inl hpush
      · exact Or.inr ⟨id', List.mem_cons_of_mem _ hid, d', index', _ :: _ :: pre', j', hd', hk',
          hj', hr', rfl, hi⟩

/-- What an operation with the number `k` of a constructor can be: it pushes, calls the constructor of
the extended class, returns, or stores a constant directly behind the push of its value. -/
inductive Operation.OfConstructor (p : Program) (operations : Array Operation) (k : Nat) :
    Operation → Prop
  | push (v : Int32) : OfConstructor p operations k (.push v)
  | callSuper : OfConstructor p operations k .callSuper
  | returnNothing : OfConstructor p operations k .returnNothing
  | store {d : Declaration} {field j : Nat} (hd : p.fieldDecls[field]? = some d)
      (hk : d.kind = .constant) (hj : k = j + 1) (hpush : operations[j]? = some (.push d.value)) :
      OfConstructor p operations k (.putField field)

/-- A store of a constant behind the push of its value is an operation that a constructor can have. -/
theorem ofConstructor_store (hp : p.WellFormed) (hm : m.Represents p pool f) {id : DeclId}
    (hid : id ∈ p.constants) {d : Declaration} (hd : p.decl? id = some d) (hk : d.kind = .constant)
    {front rest : Code} {j : Instruction} (hcode : raw.code = front ++ j :: rest)
    (hpush : EmitContext.push { program := p, pool } d.value d.position = .ok j) {index : UInt16}
    (hr : pool.refs[id]? = some index) :
    ((m.outerCall p f raw).operation (front ++ [j])
      { op := .putStatic, operand := index.toNat }).OfConstructor p
        ((m.linkContext p f).link raw).operations (front ++ [j]).length := by
  obtain ⟨d', hd', htable⟩ := hp.mem_members.1 (List.mem_filter.1 hid).1
  obtain rfl := Option.some.inj (hd'.symm.trans hd)
  have hvalue : d'.isValue = true := by simp [Declaration.isValue, hk]
  obtain ⟨n, hn, -, hput⟩ := Activation.operation_of_field hp hm (a := m.outerCall p f raw) rfl hd
    hvalue htable hr (front ++ [j])
  have hfield := hp.fieldDecls_of_name (hp.mem_fieldDecls.2 ⟨id, hd, htable, hvalue⟩) hn
  have hbefore := Activation.getElem?_operations (a := m.outerCall p f raw) hcode
  rw [Activation.operation_of_push hm rfl rfl hpush] at hbefore
  rw [hput]
  exact .store hfield hk (by simp) hbefore

/-- The operations of the constructor. -/
theorem InitFor.ofConstructor (hp : p.WellFormed) (hm : m.Represents p pool f)
    (hraw : InitFor p pool raw) {k : Nat} {op : Operation}
    (hop : ((m.linkContext p f).link raw).operations[k]? = some op) :
    op.OfConstructor p ((m.linkContext p f).link raw).operations k := by
  obtain ⟨pre, i, post, hcode, rfl, hlinked⟩ := LinkContext.exists_of_operations hop
  have hlinked : op = (m.outerCall p f raw).operation pre i := hlinked
  obtain ⟨stores, hstores, hinit⟩ := hraw.code_eq
  have hsplit : EmitContext.initCode pool stores = pre ++ i :: post := hinit.symm.trans hcode
  rw [hlinked]
  -- `this` and the call come first, then the stores, and the return is the last
  match pre with
  | [] =>
    obtain ⟨rfl, -⟩ := List.cons.inj hsplit
    exact .push 0
  | [x] =>
    obtain ⟨-, hrest⟩ := List.cons.inj hsplit
    obtain ⟨rfl, -⟩ := List.cons.inj hrest
    rw [operation_superInit hm rfl]
    exact .callSuper
  | x :: y :: pre =>
    obtain ⟨-, hrest⟩ := List.cons.inj hsplit
    obtain ⟨-, hbehind⟩ := List.cons.inj hrest
    have hbehind : stores ++ [{ op := .vreturn }] = pre ++ i :: post := hbehind
    rcases List.eq_nil_or_concat' post with rfl | ⟨post, last, rfl⟩
    · obtain ⟨-, hlast⟩ := List.append_inj' hbehind rfl
      obtain ⟨rfl, -⟩ := List.cons.inj hlast
      have hreturn : (m.outerCall p f raw).operation (x :: y :: pre) { op := .vreturn } =
          .returnNothing := by
        simp [Activation.operation, LinkContext.operation, Machine.outerCall, hraw.type_eq]
      rw [hreturn]
      exact .returnNothing
    -- the instruction is in the stores: one that pushes a value, or one that stores it
    · rw [← List.cons_append, ← List.append_assoc] at hbehind
      obtain ⟨hcut, -⟩ := List.append_inj' hbehind rfl
      rcases hstores.split hcut with ⟨v, place, hpush⟩ | ⟨id, hid, d, index, pre', j, hd, hk, hpush,
        hr, rfl, rfl⟩
      · rw [Activation.operation_of_push hm rfl rfl hpush]
        exact .push v
      · have hbefore : raw.code = (x :: y :: pre') ++ j :: _ :=
          hcode.trans (List.append_assoc (x :: y :: pre') [j] _)
        exact ofConstructor_store hp hm hid hd hk hbefore hpush hr

/-- The constructor stores the values of constants, so it keeps the values of fields among which
those of constants have their own. -/
theorem InitFor.repeats (hp : p.WellFormed) (hm : m.Represents p pool f)
    (hraw : InitFor p pool raw) {pinned : Pinning}
    (hpinned : ∀ field d v, p.fieldDecls[field]? = some d → d.kind = .constant → pinned field v →
      v = d.value) : ((m.linkContext p f).link raw).Repeats pinned := by
  intro k field v hstore hv
  cases hraw.ofConstructor hp hm hstore with
  | @store d field j hd hk hj hpush =>
    obtain rfl := hpinned field d v hd hk hv
    refine ⟨j, hj, hpush, fun j' op hop hleads => ?_⟩
    -- control goes on behind each operation of a constructor
    cases hraw.ofConstructor hp hm hop with
    | push | callSuper | store =>
      change k = j' + 1 at hleads
      omega
    | returnNothing => exact hleads.elim

end Methods

namespace Machine

variable {m : Machine} {p : Program} {pool : PoolBuilder} {f : ClassFile}

/-- There is a method for each procedure, and the constructor. -/
theorem size_methods_of_load (hf : p.Emitted pool f) {limits : Limits}
    (h : load f limits = .ok m) : m.methods.size = p.procedureDecls.length + 1 := by
  obtain ⟨methods, constructor, hmethods, hprocedures, -⟩ := hf.methods
  obtain ⟨className, fields, raws, -, -, hraws, rfl⟩ := load_eq_ok.1 h
  rw [List.size_toArray, List.length_map, ← (mapM_eq_ok.1 hraws).length_eq, hmethods,
    List.length_append, hprocedures.length_eq, List.length_singleton]

/-- A method of a machine is that of a procedure or the constructor. -/
theorem Represents.method_cases (hm : m.Represents p pool f)
    (hsize : m.methods.size = p.procedureDecls.length + 1) {method : Method}
    (h : method ∈ m.methods) : ∃ raw, method = (m.linkContext p f).link raw ∧
      ((∃ d, MethodFor p pool d raw) ∨ InitFor p pool raw) := by
  obtain ⟨n, hlt, rfl⟩ := Array.getElem_of_mem h
  rcases Nat.lt_or_ge n p.procedureDecls.length with hn | hn
  · obtain ⟨raw, hraw, hget⟩ := hm.procedure n _ (List.getElem?_eq_getElem hn)
    rw [Array.getElem?_eq_getElem hlt] at hget
    exact ⟨raw, Option.some.inj hget, Or.inl ⟨_, hraw⟩⟩
  · obtain rfl : n = p.procedureDecls.length := by omega
    obtain ⟨raw, hraw, hget⟩ := hm.constructor
    rw [Array.getElem?_eq_getElem hlt] at hget
    exact ⟨raw, Option.some.inj hget, Or.inr hraw⟩

/-- No method stores anything but the declared value into a constant. -/
theorem Represents.closed (hp : p.WellFormed) (hm : m.Represents p pool f)
    (hsize : m.methods.size = p.procedureDecls.length + 1) :
    Method.Closed m.methods p.pinning (· ∈ m.methods) where
  repeats method hmethod := by
    obtain ⟨raw, rfl, ⟨d, hraw⟩ | hraw⟩ := hm.method_cases hsize hmethod
    · exact hraw.repeats hp hm
    · refine hraw.repeats hp hm fun field d v hd _ hv => ?_
      obtain ⟨d', hd', -, rfl⟩ := hv
      rw [Option.some.inj (hd'.symm.trans hd)]
  calls _ _ _ _ _ _ _ hcallee := Array.mem_of_getElem? hcallee

/-- The constructor by itself stores nothing but the declared values. -/
theorem Represents.closed_constructor (hp : p.WellFormed) (hm : m.Represents p pool f)
    {raw : RawMethod} (hraw : InitFor p pool raw) {pinned : Pinning}
    (hpinned : ∀ field d v, p.fieldDecls[field]? = some d → d.kind = .constant → pinned field v →
      v = d.value) :
    Method.Closed m.methods pinned (· = (m.linkContext p f).link raw) where
  repeats := by
    rintro _ rfl
    exact hraw.repeats hp hm hpinned
  calls := by
    rintro _ rfl k n name callee hop
    cases hraw.ofConstructor hp hm hop

/-- **Constructing an object changes no field** while constants have their values. -/
theorem Represents.statics_construct (hp : p.WellFormed) (hm : m.Represents p pool f)
    (hdepth : 0 < m.limits.maxDepth) (hconstants : p.pinning.Holds m.statics) (tracing : Bool) :
    (m.construct tracing).1.statics = m.statics := by
  obtain ⟨raw, hraw, hfind⟩ := hm.exists_constructor
  have hcall : m.construct tracing =
      m.callMethod tracing ((m.linkContext p f).link raw) [0] := by
    simp only [construct, hfind]
  -- all fields are to keep the values that they have
  have hclosed : Method.Closed m.methods (fun field v => m.statics[field]? = some v)
      (· = (m.linkContext p f).link raw) :=
    hm.closed_constructor hp hraw fun field d v hd hk hv =>
      Option.some.inj (hv.symm.trans (hconstants field d.value ⟨d, hd, hk, rfl⟩))
  have hperforms := performs_callMethod hdepth tracing ((m.linkContext p f).link raw) [0]
  have hself : (Activity.call ((m.linkContext p f).link raw) [0]).Keeps
      (fun field v => m.statics[field]? = some v) (· = (m.linkContext p f).link raw) := rfl
  have hkeeps := hperforms.keeps hclosed hself fun _ _ hv => hv
  have hsize := (m.counts_callMethod tracing ((m.linkContext p f).link raw) [0]).size_eq
  rw [hcall]
  refine Array.ext hsize fun n _ hn => ?_
  have hget := hkeeps n m.statics[n] (Array.getElem?_eq_getElem hn)
  exact (Array.getElem?_eq_some_iff.1 hget).2

end Machine

/-- A request that gives no value to a constant from outside. -/
def Request.SparesConstants (p : Program) : Request → Prop
  | setStatic name _ => ∃ id ∈ p.members, ∃ d, p.decl? id = some d ∧ d.kind = .var ∧ d.name = name
  | construct | invoke _ _ => True

namespace Machine

variable {m : Machine} {p : Program} {pool : PoolBuilder} {f : ClassFile}

/-- A machine that has loaded a program and in which constants have their values. -/
structure Constant (p : Program) (pool : PoolBuilder) (f : ClassFile) (m : Machine) : Prop where
  /-- It represents the program. -/
  represents : m.Represents p pool f
  /-- It has the methods of the program only. -/
  size_eq : m.methods.size = p.procedureDecls.length + 1
  /-- A call may be in progress. -/
  maxDepth_pos : 0 < m.limits.maxDepth
  /-- Constants have their values. -/
  holds : p.pinning.Holds m.statics

/-- **One request** leaves constants as they are. -/
theorem Constant.respond (hp : p.WellFormed) (hm : m.Constant p pool f) {request : Request}
    (h : request.SparesConstants p) (tracing : Bool) :
    (m.respond tracing request).1.Constant p pool f := by
  have hcounts := m.counts_respond tracing request
  have hholds : p.pinning.Holds (m.respond tracing request).1.statics := by
    rcases m.respond_cases tracing request with
      ⟨name, value, rfl⟩ | hmissing | ⟨method, hmethod, arguments, hrespond⟩
    · obtain ⟨id, hid, d, hd, hvar, rfl⟩ := h
      simp only [Machine.respond, setStatic]
      cases hn : m.fieldIndex[d.name]? with
      | none => exact hm.holds
      | some n =>
        intro field v hv
        rw [Array.getElem?_setIfInBounds_ne (hm.represents.ne_of_pinning hp hid hd hvar hn hv)]
        exact hm.holds field v hv
    · rw [hmissing]
      exact hm.holds
    · have hperforms := performs_callMethod hm.maxDepth_pos tracing method arguments
      rw [hrespond]
      exact hperforms.keeps (hm.represents.closed hp hm.size_eq) hmethod hm.holds
  rw [hcounts.eq_with]
  exact ⟨hm.represents.with hcounts.size_eq _ _, hm.size_eq, hm.maxDepth_pos, hholds⟩

theorem Constant.respondAll (hp : p.WellFormed) (hm : m.Constant p pool f) {requests : List Request}
    (h : ∀ request ∈ requests, request.SparesConstants p) (tracing : Bool) :
    (m.respondAll tracing requests).1.Constant p pool f := by
  induction requests generalizing m with
  | nil => exact hm
  | cons request rest ih =>
    rw [List.forall_mem_cons] at h
    exact ih (hm.respond hp h.1 tracing) h.2

/-- A constant has its declared value. -/
theorem Constant.static?_eq (hp : p.WellFormed) (hm : m.Constant p pool f) {id : DeclId}
    (hid : id ∈ p.constants) {d : Declaration} (hd : p.decl? id = some d) :
    m.static? d.name = some d.value := by
  obtain ⟨hmember, hkind⟩ := List.mem_filter.1 hid
  obtain ⟨d', hd', htable⟩ := hp.mem_members.1 hmember
  obtain rfl := Option.some.inj (hd'.symm.trans hd)
  have hk : d'.kind = .constant := by simpa [Program.hasKind, hd] using hkind
  have hmem := hp.mem_fieldDecls.2 ⟨id, hd, htable, by simp [Declaration.isValue, hk]⟩
  obtain ⟨n, hn⟩ := List.mem_iff_getElem?.1 hmem
  have hname : p.fieldNames[n]? = some d'.name := by
    rw [Program.fieldNames, List.getElem?_map, hn]
    rfl
  rw [hm.represents.static?_eq hname]
  exact hm.holds n d'.value ⟨d', hn, hk, rfl⟩

/-- The fields of a machine are the constants and variables of the class. -/
theorem Represents.exists_static?_iff (hp : p.WellFormed) (hm : m.Represents p pool f)
    {name : Text} : (∃ v, m.static? name = some v) ↔
      ∃ id ∈ p.members, ∃ d, p.decl? id = some d ∧ d.isValue = true ∧ d.name = name := by
  constructor
  · rintro ⟨v, hv⟩
    obtain ⟨n, hn, -⟩ := Option.bind_eq_some_iff.1 hv
    obtain ⟨d, hd, rfl⟩ := List.mem_map.1 (List.mem_of_getElem? ((hm.fieldIndex_iff _ _).1 hn))
    obtain ⟨id, hid, htable, hvalue⟩ := hp.mem_fieldDecls.1 hd
    exact ⟨id, hp.mem_members.2 ⟨d, hid, htable⟩, d, hid, hvalue, rfl⟩
  · rintro ⟨id, hmember, d, hd, hvalue, rfl⟩
    obtain ⟨d', hd', htable⟩ := hp.mem_members.1 hmember
    obtain rfl := Option.some.inj (hd'.symm.trans hd)
    have hmem : d'.name ∈ p.fieldNames :=
      List.mem_map.2 ⟨d', hp.mem_fieldDecls.2 ⟨id, hd, htable, hvalue⟩, rfl⟩
    obtain ⟨n, hn⟩ := List.mem_iff_getElem?.1 hmem
    have hlt : n < m.statics.size := hm.statics_size ▸ (List.getElem?_eq_some_iff.1 hn).1
    exact ⟨m.statics[n], (hm.static?_eq hn).trans (Array.getElem?_eq_getElem hlt)⟩

/-- Constructing an object changes the value of no field. -/
theorem Constant.static?_construct (hp : p.WellFormed) (hm : m.Constant p pool f) (tracing : Bool)
    (name : Text) : (m.respond tracing .construct).1.static? name = m.static? name := by
  have hstatics := hm.represents.statics_construct hp hm.maxDepth_pos hm.holds tracing
  have hcounts := m.counts_respond tracing .construct
  rw [hcounts.eq_with]
  change (m.fieldIndex[name]?.bind fun n => (m.construct tracing).1.statics[n]?) = _
  rw [hstatics]
  rfl

end Machine

/-- **Constants are immutable at run time**: whatever is asked of a machine that has loaded the class
file of an accepted program, as long as only variables are given values from outside, each constant
has its declared value, the fields are the constants and variables of the class, and constructing an
object changes no field. -/
theorem Build.constants_immutable {text : Text} {p : Program} {f : ClassFile}
    (h : (Build.ofText text).result = .ok (p, f)) (hslots : p.SlotsFit) (maxSteps maxDepth : Int) :
    ∃ m, Machine.load f (.ofNumbers maxSteps maxDepth) = .ok m ∧ ∀ tracing requests,
      (∀ request ∈ requests, Request.SparesConstants p request) →
        ∀ now, (m.respondAll tracing requests).1 = now →
          (∀ id ∈ p.constants, ∀ d, p.decl? id = some d → now.static? d.name = some d.value) ∧
          (∀ name, (∃ v, now.static? name = some v) ↔
            ∃ id ∈ p.members, ∃ d, p.decl? id = some d ∧ d.isValue = true ∧ d.name = name) ∧
          ∀ name, (now.respond tracing .construct).1.static? name = now.static? name := by
  obtain ⟨hp, hfile⟩ := Build.checked h
  obtain ⟨pool, hf⟩ := Program.emitted_of_classFile hp.wellFormed hfile
  obtain ⟨m, hload, hm, hlimits, -, hstatics⟩ :=
    Machine.exists_load hp hslots hf (.ofNumbers maxSteps maxDepth)
  have hstart : m.Constant p pool f := by
    refine ⟨hm, ?_, hlimits ▸ Limits.ofNumbers_pos maxSteps maxDepth, ?_⟩
    · exact Machine.size_methods_of_load hf hload
    · rintro field v ⟨d, hd, hk, rfl⟩
      rw [hstatics, List.getElem?_toArray, List.getElem?_map, hd, Option.map_some,
        Declaration.initialValue, if_pos hk]
  refine ⟨m, hload, fun tracing requests hrequests now hnow => ?_⟩
  have hnow : now.Constant p pool f := hnow ▸ hstart.respondAll hp.wellFormed hrequests tracing
  exact ⟨fun id hid d hd => hnow.static?_eq hp.wellFormed hid hd,
    fun name => hnow.represents.exists_static?_iff hp.wellFormed,
    fun name => hnow.static?_construct hp.wellFormed tracing name⟩

/-- A program with a constant that a parameter shadows. -/
def shadowedSource : Text :=
  Text.ofString ("class K \x7b final int c = 100000; int v; " ++
    "public int f(int c) \x7b c = c + 1; v = c; return c; \x7d \x7d")

set_option maxRecDepth 20000 in
theorem shadowedSource_builds : ∃ p f, (Build.ofText shadowedSource).result = .ok (p, f) ∧
    p.SlotsFit ∧ (∃ id ∈ p.constants, ∃ d, p.decl? id = some d ∧ d.name = Text.ofString "c" ∧
      d.value = 100000) ∧
    ∃ id ∈ p.members, ∃ d, p.decl? id = some d ∧ d.kind = .var ∧ d.name = Text.ofString "v" := by
  have hcheck : ((Build.ofText shadowedSource).result.toOption.any fun (p, _) =>
      (p.decls.toList.all fun d => (p.localsOf d).length ≤ 0xFFFF) &&
        (p.constants.any fun id => (p.decl? id).any fun d =>
          d.name == Text.ofString "c" && d.value == 100000) &&
        p.members.any fun id => (p.decl? id).any fun d =>
          d.kind == .var && d.name == Text.ofString "v") = true := by
    rw [shadowedSource, Text.ofString_append, Text.ofString_ofList, Text.ofString_ofList]
    cbv
  obtain ⟨⟨p, f⟩, h, hcheck⟩ := exists_of_any hcheck
  simp only [Bool.and_eq_true, List.all_eq_true, List.any_eq_true, Option.any_eq_true,
    decide_eq_true_eq, beq_iff_eq] at hcheck
  obtain ⟨⟨hdecls, hconstant⟩, hvar⟩ := hcheck
  exact ⟨p, f, h, fun id d hd _ => hdecls d (Array.mem_toList_iff.2 (Array.mem_of_getElem? hd)),
    hconstant, hvar⟩

/-- The constant keeps its value although a call assigns to the parameter of the same name. -/
theorem Build.constants_immutable_shadowed : ∃ p f,
    (Build.ofText shadowedSource).result = .ok (p, f) ∧ p.SlotsFit ∧
      ∃ m, Machine.load f (.ofNumbers 20 0) = .ok m ∧ ∀ arguments,
        (m.respondAll true [.invoke (Text.ofString "f") arguments, .construct,
          .setStatic (Text.ofString "v") 5, .invoke (Text.ofString "f") [1]]).1.static?
            (Text.ofString "c") = some 100000 := by
  obtain ⟨p, f, h, hslots, ⟨id, hid, d, hd, hname, hvalue⟩, hvar⟩ := shadowedSource_builds
  obtain ⟨m, hload, hall⟩ := Build.constants_immutable h hslots 20 0
  refine ⟨p, f, h, hslots, m, hload, fun arguments => ?_⟩
  have hspares : ∀ request ∈ [Request.invoke (Text.ofString "f") arguments, .construct,
      .setStatic (Text.ofString "v") 5, .invoke (Text.ofString "f") [1]],
      Request.SparesConstants p request := by
    simpa [Request.SparesConstants] using hvar
  obtain ⟨hconstants, -⟩ := hall true _ hspares _ rfl
  rw [← hname, ← hvalue]
  exact hconstants id hid d hd

end Classwright
