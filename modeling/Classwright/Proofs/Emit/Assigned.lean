import Classwright.Proofs.Bytecode.Marks
import Classwright.Proofs.Emit.Slots
import Classwright.Proofs.Tree.Nodes
import Mathlib.Data.Set.Basic

/-!
# Slots that are assigned in emitted code

The check for definite assignment says which local variables are assigned in front of each
statement.  Emitted code can be marked with the slots of these variables and of the parameters, so
that control comes to an instruction only when the slots of its mark have been written, and every
load is from a slot of its mark (`StatementsCode.withMarks`, `EmitContext.Layout.withMarks`).
-/

namespace Classwright

/-! ### Reads in trees -/

namespace Program

variable {p : Program} {assigned : AssignedSet}

/-- No local variable that a tree reads may be unassigned. -/
def ReadsAssigned (p : Program) (assigned : AssignedSet) (node : Node) : Prop :=
  ∀ n ∈ node.nodes, p.unassignedRead? assigned n = none

theorem readsAssigned_of_checkReads {node : Node} (h : p.checkReads assigned node = .ok ()) :
    p.ReadsAssigned assigned node := by
  unfold checkReads at h
  split at h
  · cases h
  · rename_i hnone
    exact List.findSome?_eq_none_iff.1 hnone

theorem ReadsAssigned.binary {op : Operator} {left right : Node} {place : Position}
    (h : p.ReadsAssigned assigned (.binary op left right place)) :
    p.ReadsAssigned assigned left ∧ p.ReadsAssigned assigned right := by
  unfold ReadsAssigned at h
  rw [Node.nodes_binary, List.forall_mem_cons, List.forall_mem_append] at h
  exact h.2

theorem ReadsAssigned.argument {callee : Text} {arguments : List Node} {link : Option DeclId}
    {place : Position} (h : p.ReadsAssigned assigned (.call callee arguments link place)) :
    ∀ e ∈ arguments, p.ReadsAssigned assigned e := by
  intro e he n hn
  refine h n ?_
  rw [Node.nodes_call, List.mem_cons, List.mem_flatMap]
  exact Or.inr ⟨e, he, hn⟩

theorem ReadsAssigned.value {value : Node} {place : Position}
    (h : p.ReadsAssigned assigned (.exit value place)) : p.ReadsAssigned assigned value := by
  intro n hn
  refine h n ?_
  rw [Node.nodes_exit]
  exact List.mem_cons_of_mem _ hn

theorem ReadsAssigned.name {x : Text} {id : DeclId} {place : Position}
    (h : p.ReadsAssigned assigned (.name x (some id) place)) :
    p.isLocalVariable id = false ∨ id ∈ assigned := by
  have hread := h (.name x (some id) place) (List.mem_singleton_self _)
  by_contra hnot
  simp only [not_or, Bool.not_eq_false, ← Std.HashSet.contains_iff_mem] at hnot
  simp [unassignedRead?, hnot] at hread

end Program

/-! ### The flow of assigned slots -/

/-- The slots that are assigned along code: only assigned slots are read, and a slot that is assigned
behind an instruction was so in front of it or is written by it. -/
def slotFlow : Dataflow (Set Nat) where
  Allows i known := ∀ slot, i.slotUse? = some (.load slot) → slot ∈ known
  Carries i known behind := ∀ slot ∈ behind, slot ∈ known ∨ i.slotUse? = some (.store slot)

theorem slotFlow_allows {i : Instruction} (h : i.slotUse? = none) (known : Set Nat) :
    slotFlow.Allows i known := by
  intro slot hslot
  rw [h] at hslot
  cases hslot

theorem slotFlow_carries {known behind : Set Nat} (h : behind ⊆ known) (i : Instruction) :
    slotFlow.Carries i known behind :=
  fun _ hslot => Or.inl (h hslot)

section Pieces

variable {known : Set Nat}

/-- An instruction that uses no slot. -/
theorem withMarks_of_slotUse?_eq_none {i : Instruction}
    (hs : ∀ pc : Nat, i.successors pc = [(pc : Int) + i.size]) (hi : i.slotUse? = none) :
    WithMarks slotFlow (· ⊆ known) (StartsWith (· ⊆ known)) [i] :=
  .single hs (Set.Subset.refl known) (slotFlow_allows hi known)
    fun _ hsub => slotFlow_carries hsub i

theorem withMarks_loadSlot {n : Nat} (h : n ∈ known) :
    WithMarks slotFlow (· ⊆ known) (StartsWith (· ⊆ known)) [loadSlot n] := by
  have hallows : slotFlow.Allows (loadSlot n) known := by
    intro slot hslot
    rw [slotUse?_loadSlot] at hslot
    cases hslot
    exact h
  exact .single (successors_loadSlot n) (Set.Subset.refl known) hallows
    fun _ hsub => slotFlow_carries hsub _

theorem withMarks_storeSlot (n : Nat) :
    WithMarks slotFlow (· ⊆ known) (StartsWith (· ⊆ insert n known)) [storeSlot n] := by
  have hallows : slotFlow.Allows (storeSlot n) known := by
    intro slot hslot
    rw [slotUse?_storeSlot] at hslot
    cases hslot
  refine .single (successors_storeSlot n) (Set.Subset.refl known) hallows
    fun behind hsub slot hslot => ?_
  rcases hsub hslot with rfl | hslot
  · exact Or.inr (slotUse?_storeSlot slot)
  · exact Or.inl hslot

theorem withMarks_return {op : Opcode} (h : op = .ireturn ∨ op = .vreturn) :
    WithMarks slotFlow (· ⊆ known) (fun _ => True) [{ op }] := by
  rcases h with rfl | rfl <;>
    exact .leave (fun _ => rfl) (Set.Subset.refl known) (slotFlow_allows rfl known)

/-- Operators use no slots. -/
theorem withMarks_operatorCode? {op : Operator} {code : Code} (h : operatorCode? op = some code) :
    WithMarks slotFlow (· ⊆ known) (StartsWith (· ⊆ known)) code := by
  have hsame (i : Instruction) : slotFlow.Carries i known known :=
    slotFlow_carries (Set.Subset.refl known) i
  have hcompare (op : Opcode) (hop : op.isTest = true) :
      WithMarks slotFlow (· ⊆ known) (StartsWith (· ⊆ known)) (comparisonCode op) := by
    have huse : ({ op, operand := 7 } : Instruction).slotUse? = none := by
      cases op <;> first | rfl | simp [Opcode.isTest] at hop
    exact .compare hop (Set.Subset.refl known) (slotFlow_allows huse known) (hsame _)
      (slotFlow_allows rfl known) (hsame _) (slotFlow_allows rfl known) (slotFlow_allows rfl known)
      (fun _ hsub => slotFlow_carries hsub _) (fun _ hsub => slotFlow_carries hsub _)
  cases op <;> simp only [operatorCode?, Option.some.injEq, reduceCtorEq] at h <;> subst h
  all_goals first
    | exact hcompare _ rfl
    | exact withMarks_of_slotUse?_eq_none (fun _ => rfl) rfl

end Pieces

/-! ### Trees -/

/-- The slots of parameters and of local variables that are assigned. -/
def EmitContext.assignedSlots (c : EmitContext) (assigned : AssignedSet) : Set Nat :=
  {n | ∃ id, c.slots[id]? = some n ∧ (c.program.isLocalVariable id = false ∨ id ∈ assigned)}

section Trees

variable {c : EmitContext} {assigned : AssignedSet}

mutual

/-- An expression whose reads are checked reads assigned slots only. -/
theorem ExpressionCode.withMarks {e : Node} {code : Code} (h : ExpressionCode c e code)
    (hreads : c.program.ReadsAssigned assigned e) :
    WithMarks slotFlow (· ⊆ c.assignedSlots assigned)
      (StartsWith (· ⊆ c.assignedSlots assigned)) code := by
  cases h with
  | literal hi | constant _ _ hi =>
    exact withMarks_of_slotUse?_eq_none (c.flow_of_push (f := default) hi).1 (slotUse?_of_push hi)
  | slot _ _ _ hn => exact withMarks_loadSlot ⟨_, hn, hreads.name⟩
  | field => exact withMarks_of_slotUse?_eq_none (fun _ => rfl) rfl
  | call _ _ _ _ ha =>
    exact (ha.withMarks hreads.argument).append
      (withMarks_of_slotUse?_eq_none (fun _ => rfl) rfl) (fun _ h => h)
  | binary hop hl _ hr =>
    exact (hl.withMarks hreads.binary.1).append ((hr.withMarks hreads.binary.2).append
      (withMarks_operatorCode? hop) (fun _ h => h)) (fun _ h => h)

/-- So do arguments. -/
theorem ArgumentsCode.withMarks {es : List Node} {code : Code} (h : ArgumentsCode c es code)
    (hreads : ∀ e ∈ es, c.program.ReadsAssigned assigned e) :
    WithMarks slotFlow (· ⊆ c.assignedSlots assigned)
      (StartsWith (· ⊆ c.assignedSlots assigned)) code := by
  cases h with
  | nil => exact .nil
  | cons he _ hr =>
    rw [List.forall_mem_cons] at hreads
    exact (he.withMarks hreads.1).append (hr.withMarks hreads.2) (fun _ h => h)

end

/-- What an assignment adds is the slot that it writes. -/
theorem EmitContext.assignedSlots_insert {id : DeclId} {n : Nat} (hn : c.slots[id]? = some n) :
    c.assignedSlots (assigned.insert id) ⊆ insert n (c.assignedSlots assigned) := by
  rintro slot ⟨other, hslot, hother⟩
  by_cases hid : id = other
  · subst hid
    exact Or.inl (Option.some.inj (hslot.symm.trans hn))
  · refine Or.inr ⟨other, hslot, hother.imp_right fun hmem => ?_⟩
    rw [Std.HashSet.mem_insert, beq_iff_eq] at hmem
    exact hmem.resolve_left hid

/-- What has no slot of its own adds nothing. -/
theorem EmitContext.assignedSlots_insert_of_field {id : DeclId}
    (hid : c.program.isLocalVariable id = false) :
    c.assignedSlots (assigned.insert id) ⊆ c.assignedSlots assigned := by
  rintro slot ⟨other, hslot, hother⟩
  by_cases heq : id = other
  · subst heq
    exact ⟨id, hslot, Or.inl hid⟩
  · refine ⟨other, hslot, hother.imp_right fun hmem => ?_⟩
    rw [Std.HashSet.mem_insert, beq_iff_eq] at hmem
    exact hmem.resolve_left heq

theorem EmitContext.assignedSlots_mono {others : AssignedSet}
    (h : ∀ id, id ∈ assigned → id ∈ others) : c.assignedSlots assigned ⊆ c.assignedSlots others := by
  rintro slot ⟨id, hslot, hid⟩
  exact ⟨id, hslot, hid.imp_right (h id)⟩

mutual

/-- Where a statement completes, the slots of what is then assigned have been written. -/
theorem StatementCode.withMarks {d : Declaration} {s : Node} {code : Code}
    (h : StatementCode c d s code) {assigned behind : AssignedSet}
    (hs : c.program.assign assigned s = .ok behind) :
    (∀ id, id ∈ assigned → id ∈ behind) ∧ WithMarks slotFlow (· ⊆ c.assignedSlots assigned)
      (fun post => s.completes = true → StartsWith (· ⊆ c.assignedSlots behind) post) code := by
  cases h with
  | @assignSlot x id e value spot place code n he hk ht hn hvalue hv =>
    simp only [Program.assign, bind_eq_ok, pure_eq_ok] at hs
    obtain ⟨_, hreads, rfl⟩ := hs
    refine ⟨fun id hid => Std.HashSet.mem_insert.2 (Or.inr hid), ?_⟩
    refine (hvalue.withMarks (Program.readsAssigned_of_checkReads hreads)).append
      ((withMarks_storeSlot n).of_exit fun post hpost => ?_) (fun _ h => h)
    exact (hpost rfl).imp fun _ hsub => hsub.trans (c.assignedSlots_insert hn)
  | @assignField x id e value spot place code index he hk ht hr hvalue hv =>
    simp only [Program.assign, bind_eq_ok, pure_eq_ok] at hs
    obtain ⟨_, hreads, rfl⟩ := hs
    refine ⟨fun id hid => Std.HashSet.mem_insert.2 (Or.inr hid), ?_⟩
    have hfield : c.program.isLocalVariable id = false := by
      simp [Program.isLocalVariable, he, ht]
    refine (hvalue.withMarks (Program.readsAssigned_of_checkReads hreads)).append
      ((withMarks_of_slotUse?_eq_none (fun _ => rfl) rfl).of_exit fun post hpost => ?_)
      (fun _ h => h)
    exact (hpost rfl).imp fun _ hsub => hsub.trans (c.assignedSlots_insert_of_field hfield)
  | @call callee arguments link place code hcall =>
    simp only [Program.assign, bind_eq_ok, pure_eq_ok] at hs
    obtain ⟨_, hreads, rfl⟩ := hs
    refine ⟨fun id hid => hid, ?_⟩
    have hmarks := hcall.withMarks (Program.readsAssigned_of_checkReads hreads)
    split
    · exact hmarks.append ((withMarks_of_slotUse?_eq_none (fun _ => rfl) rfl).of_exit
        fun post hpost => hpost rfl) (fun _ h => h)
    · rw [List.append_nil]
      exact hmarks.of_exit fun post hpost => hpost rfl
  | leave =>
    simp only [Program.assign, bind_eq_ok, pure_eq_ok] at hs
    obtain ⟨_, -, rfl⟩ := hs
    exact ⟨fun id hid => hid, (withMarks_return (Or.inr rfl)).of_exit fun _ _ => trivial⟩
  | answer _ hvalue =>
    simp only [Program.assign, bind_eq_ok, pure_eq_ok] at hs
    obtain ⟨_, hreads, rfl⟩ := hs
    have hmarks := hvalue.withMarks (Program.readsAssigned_of_checkReads hreads).value
    exact ⟨fun id hid => hid, hmarks.append
      ((withMarks_return (Or.inl rfl)).of_exit fun _ _ => trivial) (fun _ h => h)⟩
  | @branch condition thens elses _ _ _ _ _ _ hcond _ ht he =>
    simp only [Program.assign, bind_eq_ok, pure_eq_ok] at hs
    obtain ⟨_, hreads, thenAssigned, hthen, elseAssigned, helse, rfl⟩ := hs
    obtain ⟨hsubThen, hmarksThen⟩ := ht.withMarks hthen
    obtain ⟨hsubElse, hmarksElse⟩ := he.withMarks helse
    -- behind the statement is assigned what both blocks assign
    have hmem (id : DeclId) : id ∈ thenAssigned.filter (fun id => elseAssigned.contains id) ↔
        id ∈ thenAssigned ∧ id ∈ elseAssigned := by
      simp [Std.HashSet.mem_filter]
    refine ⟨fun id hid => (hmem id).2 ⟨hsubThen id hid, hsubElse id hid⟩, ?_⟩
    have hthenSub := c.assignedSlots_mono fun id hid => ((hmem id).1 hid).1
    have helseSub := c.assignedSlots_mono fun id hid => ((hmem id).1 hid).2
    have hcondition := (hcond.withMarks (Program.readsAssigned_of_checkReads hreads)).of_entry
      fun _ hsub => slotFlow_carries hsub { op := .iconst1 }
    simp only [Node.completes]
    refine .select (Set.Subset.refl _) (slotFlow_allows rfl _)
      (hcondition.of_exit fun post hpost => hpost.imp fun _ heq => heq.subset)
      (fun _ => slotFlow_allows rfl _) (fun _ _ hsub => slotFlow_carries hsub _)
      (hmarksThen.of_exit fun post hpost hthens => ?_)
      (hmarksElse.of_exit fun post hpost helses => (hpost helses).imp fun _ heq => heq.subset)
      (fun _ => slotFlow_allows rfl _) (fun _ _ hsub => slotFlow_carries hsub _)
      (fun post hpost helses => ?_)
    · exact (hpost (by rw [hthens, Bool.true_or])).imp fun _ hsub => hsub.trans hthenSub
    · exact (hpost (by rw [helses, Bool.or_true])).imp fun _ hsub => hsub.trans helseSub
  | loop hcond _ hb =>
    simp only [Program.assign, bind_eq_ok, pure_eq_ok] at hs
    obtain ⟨_, hreads, inside, hinside, rfl⟩ := hs
    obtain ⟨hsub, hbody⟩ := hb.withMarks hinside
    refine ⟨fun id hid => hid, ?_⟩
    have hcondition := (hcond.withMarks (Program.readsAssigned_of_checkReads hreads)).of_entry
      fun _ hsub => slotFlow_carries hsub { op := .iconst0 }
    -- what the body assigns is forgotten when control goes back
    refine WithMarks.of_exit (.iterate (Set.Subset.refl _) (slotFlow_allows rfl _)
      (hcondition.of_exit fun post hpost => hpost.imp fun _ heq => heq.subset)
      (fun _ => slotFlow_allows rfl _) (fun _ _ hsub => slotFlow_carries hsub _) hbody
      (fun post hpost _ => ?_) (fun _ => slotFlow_allows rfl _)
      (fun _ => slotFlow_carries (Set.Subset.refl _) _)) (fun post hpost => hpost rfl)
    exact hpost.imp fun _ heq => heq.subset.trans (c.assignedSlots_mono hsub)

/-- So for several statements. -/
theorem StatementsCode.withMarks {d : Declaration} {ss : List Node} {code : Code}
    (h : StatementsCode c d ss code) {assigned behind : AssignedSet}
    (hs : c.program.assignAll assigned ss = .ok behind) :
    (∀ id, id ∈ assigned → id ∈ behind) ∧ WithMarks slotFlow (· ⊆ c.assignedSlots assigned)
      (fun post => Node.allComplete ss = true → StartsWith (· ⊆ c.assignedSlots behind) post)
      code := by
  cases h with
  | nil =>
    rw [Program.assignAll] at hs
    obtain rfl := Except.ok.inj hs
    exact ⟨fun id hid => hid, WithMarks.nil.of_exit fun _ hpost => hpost rfl⟩
  | cons hfirst hreach hr =>
    simp only [Program.assignAll, bind_eq_ok] at hs
    obtain ⟨middle, hmiddle, hs⟩ := hs
    obtain ⟨hsub, hmarks⟩ := hfirst.withMarks hmiddle
    obtain ⟨hsub', hmarks'⟩ := hr.withMarks hs
    refine ⟨fun id hid => hsub' id (hsub id hid), ?_⟩
    rcases hreach with hcompletes | rfl
    · refine hmarks.append (hmarks'.of_exit fun post hpost hall => hpost ?_) (fun _ h _ => h)
      rw [Node.allComplete, hcompletes, hall, Bool.true_and]
    · -- nothing follows a statement that does not complete
      cases hr with
      | nil =>
        rw [Program.assignAll] at hs
        obtain rfl := Except.ok.inj hs
        rw [List.append_nil]
        refine hmarks.of_exit fun post hpost hcompletes => hpost ?_
        rw [Node.allComplete, hcompletes, Node.allComplete, Bool.and_true]

end

end Trees

/-! ### Methods -/

namespace EmitContext

variable {p : Program} {pool : PoolBuilder} {d : Declaration}

/-- What is assigned where a procedure starts are the slots of its parameters. -/
theorem assignedSlots_params (hp : p.WellFormed) {id : DeclId} (hd : p.decl? id = some d)
    (hk : d.kind = .procedure) :
    (ofProcedure p pool d).assignedSlots (Std.HashSet.ofList (d.params.filterMap fun x => x)) ⊆
      {slot | slot < d.arity} := by
  obtain ⟨t, params, vars, ht⟩ := hp.procedure id d hd hk
  have hlocals := ht.localsOf_eq
  have hnodup := nodup_localsOf hp d
  have harity : d.arity = params.length := by rw [Declaration.arity, ht.params_eq, List.length_map]
  rintro slot ⟨x, hslot, hx⟩
  rw [ofProcedure, getElem?_slotsOf hnodup, hlocals] at hslot
  show slot < d.arity
  rw [harity]
  by_contra hge
  -- a slot behind those of the parameters is that of a variable, which starts unassigned
  rw [List.getElem?_append_right (Nat.le_of_not_lt hge)] at hslot
  have hvar : x ∈ vars := List.mem_of_getElem? hslot
  rcases hx with hx | hx
  · have hmember : x ∈ p.membersOf t := ht.members_eq ▸ List.mem_append_right params hvar
    obtain ⟨e, he, htable⟩ := (hp.tidy.mem_membersOf t x).1 hmember
    have hkind := ht.vars_kind x hvar
    have hpos : t ≠ Program.classTable := Nat.ne_of_gt ht.pos
    simp only [Program.hasKind, he, beq_iff_eq] at hkind
    simp [ofProcedure, Program.isLocalVariable, he, hkind, htable, hpos] at hx
  · rw [Std.HashSet.mem_ofList, List.contains_iff_mem, ht.params_eq, List.filterMap_map] at hx
    have hparam : x ∈ params := by simpa using hx
    rw [hlocals, List.nodup_append] at hnodup
    exact hnodup.2.2 x hparam x hvar rfl

/-- The code of a procedure reads slots only when they are assigned. -/
theorem Layout.withMarks (hp : p.Checked) {id : DeclId} (hd : p.decl? id = some d)
    (hk : d.kind = .procedure) {statements : List Node} {body : Code}
    (h : Layout p pool d statements body) :
    WithMarks slotFlow (· ⊆ {slot | slot < d.arity}) (fun _ => True) (body ++ tail d) := by
  have hanalyzed := hp.analyzed id d hd hk
  simp only [Program.analyzeProcedure, Program.checkAssigned, bind_eq_ok, pure_eq_ok] at hanalyzed
  obtain ⟨_, -, _, -, _, -, behind, hassign, -⟩ := hanalyzed
  obtain ⟨place, hbody⟩ := h.body_eq
  rw [hbody, Program.assign] at hassign
  obtain ⟨-, hmarks⟩ := h.code.withMarks hassign
  have hentry := hmarks.of_entry fun _ hsub => hsub.trans (assignedSlots_params hp.wellFormed hd hk)
  rw [← h.completes_eq] at hentry
  cases hcompletes : d.body.completes with
  | false =>
    rw [tail_eq_nil hcompletes, List.append_nil]
    exact hentry.of_exit fun _ _ hc => absurd hc (by simp [hcompletes])
  | true =>
    cases htype : d.type with
    | void =>
      rw [tail_of_void hcompletes htype]
      exact hentry.append (withMarks_return (Or.inr rfl)) fun _ hpost _ => hpost
    | int =>
      rw [tail_of_int hcompletes htype]
      exact hentry.append ((withMarks_of_slotUse?_eq_none (fun _ => rfl) rfl).append
        (withMarks_return (Or.inl rfl)) fun _ hpost => hpost) fun _ hpost _ => hpost

theorem StoresCode.withMarks {c : EmitContext} {ids : List DeclId} {code : Code}
    (h : StoresCode c ids code) (known : Set Nat) :
    WithMarks slotFlow (· ⊆ known) (StartsWith (· ⊆ known)) code := by
  induction h with
  | nil => exact .nil
  | cons _ _ hi _ _ ih =>
    have hpush : WithMarks slotFlow (· ⊆ known) (StartsWith (· ⊆ known)) [_] :=
      withMarks_of_slotUse?_eq_none (flow_of_push (f := default) hi).1 (slotUse?_of_push hi)
    exact hpush.append ((withMarks_of_slotUse?_eq_none (fun _ => rfl) rfl).append ih
      fun _ hpost => hpost) fun _ hpost => hpost

/-- The constructor reads no slots. -/
theorem StoresCode.withMarks_initCode {c : EmitContext} {ids : List DeclId} {stores : Code}
    (h : StoresCode c ids stores) (known : Set Nat) :
    WithMarks slotFlow (· ⊆ known) (fun _ => True) (initCode pool stores) := by
  have hreceive : WithMarks slotFlow (· ⊆ known) (StartsWith (· ⊆ known)) [{ op := .aload0 }] :=
    withMarks_of_slotUse?_eq_none (fun _ => rfl) rfl
  have hsuper : WithMarks slotFlow (· ⊆ known) (StartsWith (· ⊆ known))
      [{ op := .invokeSpecial, operand := pool.superInit.toNat }] :=
    withMarks_of_slotUse?_eq_none (fun _ => rfl) rfl
  exact hreceive.append (hsuper.append ((h.withMarks known).append (withMarks_return (Or.inr rfl))
    fun _ hpost => hpost) fun _ hpost => hpost) fun _ hpost => hpost

end EmitContext

end Classwright
