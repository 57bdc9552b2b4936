import Classwright.Proofs.Bytecode.Flow
import Classwright.Proofs.Machine.Load

/-!
# The stack depth of emitted code

Emitted code has a depth for each of its instructions that every step of control respects, and no
depth is above what is counted for the tree (`ExpressionCode.withDepths`,
`StatementsCode.withDepths`).  An expression leaves one value on top of what it finds, and a
statement finds and leaves an empty stack.
-/

namespace Classwright

open Code

/-- `code` has depths that control respects: it is entered with `depth` values on the stack, `exit`
holds of what follows it, and nowhere are there more than `bound` values. -/
def WithDepths (f : ClassFile) (result : ValueType) (depth : Nat) (exit : Depths → Prop)
    (bound : Nat) (code : Code) : Prop :=
  ∃ depths : Depths, depths.code = code ∧ (∀ x ∈ depths, x.2 ≤ bound) ∧ ∀ pre post, exit post →
    StartsAt depth (depths ++ post) ∧ ClosedIn f result pre depths post

namespace WithDepths

variable {f : ClassFile} {result : ValueType} {depth bound : Nat} {exit : Depths → Prop}
  {code : Code}

theorem nil : WithDepths f result depth (StartsAt depth) bound [] :=
  ⟨[], rfl, by simp, fun _ _ h => ⟨h, closedIn_nil⟩⟩

theorem mono {bound' : Nat} (h : WithDepths f result depth exit bound code) (hb : bound ≤ bound') :
    WithDepths f result depth exit bound' code := by
  obtain ⟨depths, hcode, hbound, hflow⟩ := h
  exact ⟨depths, hcode, fun x hx => Nat.le_trans (hbound x hx) hb, hflow⟩

theorem of_exit {exit' : Depths → Prop} (h : WithDepths f result depth exit bound code)
    (hexit : ∀ post, exit' post → exit post) : WithDepths f result depth exit' bound code := by
  obtain ⟨depths, hcode, hbound, hflow⟩ := h
  exact ⟨depths, hcode, hbound, fun pre post hpost => hflow pre post (hexit post hpost)⟩

/-- Code behind code that leaves the depth it expects. -/
theorem append {middle : Nat} {exit' : Depths → Prop} {others : Code}
    (h : WithDepths f result depth exit bound code)
    (h' : WithDepths f result middle exit' bound others)
    (hexit : ∀ post, StartsAt middle post → exit post) :
    WithDepths f result depth exit' bound (code ++ others) := by
  obtain ⟨depths, rfl, hbound, hflow⟩ := h
  obtain ⟨depths', rfl, hbound', hflow'⟩ := h'
  refine ⟨depths ++ depths', Depths.code_append _ _, List.forall_mem_append.2 ⟨hbound, hbound'⟩,
    fun pre post hpost => ?_⟩
  obtain ⟨hstart', hclosed'⟩ := hflow' (pre ++ depths) post hpost
  obtain ⟨hstart, hclosed⟩ := hflow pre (depths' ++ post) (hexit _ hstart')
  rw [List.append_assoc]
  exact ⟨hstart, closedIn_append.2 ⟨hclosed, hclosed'⟩⟩

/-- A single instruction with the next one as its only successor. -/
theorem single {i : Instruction} {taken left : Nat}
    (hs : ∀ pc, i.successors pc = [(pc : Int) + i.size]) (he : i.effect? f = some (taken, left))
    (ht : taken ≤ depth) (hb : depth ≤ bound) :
    WithDepths f result depth (StartsAt (depth - taken + left)) bound [i] := by
  refine ⟨[(i, depth)], rfl, by simpa using hb, fun pre post hpost => ⟨⟨i, post, rfl⟩, ?_⟩⟩
  exact closedIn_cons.2 ⟨closedAt_next hs he ht hpost, closedIn_nil⟩

/-- An instruction that pushes a value. -/
theorem push {i : Instruction} (hs : ∀ pc, i.successors pc = [(pc : Int) + i.size])
    (he : i.effect? f = some (0, 1)) (hb : depth ≤ bound) :
    WithDepths f result depth (StartsAt (depth + 1)) bound [i] :=
  single hs he (Nat.zero_le _) hb

/-- An instruction that takes the only value from the stack. -/
theorem take {i : Instruction} (hs : ∀ pc, i.successors pc = [(pc : Int) + i.size])
    (he : i.effect? f = some (1, 0)) (hb : 1 ≤ bound) :
    WithDepths f result 1 (StartsAt 0) bound [i] :=
  single hs he (Nat.le_refl 1) hb

/-- A return. -/
theorem leave {op : Opcode}
    (h : op = .ireturn ∧ result = .int ∧ depth = 1 ∨ op = .vreturn ∧ result = .void ∧ depth = 0)
    (hb : depth ≤ bound) : WithDepths f result depth (fun _ => True) bound [{ op }] :=
  ⟨[({ op }, depth)], rfl, by simpa using hb, fun _ post _ =>
    ⟨⟨_, post, rfl⟩, closedIn_cons.2 ⟨closedAt_return h, closedIn_nil⟩⟩⟩

end WithDepths

/-! ### Instructions -/

section Instructions

variable {f : ClassFile}

theorem successors_loadSlot (n pc : Nat) :
    (loadSlot n).successors pc = [(pc : Int) + (loadSlot n).size] := by
  match n with
  | 0 | 1 | 2 | 3 => rfl
  | n + 4 => rfl

theorem effect?_loadSlot (n : Nat) : (loadSlot n).effect? f = some (0, 1) := by
  match n with
  | 0 | 1 | 2 | 3 => rfl
  | n + 4 => rfl

theorem successors_storeSlot (n pc : Nat) :
    (storeSlot n).successors pc = [(pc : Int) + (storeSlot n).size] := by
  match n with
  | 0 | 1 | 2 | 3 => rfl
  | n + 4 => rfl

theorem effect?_storeSlot (n : Nat) : (storeSlot n).effect? f = some (1, 0) := by
  match n with
  | 0 | 1 | 2 | 3 => rfl
  | n + 4 => rfl

theorem EmitContext.successors_of_push {c : EmitContext} {v : Int32} {place : Position}
    {i : Instruction} (h : c.push v place = .ok i) (pc : Nat) :
    i.successors pc = [(pc : Int) + i.size] := by
  rcases push_eq_ok h with ⟨-, rfl⟩ | ⟨-, rfl⟩ | ⟨index, -, ⟨-, rfl⟩ | rfl⟩ <;> rfl

theorem EmitContext.flow_of_push {c : EmitContext} {v : Int32} {place : Position}
    {i : Instruction} (h : c.push v place = .ok i) :
    (∀ pc : Nat, i.successors pc = [(pc : Int) + i.size]) ∧ i.effect? f = some (0, 1) := by
  refine ⟨successors_of_push h, ?_⟩
  rcases push_eq_ok h with ⟨-, rfl⟩ | ⟨-, rfl⟩ | ⟨index, -, ⟨-, rfl⟩ | rfl⟩ <;> rfl

end Instructions

/-- An operator takes two values and leaves one. -/
theorem withDepths_operatorCode? {f : ClassFile} {result : ValueType} {op : Operator} {code : Code}
    (h : operatorCode? op = some code) (depth : Nat) :
    WithDepths f result (depth + 2) (StartsAt (depth + 1)) (depth + 2) code := by
  have harith (op : Opcode) (hs : ∀ pc : Nat, ({ op } : Instruction).successors pc =
      [(pc : Int) + ({ op } : Instruction).size])
      (he : ({ op } : Instruction).effect? f = some (2, 1)) :
      WithDepths f result (depth + 2) (StartsAt (depth + 1)) (depth + 2) [{ op }] :=
    WithDepths.single hs he (by omega) (Nat.le_refl _)
  have hcompare (op : Opcode) (hop : op.isTest = true) :
      WithDepths f result (depth + 2) (StartsAt (depth + 1)) (depth + 2) (comparisonCode op) := by
    refine ⟨[({ op, operand := 7 }, depth + 2), ({ op := .iconst0 }, depth),
      ({ op := .goto, operand := 4 }, depth + 1), ({ op := .iconst1 }, depth)], rfl, ?_,
      fun pre post hpost => ⟨⟨_, _, rfl⟩, ?_⟩⟩
    · simp only [List.forall_mem_cons]
      exact ⟨Nat.le_refl _, Nat.le_add_right _ _, Nat.le_succ _, Nat.le_add_right _ _, by simp⟩
    · have hsize := Instruction.size_test hop 7
      simp only [closedIn_cons]
      refine ⟨closedAt_branch hop ⟨_, _, rfl⟩ (pre ++ [({ op, operand := 7 }, depth + 2),
          ({ op := .iconst0 }, depth), ({ op := .goto, operand := 4 }, depth + 1)])
          (({ op := .iconst1 }, depth) :: post) (by simp) ?_ ⟨_, _, rfl⟩,
        closedAt_next (fun _ => rfl) rfl (Nat.zero_le _) ⟨_, _, rfl⟩,
        closedAt_goto (pre ++ [({ op, operand := 7 }, depth + 2),
          ({ op := .iconst0 }, depth), ({ op := .goto, operand := 4 }, depth + 1),
          ({ op := .iconst1 }, depth)]) post (by simp) ?_ hpost,
        closedAt_next (fun _ => rfl) rfl (Nat.zero_le _) hpost, closedIn_nil⟩
      · simp only [Depths.code_append, Depths.code_cons, Depths.code_nil, size_append, size_cons,
          hsize, size_nil, Int.natCast_add]
        rfl
      · simp only [Depths.code_append, Depths.code_cons, Depths.code_nil, size_append, size_cons,
          hsize, size_nil, Int.natCast_add]
        rfl
  cases op <;> simp only [operatorCode?, Option.some.injEq, reduceCtorEq] at h <;> subst h
  all_goals first
    | exact hcompare _ rfl
    | exact harith _ (fun _ => rfl) rfl

/-! ### Expressions -/

namespace Program

variable {p : Program}

theorem exprStack_pos {e : Node} (h : p.yieldsValue e = true) : 1 ≤ p.exprStack e := by
  cases e with
  | literal | name => exact Nat.le_refl 1
  | binary _ left right =>
    rw [exprStack]
    omega
  | call _ arguments link =>
    rw [yieldsValue] at h
    rw [exprStack, if_pos h]
    omega
  | _ => simp [yieldsValue] at h

theorem length_le_argumentStack {es : List Node} (h : ∀ e ∈ es, p.yieldsValue e = true)
    (below : Nat) (hne : es ≠ []) : below + es.length ≤ p.argumentStack below es := by
  induction es generalizing below with
  | nil => exact absurd rfl hne
  | cons e es ih =>
    rw [List.forall_mem_cons] at h
    have hfirst := exprStack_pos h.1
    rw [argumentStack, List.length_cons]
    cases es with
    | nil =>
      rw [List.length_nil]
      omega
    | cons e' es =>
      have hrest := ih h.2 (below + 1) (by simp)
      omega

end Program

theorem ArgumentsCode.yieldsValue {c : EmitContext} {es : List Node} {code : Code}
    (h : ArgumentsCode c es code) : ∀ e ∈ es, c.program.yieldsValue e = true := by
  induction es generalizing code with
  | nil => simp
  | cons e es ih =>
    cases h with
    | cons _ hv hr => exact List.forall_mem_cons.2 ⟨hv, ih hr⟩

/-- The effect of each call is known from the class file. -/
def EmitContext.CallsKnown (c : EmitContext) (f : ClassFile) : Prop :=
  ∀ (id : DeclId) (d : Declaration) (index : UInt16), c.program.decl? id = some d →
    d.kind = .procedure → c.pool.refs[id]? = some index →
    ({ op := .invokeStatic, operand := index.toNat } : Instruction).effect? f =
      some (d.arity, if d.type = .int then 1 else 0)

section Trees

variable {c : EmitContext} {f : ClassFile} {result : ValueType}

mutual

/-- An expression leaves its value, if it has one, on top of what it finds. -/
theorem ExpressionCode.withDepths (hc : c.CallsKnown f) {e : Node} {code : Code}
    (h : ExpressionCode c e code) (depth : Nat) :
    WithDepths f result depth (StartsAt (depth + if c.program.yieldsValue e then 1 else 0))
      (depth + c.program.exprStack e) code := by
  cases h with
  | literal hi | constant _ _ hi =>
    obtain ⟨hs, he⟩ := c.flow_of_push (f := f) hi
    exact .push hs he (Nat.le_add_right _ _)
  | slot => exact .push (successors_loadSlot _) (effect?_loadSlot _) (Nat.le_add_right _ _)
  | field => exact .push (fun _ => rfl) rfl (Nat.le_add_right _ _)
  | @call _ arguments id d _ _ _ hd hk hn hr ha =>
    have hargs := ha.withDepths hc depth 0
    -- the arguments need at least one place each
    have hlength : depth + arguments.length ≤
        depth + c.program.exprStack (.call ‹Text› arguments (some id) ‹Position›) := by
      rw [Program.exprStack]
      cases harguments : arguments with
      | nil => exact Nat.add_le_add_left (Nat.zero_le _) _
      | cons e es =>
        have hle := Program.length_le_argumentStack (harguments ▸ ha.yieldsValue) 0 (by simp)
        rw [Nat.zero_add] at hle
        omega
    have hcall := hc id d _ hd hk hr
    rw [hn] at hcall
    have hvalue : c.program.returnsValue (some id) = true ↔ d.type = .int := by
      simp [Program.returnsValue, hd]
    refine (hargs.mono ?_).append ((WithDepths.single (fun _ => rfl) hcall (Nat.le_add_left _ _)
      hlength).of_exit ?_) (fun _ h => h)
    · rw [Program.exprStack]
      omega
    · intro post hpost
      rw [Nat.add_sub_cancel]
      simpa only [Program.yieldsValue, hvalue] using hpost
  | @binary op left right _ _ _ _ hop hl hvl hr hvr =>
    -- the right operand is computed one place higher
    have hleft := hl.withDepths hc depth
    have hright := hr.withDepths hc (depth + 1)
    have hpos := Program.exprStack_pos hvr
    rw [if_pos hvl] at hleft
    rw [if_pos hvr] at hright
    have hbound : c.program.exprStack (.binary op left right ‹Position›) =
        max (c.program.exprStack left) (1 + c.program.exprStack right) := by
      rw [Program.exprStack]
    rw [hbound]
    exact (hleft.mono (by omega)).append ((hright.mono (by omega)).append
      ((withDepths_operatorCode? hop depth).mono (by omega)) (fun _ h => h)) (fun _ h => h)

/-- Arguments leave their values on top of what they find. -/
theorem ArgumentsCode.withDepths (hc : c.CallsKnown f) {es : List Node} {code : Code}
    (h : ArgumentsCode c es code) (depth below : Nat) :
    WithDepths f result (depth + below) (StartsAt (depth + below + es.length))
      (depth + c.program.argumentStack below es) code := by
  cases h with
  | nil => exact .nil
  | @cons e rest _ _ he hv hr =>
    have hfirst := he.withDepths hc (depth + below)
    have hrest := hr.withDepths hc depth (below + 1)
    rw [if_pos hv] at hfirst
    rw [Program.argumentStack]
    refine (hfirst.mono (by omega)).append ((hrest.mono (by omega)).of_exit ?_) (fun _ h => h)
    intro post hpost
    rw [List.length_cons] at hpost
    exact (by omega : depth + below + (rest.length + 1) = depth + (below + 1) + rest.length) ▸ hpost

end

/-! ### Statements -/

/-- An `if` around the code of its parts. -/
theorem WithDepths.select {bound : Nat} {exit : Depths → Prop} {joins : Bool}
    {condCode thenCode elseCode : Code}
    (hc : WithDepths f result 1 (StartsAt 2) bound condCode) (hb : 2 ≤ bound)
    (ht : WithDepths f result 0 exit bound thenCode)
    (he : WithDepths f result 0 (fun post => joins = true → StartsAt 0 post) bound elseCode)
    (hexit : ∀ post, exit post → joins = true → StartsAt 0 post) :
    WithDepths f result 0 exit bound
      (selectCode condCode (elseCode ++ joinCode joins thenCode) thenCode) := by
  obtain ⟨dc, rfl, hbc, hc⟩ := hc
  obtain ⟨dt, rfl, hbt, ht⟩ := ht
  obtain ⟨de, rfl, hbe, he⟩ := he
  -- the jump over the then code, if there is one
  obtain ⟨dj, hdj, hbj, hstartj, hj⟩ : ∃ dj : Depths, dj.code = joinCode joins dt.code ∧
      (∀ x ∈ dj, x.2 ≤ bound) ∧ (∀ post, joins = true → StartsAt 0 (dj ++ post)) ∧
      ∀ pre post, exit post → ClosedIn f result pre dj (dt ++ post) := by
    cases joins with
    | false => exact ⟨[], rfl, by simp, by simp, fun _ _ _ => closedIn_nil⟩
    | true =>
      refine ⟨[(⟨.goto, (dt.code.size + 3 : Nat), false⟩, 0)], rfl, by simp,
        fun post _ => ⟨_, post, rfl⟩, fun pre post hpost => ?_⟩
      refine closedIn_cons.2 ⟨closedAt_goto (pre ++
        (⟨.goto, (dt.code.size + 3 : Nat), false⟩, 0) :: dt) post (by simp) ?_
        (hexit post hpost rfl), closedIn_nil⟩
      simp [Instruction.size, Opcode.size, Opcode.operand, OperandKind.size]
      omega
  refine ⟨(⟨.iconst1, 0, false⟩, 0) :: (dc ++
    ((⟨.ifEq, ((de ++ dj).code.size + 3 : Nat), false⟩, 2) :: ((de ++ dj) ++ dt))), ?_, ?_,
    fun pre post hpost => ⟨⟨_, _, rfl⟩, ?_⟩⟩
  · simp [selectCode, hdj]
  · refine List.forall_mem_cons.2 ⟨Nat.zero_le _, List.forall_mem_append.2 ⟨hbc,
      List.forall_mem_cons.2 ⟨hb, List.forall_mem_append.2
        ⟨List.forall_mem_append.2 ⟨hbe, hbj⟩, hbt⟩⟩⟩⟩
  · have hcond (pre rest : Depths) := hc pre
      ((⟨.ifEq, ((de ++ dj).code.size + 3 : Nat), false⟩, 2) :: rest) ⟨_, _, rfl⟩
    simp only [closedIn_cons, closedIn_append, List.append_assoc, List.cons_append]
    refine ⟨closedAt_next (fun _ => rfl) rfl (Nat.zero_le _) (hcond [] _).1, (hcond _ _).2,
      closedAt_branch rfl (he [] _ (hstartj _)).1 (pre ++ (⟨.iconst1, 0, false⟩, 0) ::
        (dc ++ (⟨.ifEq, ((de ++ dj).code.size + 3 : Nat), false⟩, 2) :: (de ++ dj)))
        (dt ++ post) (by simp) ?_ (ht [] post hpost).1,
      (he _ _ (hstartj _)).2, hj _ _ hpost, (ht _ _ hpost).2⟩
    simp [Instruction.size, Opcode.size, Opcode.operand, OperandKind.size]
    omega

/-- A `while` around the code of its parts. -/
theorem WithDepths.repeat {bound : Nat} {exit : Depths → Prop} {condCode bodyCode : Code}
    (hc : WithDepths f result 1 (StartsAt 2) bound condCode) (hb : 2 ≤ bound)
    (hbody : WithDepths f result 0 exit bound bodyCode)
    (hexit : ∀ post, StartsAt 0 post → exit post) :
    WithDepths f result 0 (StartsAt 0) bound (repeatCode condCode bodyCode) := by
  obtain ⟨dc, rfl, hbc, hc⟩ := hc
  obtain ⟨db, rfl, hbb, hbody⟩ := hbody
  refine ⟨(⟨.iconst0, 0, false⟩, 0) :: (dc ++ ((⟨.ifEq, (db.code.size + 6 : Nat), false⟩, 2) ::
    (db ++ [(⟨.goto, -(db.code.size + 3 + dc.code.size + 1 : Nat), false⟩, 0)]))), ?_, ?_,
    fun pre post hpost => ⟨⟨_, _, rfl⟩, ?_⟩⟩
  · simp [repeatCode]
  · exact List.forall_mem_cons.2 ⟨Nat.zero_le _, List.forall_mem_append.2 ⟨hbc,
      List.forall_mem_cons.2 ⟨hb, List.forall_mem_append.2 ⟨hbb, by simp⟩⟩⟩⟩
  -- the depths of the parts hold wherever these parts stand
  · have hcond (pre rest : Depths) := hc pre
      ((⟨.ifEq, (db.code.size + 6 : Nat), false⟩, 2) :: rest) ⟨_, _, rfl⟩
    have hstart (rest : Depths) : exit
        ((⟨.goto, -(db.code.size + 3 + dc.code.size + 1 : Nat), false⟩, 0) :: rest) :=
      hexit _ ⟨_, _, rfl⟩
    simp only [closedIn_cons, closedIn_append, List.append_assoc, List.cons_append,
      List.nil_append]
    -- the zero, the condition, the branch out of the loop, the body and the jump back
    refine ⟨closedAt_next (fun _ => rfl) rfl (Nat.zero_le _) (hcond [] _).1, (hcond _ _).2,
      closedAt_branch rfl (hbody [] _ (hstart _)).1 (pre ++ (⟨.iconst0, 0, false⟩, 0) ::
        (dc ++ (⟨.ifEq, (db.code.size + 6 : Nat), false⟩, 2) :: (db ++
          [(⟨.goto, -(db.code.size + 3 + dc.code.size + 1 : Nat), false⟩, 0)])))
        post (by simp) ?_ hpost,
      (hbody _ _ (hstart _)).2,
      closedAt_goto pre ((⟨.iconst0, 0, false⟩, 0) ::
        (dc ++ ((⟨.ifEq, (db.code.size + 6 : Nat), false⟩, 2) :: (db ++
          (⟨.goto, -(db.code.size + 3 + dc.code.size + 1 : Nat), false⟩, 0) :: post))))
        (by simp) ?_ ⟨_, _, rfl⟩, closedIn_nil⟩
    · simp [Instruction.size, Opcode.size, Opcode.operand, OperandKind.size]
      omega
    · simp [Instruction.size, Opcode.size, Opcode.operand, OperandKind.size]
      omega

mutual

/-- A statement finds an empty stack, and leaves one if it completes. -/
theorem StatementCode.withDepths (hc : c.CallsKnown f) {d : Declaration} {s : Node} {code : Code}
    (h : StatementCode c d s code) :
    WithDepths f d.type 0 (fun post => s.completes = true → StartsAt 0 post)
      (c.program.stmtStack s) code := by
  cases h with
  | assignSlot _ _ _ _ he hv =>
    -- the value is computed on the empty stack and taken off by the store
    have hvalue : WithDepths f d.type _ _ _ _ := he.withDepths hc 0
    rw [if_pos hv, Nat.zero_add, Nat.zero_add] at hvalue
    refine hvalue.append (.of_exit (.take (successors_storeSlot _) (effect?_storeSlot _)
      (Program.exprStack_pos hv)) ?_) (fun _ h => h)
    exact fun _ h => h rfl
  | assignField _ _ _ _ he hv =>
    have hvalue : WithDepths f d.type _ _ _ _ := he.withDepths hc 0
    rw [if_pos hv, Nat.zero_add, Nat.zero_add] at hvalue
    refine hvalue.append (.of_exit (.take (fun _ => rfl) rfl (Program.exprStack_pos hv)) ?_)
      (fun _ h => h)
    exact fun _ h => h rfl
  | @call callee arguments link place _ he =>
    have hcall : WithDepths f d.type _ _ _ _ := he.withDepths hc 0
    rw [Nat.zero_add, Nat.zero_add] at hcall
    -- an answer that nobody uses is dropped
    cases hv : c.program.returnsValue link with
    | true =>
      have hyields : c.program.yieldsValue (.call callee arguments link place) = true := hv
      rw [if_pos hyields] at hcall
      refine hcall.append (.of_exit (.take (fun _ => rfl) rfl (Program.exprStack_pos hyields)) ?_)
        (fun _ h => h)
      exact fun _ h => h rfl
    | false =>
      have hyields : ¬ c.program.yieldsValue (.call callee arguments link place) = true := by
        simp [Program.yieldsValue, hv]
      rw [if_neg hyields] at hcall
      simp only [Bool.false_eq_true, if_false, List.append_nil]
      exact hcall.of_exit fun _ h => h rfl
  | leave hd =>
    exact .of_exit (.leave (Or.inr ⟨rfl, hd, rfl⟩) (Nat.zero_le _)) (fun _ _ => trivial)
  | answer hd he hv =>
    have hvalue : WithDepths f d.type _ _ _ _ := he.withDepths hc 0
    rw [if_pos hv, Nat.zero_add, Nat.zero_add] at hvalue
    exact hvalue.append (.of_exit (.leave (Or.inl ⟨rfl, hd, rfl⟩) (Program.exprStack_pos hv))
      (fun _ _ => trivial)) (fun _ h => h)
  | @branch condition thens elses _ _ _ _ _ _ hcond hv ht he =>
    -- the test compares the condition with the number that was pushed below it
    have hcondition : WithDepths f d.type _ _ _ _ := hcond.withDepths hc 1
    have hpos := Program.exprStack_pos hv
    rw [if_pos hv] at hcondition
    simp only [Program.stmtStack, Node.completes]
    refine WithDepths.select (hcondition.mono (by omega)) (by omega)
      ((ht.withDepths hc).mono (by omega) |>.of_exit ?_) ((he.withDepths hc).mono (by omega)) ?_
    · intro post hpost hthens
      exact hpost (by rw [hthens, Bool.true_or])
    · intro post hpost helses
      exact hpost (by rw [helses, Bool.or_true])
  | loop hcond hv hb =>
    have hcondition : WithDepths f d.type _ _ _ _ := hcond.withDepths hc 1
    have hpos := Program.exprStack_pos hv
    rw [if_pos hv] at hcondition
    simp only [Program.stmtStack]
    exact .of_exit (.repeat (hcondition.mono (by omega)) (by omega)
      ((hb.withDepths hc).mono (by omega)) (fun _ h _ => h)) (fun _ h => h rfl)

/-- So do several statements. -/
theorem StatementsCode.withDepths (hc : c.CallsKnown f) {d : Declaration} {ss : List Node}
    {code : Code} (h : StatementsCode c d ss code) :
    WithDepths f d.type 0 (fun post => Node.allComplete ss = true → StartsAt 0 post)
      (c.program.stmtsStack ss) code := by
  cases h with
  | nil => exact .of_exit .nil (fun _ h => h rfl)
  | cons hs hreach hr =>
    have hfirst := hs.withDepths hc
    have hrest := hr.withDepths hc
    rw [Program.stmtsStack]
    rcases hreach with hcompletes | rfl
    · refine (hfirst.mono (by omega)).append ((hrest.mono (by omega)).of_exit ?_) (fun _ h _ => h)
      intro post hpost hall
      exact hpost (by rw [Node.allComplete, hcompletes, hall, Bool.true_and])
    · -- nothing follows a statement that does not complete
      cases hr with
      | nil =>
        rw [List.append_nil]
        refine (hfirst.mono (by omega)).of_exit fun post hpost hcompletes => hpost ?_
        rw [Node.allComplete, hcompletes, Node.allComplete, Bool.and_true]

end

end Trees

/-! ### Methods -/

/-- Code that control enters with an empty stack and leaves by a return only. -/
theorem WithDepths.closed {f : ClassFile} {result : ValueType} {bound : Nat} {code : Code}
    (h : WithDepths f result 0 (fun _ => True) bound code) :
    ∃ depths : Depths, depths.code = code ∧ (∀ x ∈ depths, x.2 ≤ bound) ∧ StartsAt 0 depths ∧
      ClosedIn f result [] depths [] := by
  obtain ⟨depths, hcode, hbound, hflow⟩ := h
  obtain ⟨hstart, hclosed⟩ := hflow [] [] trivial
  rw [List.append_nil] at hstart
  exact ⟨depths, hcode, hbound, hstart, hclosed⟩

namespace Program

variable {p : Program} {pool : PoolBuilder} {f : ClassFile}

theorem Emitted.callsKnown (hf : p.Emitted pool f) {c : EmitContext} (hprogram : c.program = p)
    (hpool : c.pool = pool) : c.CallsKnown f := by
  intro id d index hd hk hr
  rw [hprogram] at hd
  rw [hpool] at hr
  obtain ⟨d', hd', href⟩ := hf.complete.refs id index hr
  obtain rfl := Option.some.inj (hd'.symm.trans hd)
  rw [← hf.pool_eq] at href
  have hclass : NamesClass f.pool pool.this p.name := hf.pool_eq ▸ hf.complete.this
  cases href with
  | field hvalue => simp [hk] at hvalue
  | method _ hm hs =>
    have hmember : LinkContext.memberRef f index.toNat .methodRef =
        .ok (p.name, d'.name, d'.descriptor) :=
      LinkContext.memberRef_of_holds (Or.inr rfl) hm hclass hs
    have hindex : ((index.toNat : Int)).toNat = index.toNat := Int.toNat_natCast _
    simp only [Instruction.effect?, hindex, hmember, Declaration.descriptor_of_procedure hk,
      MethodType.ofDescriptor_procedureDescriptor, beq_iff_eq]

end Program

namespace EmitContext

variable {p : Program} {pool : PoolBuilder} {f : ClassFile} {d : Declaration}

/-- The code of a procedure has depths that control respects. -/
theorem Layout.withDepths (hf : p.Emitted pool f) {statements : List Node} {body : Code}
    (h : Layout p pool d statements body) :
    WithDepths f d.type 0 (fun _ => True) (stackOf p d) (body ++ tail d) := by
  have hbody := h.code.withDepths (hf.callsKnown rfl rfl)
  have hstack : p.stmtsStack statements ≤ stackOf p d := by
    rw [stackOf, h.stmtStack_eq]
    omega
  rw [← h.completes_eq] at hbody
  cases hcompletes : d.body.completes with
  | false =>
    rw [tail_eq_nil hcompletes, List.append_nil]
    exact (hbody.mono hstack).of_exit fun _ _ hc => absurd hc (by simp [hcompletes])
  | true =>
    cases hd : d.type with
    | void =>
      rw [tail_of_void hcompletes hd, ← hd]
      exact (hbody.mono hstack).append (.leave (Or.inr ⟨rfl, hd, rfl⟩) (Nat.zero_le _))
        (fun _ h _ => h)
    | int =>
      rw [tail_of_int hcompletes hd, ← hd]
      have hone : 1 ≤ stackOf p d := stackOf_pos p hcompletes hd
      have hzero : WithDepths f d.type 0 (StartsAt 1) (stackOf p d) [{ op := .iconst0 }] :=
        .push (fun _ => rfl) rfl (Nat.zero_le _)
      exact (hbody.mono hstack).append (hzero.append (.leave (Or.inl ⟨rfl, hd, rfl⟩) hone)
        (fun _ h => h)) (fun _ h _ => h)

theorem StoresCode.withDepths {c : EmitContext} {result : ValueType} {ids : List DeclId}
    {code : Code} (h : StoresCode c ids code) : WithDepths f result 0 (StartsAt 0) 1 code := by
  induction h with
  | nil => exact .nil
  | cons _ _ hi _ _ ih =>
    obtain ⟨hs, he⟩ := flow_of_push (f := f) hi
    have hpush : WithDepths f result 0 (StartsAt 1) 1 [_] := .push hs he (Nat.zero_le _)
    exact hpush.append ((WithDepths.take (fun _ => rfl) rfl (Nat.le_refl 1)).append ih
      (fun _ h => h)) (fun _ h => h)

/-- So has the code of the constructor. -/
theorem StoresCode.withDepths_initCode {c : EmitContext} {ids : List DeclId} {stores : Code}
    (h : StoresCode c ids stores) :
    WithDepths f .void 0 (fun _ => True) 1 (initCode pool stores) := by
  have hreceiver : WithDepths f .void 0 (StartsAt 1) 1 [{ op := .aload0 }] :=
    .push (fun _ => rfl) rfl (Nat.zero_le _)
  have hsuper : WithDepths f .void 1 (StartsAt 0) 1
      [{ op := .invokeSpecial, operand := pool.superInit.toNat }] :=
    .take (fun _ => rfl) rfl (Nat.le_refl 1)
  exact hreceiver.append (hsuper.append (h.withDepths.append
    (.leave (Or.inr ⟨rfl, rfl, rfl⟩) (Nat.zero_le _)) (fun _ h => h)) (fun _ h => h))
    (fun _ h => h)

end EmitContext

end Classwright
