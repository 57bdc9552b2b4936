import Classwright.Proofs.Bytecode.Graph
import Classwright.Proofs.Bytecode.Inverse
import Classwright.Proofs.Emit.Depth
import Classwright.Proofs.Machine.Compiled
import Classwright.Proofs.Tree.Nodes

/-!
# Statements that complete

Control can get through the code of a statement just if the statement can complete by the rule that
lays out code (`EmitContext.endsIff_of_statement`), whatever is nested in it: a `while` can always
be left by its branch, and an `if` is left by either of its blocks.  Behind the check for
unreachable statements control gets to every statement of a body (`EmitContext.Lies.holds`).  So in
the graph of each method of an accepted program the jump behind an else code and the return behind a
body are there just if control can get to them (`Build.flow_fits_completion`).
-/

namespace Classwright

/-! ### Pieces of code -/

namespace Code

/-- A comparison leaves its result by either way. -/
theorem endsIff_comparisonCode {op : Opcode} (hop : op.isTest = true) :
    (comparisonCode op).EndsIff True := by
  have hone : EndsIff [{ op := .iconst1 }] True := .pass fun _ => rfl
  have hresult : EndsIff [{ op := .iconst0 }, { op := .goto, operand := 4 }, { op := .iconst1 }]
      True := .cons (fun _ => rfl) hone.jump
  exact .test hop hresult (Nat.le_succ 7)

theorem endsIff_operatorCode? {op : Operator} {code : Code} (h : operatorCode? op = some code) :
    code.EndsIff True := by
  cases op <;> simp only [operatorCode?, Option.some.injEq, reduceCtorEq] at h <;> subst h
  all_goals first
    | exact endsIff_comparisonCode rfl
    | exact .pass fun _ => rfl

/-- The code of an `if`, in which a jump stands behind the other code if control gets through
that. -/
theorem EndsIff.select {condition other chosen : Code} {joins : Bool} {p : Prop}
    (hc : condition.EndsIff True) (ho : other.EndsIff (joins = true)) (hp : chosen.EndsIff p) :
    (selectCode condition (other ++ joinCode joins chosen) chosen).EndsIff (joins = true ∨ p) := by
  have hfront : EndsIff ({ op := .iconst1 } :: condition) True := .cons (fun _ => rfl) hc
  cases joins with
  | true =>
    have hrest : EndsIff (other ++ joinCode true chosen ++ chosen) True := by
      rw [joinCode, if_pos rfl, List.append_assoc]
      exact (ho.congr (by simp)).append_true (.jump hp)
    have hle : (other ++ joinCode true chosen).size + 3 ≤
        (other ++ joinCode true chosen ++ chosen).size + 3 := by
      rw [size_append _ chosen]
      omega
    exact (hfront.append_true (.test rfl hrest hle)).congr (by simp)
  | false =>
    have hother : EndsIff (other ++ joinCode false chosen) False := by
      rw [joinCode, if_neg Bool.false_ne_true, List.append_nil]
      exact ho.congr (by simp)
    exact (hfront.append (.skip rfl hother hp)).congr (by simp)

/-- The code of a `while`. -/
theorem EndsIff.repeat {condition body : Code} {p : Prop} (hc : condition.EndsIff True)
    (hb : body.EndsIff p) : (repeatCode condition body).EndsIff True := by
  have hfront : EndsIff ({ op := .iconst0 } :: condition) True := .cons (fun _ => rfl) hc
  have hdistance : body.size + 3 + condition.size + 1 =
      body.size + 3 + size ({ op := .iconst0 } :: condition) := by
    change _ = body.size + 3 + (1 + condition.size)
    omega
  rw [repeatCode, hdistance]
  exact .loop rfl hfront hb

end Code

namespace EmitContext

variable {c : EmitContext}

/-! ### Expressions -/

theorem successors_of_readName {link : Option DeclId} {place : Position} {i : Instruction}
    (h : c.readName link place = .ok i) (pc : Nat) : i.successors pc = [(pc : Int) + i.size] := by
  unfold readName at h
  split at h
  · exact successors_of_push h pc
  · split at h
    · obtain rfl := Except.ok.inj h
      exact successors_loadSlot _ pc
    · simp only [bind_eq_ok, pure_eq_ok] at h
      obtain ⟨index, -, rfl⟩ := h
      rfl

theorem successors_of_writeName {link : Option DeclId} {i : Instruction}
    (h : c.writeName link = .ok i) (pc : Nat) : i.successors pc = [(pc : Int) + i.size] := by
  unfold writeName at h
  split at h
  · obtain rfl := Except.ok.inj h
    exact successors_storeSlot _ pc
  · simp only [bind_eq_ok, pure_eq_ok] at h
    obtain ⟨index, -, rfl⟩ := h
    rfl

mutual

/-- Control gets through the code of an expression. -/
theorem endsIff_of_expression (e : Node) {rest : Except EmitError Code} {code : Code}
    (h : c.expression e rest = .ok code) :
    ∃ front r, rest = .ok r ∧ code = front ++ r ∧ Code.EndsIff front True := by
  match e with
  | .literal value place =>
    obtain ⟨i, r, hi, hr, rfl⟩ := prepend_eq_ok h
    exact ⟨[i], r, hr, rfl, .pass (successors_of_push hi)⟩
  | .name id link place =>
    obtain ⟨i, r, hi, hr, rfl⟩ := prepend_eq_ok h
    exact ⟨[i], r, hr, rfl, .pass (successors_of_readName hi)⟩
  | .call callee arguments link place =>
    rw [expression] at h
    obtain ⟨front, r₁, hr₁, rfl, hfront⟩ := endsIff_of_expressions arguments h
    obtain ⟨i, r, hi, hr, rfl⟩ := prepend_eq_ok hr₁
    simp only [invocation, bind_eq_ok, pure_eq_ok] at hi
    obtain ⟨index, -, rfl⟩ := hi
    exact ⟨front ++ [{ op := .invokeStatic, operand := index }], r, hr, by simp,
      hfront.append_true (.pass fun _ => rfl)⟩
  | .binary op left right place =>
    rw [expression] at h
    obtain ⟨front, r₁, hr₁, rfl, hfront⟩ := endsIff_of_expression left h
    obtain ⟨back, r₂, hr₂, rfl, hback⟩ := endsIff_of_expression right hr₁
    obtain ⟨code, r, hop, hr, rfl⟩ := operatorOnto_eq_ok hr₂
    exact ⟨front ++ (back ++ code), r, hr, by simp,
      hfront.append_true (hback.append_true (Code.endsIff_operatorCode? hop))⟩
  | .absent | .exit _ _ | .branch _ _ _ _ | .loop _ _ _ | .block _ _ => simp [expression] at h

/-- So it does through that of several. -/
theorem endsIff_of_expressions (es : List Node) {rest : Except EmitError Code} {code : Code}
    (h : c.expressions es rest = .ok code) :
    ∃ front r, rest = .ok r ∧ code = front ++ r ∧ Code.EndsIff front True := by
  match es with
  | [] => exact ⟨[], code, h, rfl, .nil⟩
  | e :: others =>
    rw [expressions] at h
    obtain ⟨front, r₁, hr₁, rfl, hfront⟩ := endsIff_of_expression e h
    obtain ⟨back, r, hr, rfl, hback⟩ := endsIff_of_expressions others hr₁
    exact ⟨front ++ back, r, hr, by simp, hfront.append_true hback⟩

end

theorem endsIff_of_condition {condition : Node} {code : Code}
    (h : c.expression condition (.ok []) = .ok code) : code.EndsIff True := by
  obtain ⟨front, r, hr, rfl, hfront⟩ := endsIff_of_expression condition h
  obtain rfl := Except.ok.inj hr
  rwa [List.append_nil]

/-! ### Statements -/

/-- The parts of the code of an `if`. -/
theorem branch_parts {condition thenBlock elseBlock : Node} {place : Position} {code : Code}
    (h : c.statement (.branch condition thenBlock elseBlock place) = .ok code) :
    ∃ condCode thenCode elseCode, c.expression condition (.ok []) = .ok condCode ∧
      c.statement thenBlock = .ok thenCode ∧ c.statement elseBlock = .ok elseCode ∧
      code = selectCode condCode (elseCode ++ joinCode elseBlock.completes thenCode) thenCode := by
  simp only [statement, bind_eq_ok] at h
  obtain ⟨condCode, hcond, thenCode, hthen, elseCode, helse, h⟩ := h
  exact ⟨condCode, thenCode, elseCode, hcond, hthen, helse, (branchCode_eq_ok h).2.2⟩

/-- The parts of the code of a `while`. -/
theorem loop_parts {condition body : Node} {place : Position} {code : Code}
    (h : c.statement (.loop condition body place) = .ok code) :
    ∃ condCode bodyCode, c.expression condition (.ok []) = .ok condCode ∧
      c.statement body = .ok bodyCode ∧ code = repeatCode condCode bodyCode := by
  simp only [statement, bind_eq_ok] at h
  obtain ⟨condCode, hcond, bodyCode, hbody, h⟩ := h
  exact ⟨condCode, bodyCode, hcond, hbody, (loopCode_eq_ok h).2.2⟩

/-- The code of the first of several statements and that of the others. -/
theorem statements_cons_eq_ok {used : Nat} {s : Node} {rest : List Node} {code : Code} :
    c.statements used (s :: rest) = .ok code ↔
      ∃ first others, c.statement s = .ok first ∧ used + first.size ≤ maxCodeLength ∧
        c.statements (used + first.size) rest = .ok others ∧ code = first ++ others := by
  simp only [statements, bind_eq_ok]
  refine exists_congr fun first => ?_
  rw [exists_and_left]
  refine and_congr_right fun _ => ?_
  split
  · rename_i hlt
    simp [Nat.not_le_of_lt hlt]
  · rename_i hle
    simp only [bind_eq_ok, pure_eq_ok, Nat.le_of_not_lt hle, true_and]
    exact exists_congr fun others => and_congr_right fun _ => eq_comm

mutual

/-- Control gets through the code of a statement if and only if the statement can complete. -/
theorem endsIff_of_statement (s : Node) {code : Code} (h : c.statement s = .ok code) :
    code.EndsIff (s.completes = true) := by
  match s with
  | .binary .assign (.name _ link _) right _ =>
    rw [statement] at h
    -- control gets through expressions and stores
    obtain ⟨front, r, hr, rfl, hfront⟩ := endsIff_of_expression right h
    obtain ⟨i, r', hi, hr', rfl⟩ := prepend_eq_ok hr
    obtain rfl := Except.ok.inj hr'
    exact (hfront.append_true (.pass (successors_of_writeName hi))).congr (by simp [Node.completes])
  | .call callee arguments link place =>
    rw [statement] at h
    obtain ⟨front, r, hr, rfl, hfront⟩ := endsIff_of_expression _ h
    obtain rfl := Except.ok.inj hr
    refine (hfront.append_true ?_).congr (by simp [Node.completes])
    split
    · exact .pass fun _ => rfl
    · exact .nil
  | .exit value place =>
    by_cases hvalue : value = .absent
    · subst hvalue
      obtain rfl := Except.ok.inj h
      -- and stops at a return
      exact (Code.EndsIff.stop fun _ => rfl).congr (by simp [Node.completes])
    · rw [statement_exit hvalue] at h
      obtain ⟨front, r, hr, rfl, hfront⟩ := endsIff_of_expression value h
      obtain rfl := Except.ok.inj hr
      exact (hfront.append (.stop fun _ => rfl)).congr (by simp [Node.completes])
  | .branch condition thenBlock elseBlock place =>
    obtain ⟨condCode, thenCode, elseCode, hcond, hthen, helse, rfl⟩ := branch_parts h
    -- the else code stands in front of the then code
    have hselect := (endsIff_of_condition hcond).select (endsIff_of_statement elseBlock helse)
      (endsIff_of_statement thenBlock hthen)
    exact hselect.congr (by rw [Node.completes, Bool.or_eq_true, or_comm])
  | .loop condition body place =>
    obtain ⟨condCode, bodyCode, hcond, hbody, rfl⟩ := loop_parts h
    exact ((endsIff_of_condition hcond).repeat (endsIff_of_statement body hbody)).congr
      (by simp [Node.completes])
  | .block statements place =>
    rw [statement] at h
    exact endsIff_of_statements statements h
  | .absent =>
    obtain rfl := Except.ok.inj h
    exact Code.EndsIff.nil.congr (by simp [Node.completes])
  | .literal _ _ | .name _ _ _ => simp [statement] at h

/-- Control gets through the code of several statements if and only if each can complete. -/
theorem endsIff_of_statements (ss : List Node) {used : Nat} {code : Code}
    (h : c.statements used ss = .ok code) : code.EndsIff (Node.allComplete ss = true) := by
  match ss with
  | [] =>
    rw [statements] at h
    obtain rfl := Except.ok.inj h
    exact Code.EndsIff.nil.congr (by simp [Node.allComplete])
  | s :: rest =>
    obtain ⟨first, others, hfirst, -, hothers, rfl⟩ := statements_cons_eq_ok.1 h
    exact ((endsIff_of_statement s hfirst).append (endsIff_of_statements rest hothers)).congr
      (by rw [Node.allComplete, Bool.and_eq_true])

end

end EmitContext

/-! ### The parts of statements -/

namespace Code

/-- The other code of an `if` stands behind its branch. -/
theorem holds_select_other {condition other chosen : Code} (joins : Bool)
    (hc : condition.EndsIff True) :
    Holds (selectCode condition (other ++ joinCode joins chosen) chosen) other
      (condition.size + 4) := by
  have hfront : EndsIff ({ op := .iconst1 } :: condition) True := .cons (fun _ => rfl) hc
  have hsize : size ({ op := .iconst1 } :: condition) + 3 = condition.size + 4 := by
    change 1 + condition.size + 3 = condition.size + 4
    omega
  have htest : Opcode.ifEq.isTest = true := rfl
  have hholds := Holds.behind_test htest hfront
    ((other ++ joinCode joins chosen).size + 3) other (joinCode joins chosen ++ chosen)
  rwa [hsize, ← List.append_assoc] at hholds

theorem size_joinCode (joins : Bool) (chosen : Code) :
    (joinCode joins chosen).size = if joins then 3 else 0 := by
  cases joins <;> rfl

/-- The code that is chosen stands behind the other code and the jump. -/
theorem holds_select_chosen {condition other chosen : Code} (joins : Bool)
    (hc : condition.EndsIff True) :
    Holds (selectCode condition (other ++ joinCode joins chosen) chosen) chosen
      (condition.size + 4 + (other.size + if joins then 3 else 0)) := by
  have hfront : EndsIff ({ op := .iconst1 } :: condition) True := .cons (fun _ => rfl) hc
  have hsize : size ({ op := .iconst1 } :: condition) +
      ((other ++ joinCode joins chosen).size + 3) =
        condition.size + 4 + (other.size + if joins then 3 else 0) := by
    rw [size_append, size_joinCode]
    change 1 + condition.size + _ = _
    omega
  have htest : Opcode.ifEq.isTest = true := rfl
  have hholds := Holds.target_of_test htest hfront (other ++ joinCode joins chosen) chosen []
  rwa [hsize, List.append_nil] at hholds

/-- The body of a `while` stands behind its branch. -/
theorem holds_repeat {condition body : Code} (hc : condition.EndsIff True) :
    Holds (repeatCode condition body) body (condition.size + 4) := by
  have hfront : EndsIff ({ op := .iconst0 } :: condition) True := .cons (fun _ => rfl) hc
  have hsize : size ({ op := .iconst0 } :: condition) + 3 = condition.size + 4 := by
    change 1 + condition.size + 3 = condition.size + 4
    omega
  have htest : Opcode.ifEq.isTest = true := rfl
  have hholds := Holds.behind_test htest hfront (body.size + 6) body
    [{ op := .goto, operand := -(body.size + 3 + condition.size + 1 : Nat) }]
  rwa [hsize] at hholds

end Code

namespace Node

/-- In a list that passes the check control gets to each statement, and each passes the check. -/
theorem checkReachableAll_append {front back : List Node} {s : Node}
    (h : checkReachableAll (front ++ s :: back) = .ok ()) :
    allComplete front = true ∧ s.checkReachable = .ok () := by
  induction front with
  | nil => exact ⟨rfl, (checkReachableAll_cons h).1⟩
  | cons first rest ih =>
    obtain ⟨-, hfirst, hrest⟩ := checkReachableAll_cons h
    obtain ⟨hcomplete, hs⟩ := ih hrest
    have hcompletes : first.completes = true := hfirst.resolve_right (by simp)
    exact ⟨by rw [allComplete, hcompletes, hcomplete, Bool.and_self], hs⟩

end Node

namespace EmitContext

variable {c : EmitContext}

theorem statements_append {used : Nat} {front back : List Node} {code : Code}
    (h : c.statements used (front ++ back) = .ok code) :
    ∃ frontCode backCode, c.statements used front = .ok frontCode ∧
      c.statements (used + frontCode.size) back = .ok backCode ∧
      code = frontCode ++ backCode := by
  induction front generalizing used code with
  | nil => exact ⟨[], code, rfl, h, rfl⟩
  | cons s rest ih =>
    obtain ⟨first, others, hfirst, hle, hothers, rfl⟩ := statements_cons_eq_ok.1 h
    obtain ⟨restCode, backCode, hrest, hback, rfl⟩ := ih hothers
    refine ⟨first ++ restCode, backCode, ?_, ?_, (List.append_assoc ..).symm⟩
    · exact statements_cons_eq_ok.2 ⟨first, restCode, hfirst, hle, hrest, rfl⟩
    · rwa [Code.size_append, ← Nat.add_assoc]

/-- The statement stands in the block at some depth, and its code `offset` bytes behind the start of
that of the block. -/
inductive Lies (c : EmitContext) : (block s : Node) → (offset : Nat) → Prop
  | own {front back : List Node} {s : Node} {place : Position} {code : Code}
      (h : c.statement (.block front place) = .ok code) :
      Lies c (.block (front ++ s :: back) place) s code.size
  | inElse {block condition thenBlock elseBlock s : Node} {place : Position} {offset depth : Nat}
      {condCode : Code} (h : Lies c block (.branch condition thenBlock elseBlock place) offset)
      (hc : c.expression condition (.ok []) = .ok condCode) (hs : Lies c elseBlock s depth) :
      Lies c block s (offset + (condCode.size + 4) + depth)
  | inThen {block condition thenBlock elseBlock s : Node} {place : Position} {offset depth : Nat}
      {condCode elseCode : Code}
      (h : Lies c block (.branch condition thenBlock elseBlock place) offset)
      (hc : c.expression condition (.ok []) = .ok condCode)
      (he : c.statement elseBlock = .ok elseCode) (hs : Lies c thenBlock s depth) :
      Lies c block s (offset + (condCode.size + 4 +
        (elseCode.size + if elseBlock.completes then 3 else 0)) + depth)
  | inBody {block condition body s : Node} {place : Position} {offset depth : Nat}
      {condCode : Code} (h : Lies c block (.loop condition body place) offset)
      (hc : c.expression condition (.ok []) = .ok condCode) (hs : Lies c body s depth) :
      Lies c block s (offset + (condCode.size + 4) + depth)

/-- In a block that passes the check for unreachable statements control gets to the code of each
statement. -/
theorem Lies.holds {block s : Node} {offset : Nat} (h : c.Lies block s offset)
    (hreach : block.checkReachableIn = .ok ()) {code : Code}
    (hcode : c.statement block = .ok code) :
    ∃ part, c.statement s = .ok part ∧ s.checkReachable = .ok () ∧ code.Holds part offset := by
  induction h generalizing code with
  | @own front back s place frontCode hfront =>
    rw [statement] at hfront hcode
    rw [Node.checkReachableIn] at hreach
    -- the check has found that all statements in front of this one end normally
    obtain ⟨hcomplete, hs⟩ := Node.checkReachableAll_append hreach
    obtain ⟨frontCode', rest, hfront', hrest, rfl⟩ := statements_append hcode
    obtain rfl := Except.ok.inj (hfront'.symm.trans hfront)
    obtain ⟨part, others, hpart, -, -, rfl⟩ := statements_cons_eq_ok.1 hrest
    exact ⟨part, hpart, hs, .behind
      ((endsIff_of_statements front hfront).congr (iff_of_true hcomplete trivial)) part others⟩
  | inElse _ hc _ ihbranch ihs =>
    obtain ⟨part, hpart, hcheck, hholds⟩ := ihbranch hreach hcode
    obtain ⟨condCode, thenCode, elseCode, hcond, -, helse, rfl⟩ := branch_parts hpart
    obtain rfl := Except.ok.inj (hcond.symm.trans hc)
    rw [Node.checkReachable, seq_eq_ok] at hcheck
    obtain ⟨inner, hinner, hreachable, hholds'⟩ := ihs hcheck.2 helse
    -- through the code of the branch, over its condition, to the part
    exact ⟨inner, hinner, hreachable,
      (hholds.trans (Code.holds_select_other _ (endsIff_of_condition hcond))).trans hholds'⟩
  | inThen _ hc he _ ihbranch ihs =>
    obtain ⟨part, hpart, hcheck, hholds⟩ := ihbranch hreach hcode
    obtain ⟨condCode, thenCode, elseCode, hcond, hthen, helse, rfl⟩ := branch_parts hpart
    obtain rfl := Except.ok.inj (hcond.symm.trans hc)
    obtain rfl := Except.ok.inj (helse.symm.trans he)
    rw [Node.checkReachable, seq_eq_ok] at hcheck
    obtain ⟨inner, hinner, hreachable, hholds'⟩ := ihs hcheck.1 hthen
    exact ⟨inner, hinner, hreachable,
      (hholds.trans (Code.holds_select_chosen _ (endsIff_of_condition hcond))).trans hholds'⟩
  | inBody _ hc _ ihloop ihs =>
    obtain ⟨part, hpart, hcheck, hholds⟩ := ihloop hreach hcode
    obtain ⟨condCode, bodyCode, hcond, hbody, rfl⟩ := loop_parts hpart
    obtain rfl := Except.ok.inj (hcond.symm.trans hc)
    rw [Node.checkReachable] at hcheck
    obtain ⟨inner, hinner, hreachable, hholds'⟩ := ihs hcheck hbody
    exact ⟨inner, hinner, hreachable,
      (hholds.trans (Code.holds_repeat (endsIff_of_condition hcond))).trans hholds'⟩

/-- Every statement of a block stands in it. -/
theorem exists_lies_own {statements : List Node} {place : Position} {code : Code}
    (h : c.statement (.block statements place) = .ok code) {s : Node} (hs : s ∈ statements) :
    ∃ offset part, c.Lies (.block statements place) s offset ∧ c.statement s = .ok part := by
  obtain ⟨front, back, rfl⟩ := List.append_of_mem hs
  rw [statement] at h
  obtain ⟨frontCode, rest, hfront, hrest, rfl⟩ := statements_append h
  obtain ⟨part, -, hpart, -⟩ := statements_cons_eq_ok.1 hrest
  exact ⟨frontCode.size, part, .own hfront, hpart⟩

/-- No `if` statement is part of an expression. -/
theorem form_ne_branch {p : Program} {t : TableId} {e : Node} (he : e.LinkedExpression p t) :
    ∀ s ∈ e.nodes, s.form ≠ .branch := by
  induction he with
  | literal | name => simp [Node.nodes, Node.visit, Node.visitOnto, Node.form]
  | call _ _ _ _ ih =>
    rw [Node.nodes_call, List.forall_mem_cons]
    refine ⟨by simp [Node.form], fun s hs => ?_⟩
    obtain ⟨a, ha, hmem⟩ := List.mem_flatMap.1 hs
    exact ih a ha s hmem
  | binary _ _ _ ihl ihr =>
    rw [Node.nodes_binary, List.forall_mem_cons, List.forall_mem_append]
    exact ⟨by simp [Node.form], ihl, ihr⟩

/-- Every `if` statement that is part of a statement of a block stands in that block. -/
theorem exists_lies_of_linked {t : TableId} {s : Node} (hs : s.LinkedStatement c.program t)
    {block : Node} {offset : Nat} (hlies : c.Lies block s offset) {code : Code}
    (hcode : c.statement s = .ok code) {inner : Node} (hinner : inner ∈ s.nodes)
    (hform : inner.form = .branch) : ∃ offset, c.Lies block inner offset := by
  induction hs generalizing block offset code with
  | @assign x id d value spot place _ _ _ hvalue =>
    have htarget : (Node.name x (some id) spot).nodes = [.name x (some id) spot] := rfl
    rw [Node.nodes_binary, htarget, List.mem_cons, List.mem_append, List.mem_singleton] at hinner
    rcases hinner with rfl | rfl | hmem
    · cases hform
    · cases hform
    · exact absurd hform (form_ne_branch hvalue inner hmem)
  | call hcall => exact absurd hform (form_ne_branch hcall inner hinner)
  | @leave place =>
    have hnodes : (Node.exit .absent place).nodes = [.exit .absent place] := rfl
    rw [hnodes, List.mem_singleton] at hinner
    subst hinner
    cases hform
  | answer hvalue =>
    rw [Node.nodes_exit, List.mem_cons] at hinner
    rcases hinner with rfl | hmem
    · cases hform
    · exact absurd hform (form_ne_branch hvalue inner hmem)
  | branch hcond _ _ iht ihe =>
    obtain ⟨condCode, thenCode, elseCode, hc, hthen, helse, -⟩ := branch_parts hcode
    rw [Node.nodes_branch, List.mem_cons, List.mem_append, List.mem_append, Node.nodes_block,
      Node.nodes_block, List.mem_cons, List.mem_cons, List.mem_flatMap, List.mem_flatMap] at hinner
    -- the statement itself, its condition, or a statement of one of its blocks
    rcases hinner with rfl | hmem | (rfl | ⟨s, hs, hmem⟩) | (rfl | ⟨s, hs, hmem⟩)
    · exact ⟨offset, hlies⟩
    · exact absurd hform (form_ne_branch hcond inner hmem)
    · cases hform
    · obtain ⟨depth, part, hown, hpart⟩ := exists_lies_own hthen hs
      exact iht s hs (.inThen hlies hc helse hown) hpart hmem
    · cases hform
    · obtain ⟨depth, part, hown, hpart⟩ := exists_lies_own helse hs
      exact ihe s hs (.inElse hlies hc hown) hpart hmem
  | loop hcond _ ihb =>
    obtain ⟨condCode, bodyCode, hc, hbody, -⟩ := loop_parts hcode
    rw [Node.nodes_loop, List.mem_cons, List.mem_append, Node.nodes_block, List.mem_cons,
      List.mem_flatMap] at hinner
    -- likewise, but a loop is no `if` statement itself
    rcases hinner with rfl | hmem | rfl | ⟨s, hs, hmem⟩
    · cases hform
    · exact absurd hform (form_ne_branch hcond inner hmem)
    · cases hform
    · obtain ⟨depth, part, hown, hpart⟩ := exists_lies_own hbody hs
      exact ihb s hs (.inBody hlies hc hown) hpart hmem

/-- Every `if` statement that is part of a block stands in it. -/
theorem exists_lies {t : TableId} {block : Node} (h : block.LinkedBlock c.program t) {code : Code}
    (hcode : c.statement block = .ok code) {s : Node} (hs : s ∈ block.nodes)
    (hform : s.form = .branch) : ∃ offset, c.Lies block s offset := by
  obtain ⟨statements, place, rfl, hlinked⟩ := h.eq_block
  rw [Node.nodes_block, List.mem_cons, List.mem_flatMap] at hs
  rcases hs with rfl | ⟨s', hs', hmem⟩
  · cases hform
  · obtain ⟨depth, part, hown, hpart⟩ := exists_lies_own hcode hs'
    exact exists_lies_of_linked (hlinked s' hs') hown hpart hmem hform

end EmitContext

/-! ### Methods -/

/-- The rule by which a block is laid out fits the flow of control through its code, of which `code`
are the instructions as they are read from their bytes. -/
structure EmitContext.FlowFits (c : EmitContext) (block : Node) (emitted code : Code) : Prop where
  /-- Control can get to the end of the code just if the block can complete. -/
  ends_iff : Code.Leads 0 code 0 code.size ↔ block.completes = true
  /-- Each `if` statement stands somewhere in the block. -/
  exists_lies : ∀ s ∈ block.nodes, s.form = .branch → ∃ offset, c.Lies block s offset
  /-- Wherever one stands, its code is laid out with a jump behind the else code just if the else
  block can complete.  Control can get to the else code, and by its instructions to its end just in
  that case. -/
  else_iff : ∀ {condition thenBlock elseBlock : Node} {place : Position} {offset : Nat},
    c.Lies block (.branch condition thenBlock elseBlock place) offset →
      ∃ condCode thenCode elseCode, c.expression condition (.ok []) = .ok condCode ∧
        c.statement thenBlock = .ok thenCode ∧ c.statement elseBlock = .ok elseCode ∧
        emitted.Holds (selectCode condCode
          (elseCode ++ joinCode elseBlock.completes thenCode) thenCode) offset ∧
        Code.Leads 0 code 0 (offset + (condCode.size + 4)) ∧
        (code.Crosses (offset + (condCode.size + 4))
          (offset + (condCode.size + 4) + elseCode.size) ↔ elseBlock.completes = true)

/-- The code of a block of a checked program is as the rule says. -/
theorem EmitContext.flowFits {c : EmitContext} {t : TableId} {block : Node}
    (h : block.LinkedBlock c.program t) (hreach : block.checkReachableIn = .ok ()) {emitted : Code}
    (hcode : c.statement block = .ok emitted) (hcut : ∀ i ∈ emitted, i.cut.Encodable) :
    c.FlowFits block emitted (emitted.map Instruction.cut) where
  ends_iff := ((endsIff_of_statement block hcode).map_cut hcut).leads_zero_iff
  exists_lies s hs hform := exists_lies h hcode hs hform
  else_iff hlies := by
    obtain ⟨part, hpart, -, hholds⟩ := hlies.holds hreach hcode
    obtain ⟨condCode, thenCode, elseCode, hcond, hthen, helse, rfl⟩ := branch_parts hpart
    have hother := hholds.trans (Code.holds_select_other _ (endsIff_of_condition hcond))
    refine ⟨condCode, thenCode, elseCode, hcond, hthen, helse, hholds, ?_, ?_⟩
    · have hleads := hother.leads 0
      rwa [Nat.zero_add, Code.Leads, ← Code.flows_map_cut hcut] at hleads
    · rw [← hother.crosses_iff (endsIff_of_statement _ helse), Code.Crosses,
        Code.flows_map_cut hcut]
      rfl

namespace EmitContext

/-- Control does not get through the return behind a body. -/
theorem endsIff_tail (d : Declaration) : (tail d).EndsIff (d.body.completes = false) := by
  cases hbody : d.body.completes with
  | false =>
    rw [tail_eq_nil hbody]
    exact Code.EndsIff.nil.congr (by simp)
  | true =>
    cases hd : d.type with
    | void =>
      rw [tail_of_void hbody hd]
      exact (Code.EndsIff.stop fun _ => rfl).congr (by simp)
    | int =>
      rw [tail_of_int hbody hd]
      have hreturn : Code.EndsIff [{ op := .ireturn }] False := .stop fun _ => rfl
      exact (Code.EndsIff.append (.pass fun _ => rfl) hreturn).congr (by simp)

end EmitContext

/-- The code of a method is `emitted`, the code of the body of a procedure, with the return behind
it; `code` are the instructions of the body as they are read from their bytes. -/
structure MethodCode.FlowFits (method : MethodCode) (p : Program) (pool : PoolBuilder)
    (d : Declaration) (emitted code : Code) : Prop where
  /-- The code is emitted for the body. -/
  statement_eq : (EmitContext.ofProcedure p pool d).statement d.body = .ok emitted
  /-- These are its instructions. -/
  decode_body : Code.decode emitted.encode = .ok code
  /-- The return stands behind it. -/
  code_eq : method.code = emitted.encode ++ (EmitContext.tail d).encode
  /-- These are the instructions of the method. -/
  decode_eq : Code.decode method.code = .ok (code ++ EmitContext.tail d)
  /-- The rule fits the flow of control through the body. -/
  body : (EmitContext.ofProcedure p pool d).FlowFits d.body emitted code
  /-- There is a return behind the body just if control can get there. -/
  tail_iff : EmitContext.tail d ≠ [] ↔ Code.Leads 0 (code ++ EmitContext.tail d) 0 code.size
  /-- Control never gets to the end of the method. -/
  not_past : ¬ Code.Leads 0 (code ++ EmitContext.tail d) 0 (code ++ EmitContext.tail d).size

theorem EmitContext.tail_ne_nil_iff {d : Declaration} : tail d ≠ [] ↔ d.body.completes = true := by
  unfold tail
  cases d.body.completes <;> cases d.type <;> simp

theorem Program.flowFits_of_procedureCode {p : Program} {pool : PoolBuilder} {id : DeclId}
    {d : Declaration} {method : MethodCode} (hp : p.Checked) (hd : p.decl? id = some d)
    (hk : d.kind = .procedure) (h : EmitContext.procedureCode p pool d = .ok method) :
    method.code.length ≤ 0xFFFF ∧ ∃ emitted code, method.FlowFits p pool d emitted code := by
  obtain ⟨emitted, hemitted, hsize, rfl⟩ := EmitContext.exists_body_of_procedureCode h
  obtain ⟨statements, place, hblock, hcode⟩ := EmitContext.exists_statementsCode hp hd hk hemitted
  obtain ⟨t, -, hlinked⟩ := hp.linked id d hd hk
  have hchecks := hp.analyzed id d hd hk
  simp only [Program.analyzeProcedure, bind_eq_ok] at hchecks
  obtain ⟨_, -, _, hreach, -⟩ := hchecks
  have hbody : ∀ i ∈ emitted, i.cut.Encodable := fun i hi => (hcode.emits i hi).encodable_cut
  have hall : ∀ i ∈ emitted ++ EmitContext.tail d, i.cut.Encodable :=
    List.forall_mem_append.2 ⟨hbody, fun i hi =>
      (EmitContext.emits_tail (EmitContext.ofProcedure p pool d) d i hi).encodable_cut⟩
  have htail : (EmitContext.tail d).map Instruction.cut = EmitContext.tail d := by
    unfold EmitContext.tail
    cases d.body.completes <;> cases d.type <;> rfl
  have hends := (EmitContext.endsIff_of_statement d.body hemitted).map_cut hbody
  have hfits := EmitContext.flowFits hlinked hreach hemitted hbody
  refine ⟨?_, emitted, emitted.map Instruction.cut, hemitted, Code.decode_encode_cut hbody,
    Code.encode_append _ _, ?_, hfits, ?_, ?_⟩
  · rw [Code.length_encode_cut hall]
    exact hsize
  · rw [Code.decode_encode_cut hall, List.map_append, htail]
  · rw [EmitContext.tail_ne_nil_iff, ← hends.leads_zero_iff]
    refine ⟨fun hleads => hleads.append_right _, fun hleads => ?_⟩
    by_contra hnot
    -- Without a return there is nothing behind the body.
    have hincomplete : d.body.completes = false := by
      rwa [hends.leads_zero_iff, Bool.not_eq_true] at hnot
    rw [EmitContext.tail_eq_nil hincomplete, List.append_nil] at hleads
    exact hnot hleads
  · rw [(hends.append (EmitContext.endsIff_tail d)).leads_zero_iff]
    simp

/-- The member `m` is the method of the procedure `d`, and the rule by which that is laid out fits
the flow of control through it. -/
structure Program.FlowFits (p : Program) (pool : PoolBuilder) (f : ClassFile) (d : Declaration)
    (m : Member) : Prop where
  /-- It has the name and the descriptor of the procedure. -/
  name : f.memberName m = .ok (d.name, d.descriptor)
  /-- Its code is that of the procedure. -/
  flow : ∃ method emitted code, f.methodCode m = .ok method ∧
    method.FlowFits p pool d emitted code

/-- The methods of an accepted program are those of its procedures, in each of which control flows
as the rule says that lays it out.  So a jump or a return that is left out is never needed, and one
that is there is never dead.  A statement that by this rule cannot complete is terminating by the
rule for unreachable statements. -/
theorem Build.flow_fits_completion {text : Text} {p : Program} {f : ClassFile}
    (h : (Build.ofText text).result = .ok (p, f)) :
    (∀ s : Node, s.completes = false → s.terminates = true) ∧
      ∃ pool, PoolBuilder.ofProgram p = .ok pool ∧
        ∃ methods constructor, f.methods = methods ++ [constructor] ∧
          List.Forall₂ (p.FlowFits pool f) p.procedureDecls methods := by
  obtain ⟨hp, hfile⟩ := Build.checked h
  obtain ⟨pool, hpool⟩ := Program.exists_pool_of_classFile hfile
  have hf := Program.emitted_of_pool hp.wellFormed hpool hfile
  obtain ⟨methods, constructor, hmethods, hprocedures, -⟩ := hf.methods
  have hdecls : ∀ d ∈ p.procedureDecls, ∃ id, p.decl? id = some d ∧ d.kind = .procedure :=
    fun d hd => hp.wellFormed.mem_procedureDecls.1 hd
  refine ⟨Node.terminates_of_completes_eq_false, pool, hpool, methods, constructor, hmethods,
    ((List.forall₂_and_left _ _).2 ⟨hdecls, hprocedures⟩).imp ?_⟩
  rintro d m ⟨⟨id, hd, hk⟩, method, hmethod, hmember⟩
  rw [← hf.pool_eq] at hmember
  obtain ⟨hlength, emitted, code, hflow⟩ := Program.flowFits_of_procedureCode hp hd hk hmethod
  have hread : f.methodCode m = .ok method := ClassFile.methodCode_of_methodOf hmember (by omega)
  exact ⟨ClassFile.memberName_of_holds hmember.name hmember.descriptor, method, emitted, code,
    hread, hflow⟩

theorem Build.flow_fits_completion_factorial :
    ∃ p f, (Build.ofText factorialSource).result = .ok (p, f) ∧
      (∀ s : Node, s.completes = false → s.terminates = true) ∧
        ∃ pool, PoolBuilder.ofProgram p = .ok pool ∧
          ∃ methods constructor, f.methods = methods ++ [constructor] ∧
            List.Forall₂ (p.FlowFits pool f) p.procedureDecls methods := by
  obtain ⟨p, f, h, -⟩ := factorialSource_builds
  exact ⟨p, f, h, Build.flow_fits_completion h⟩

end Classwright
