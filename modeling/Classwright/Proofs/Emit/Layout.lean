import Classwright.Proofs.Bytecode.Codec
import Classwright.Proofs.Check.Checked

/-!
# The layout of emitted code

`ExpressionCode` and `StatementCode` say which instructions stand for which tree of a checked
program, one rule for each form of tree.  Whatever is emitted for a linked tree that passes the
analysis is laid out by these rules (`EmitContext.expressionCode_of_expression`,
`EmitContext.statementsCode_of_statements`), so what holds of emitted code is proved by induction
over them.
-/

namespace Classwright

namespace Node

mutual

/-- A statement that cannot complete is terminating. -/
theorem terminates_of_completes_eq_false (s : Node) (h : s.completes = false) :
    s.terminates = true := by
  match s with
  | .exit _ _ => rfl
  | .branch _ thenBlock elseBlock _ =>
    rw [completes, Bool.or_eq_false_iff] at h
    rw [terminates, terminates_of_completes_eq_false thenBlock h.1,
      terminates_of_completes_eq_false elseBlock h.2]
    rfl
  | .block statements _ => exact anyTerminates_of_allComplete_eq_false statements h

/-- If not all of several statements can complete, one of them is terminating. -/
theorem anyTerminates_of_allComplete_eq_false (ss : List Node) (h : allComplete ss = false) :
    anyTerminates ss = true := by
  match ss with
  | s :: rest =>
    rw [allComplete, Bool.and_eq_false_iff] at h
    rw [anyTerminates, Bool.or_eq_true]
    rcases h with h | h
    · exact Or.inl (terminates_of_completes_eq_false s h)
    · exact Or.inr (anyTerminates_of_allComplete_eq_false rest h)

end

/-- Behind the check for unreachable statements only the last statement of a list may not
complete, and the check has passed inside each of them. -/
theorem checkReachableAll_cons {s : Node} {rest : List Node}
    (h : checkReachableAll (s :: rest) = .ok ()) :
    s.checkReachable = .ok () ∧ (s.completes = true ∨ rest = []) ∧
      checkReachableAll rest = .ok () := by
  cases rest with
  | nil =>
    simp only [checkReachableAll, bind_eq_ok] at h
    obtain ⟨_, hs, -⟩ := h
    exact ⟨hs, Or.inr rfl, by simp only [checkReachableAll]⟩
  | cons next others =>
    rw [checkReachableAll, bind_eq_ok] at h
    obtain ⟨_, hs, h⟩ := h
    split at h
    · simp at h
    · rename_i hterm
      refine ⟨hs, Or.inl ?_, h⟩
      by_contra hc
      rw [Bool.not_eq_true] at hc
      exact hterm (terminates_of_completes_eq_false s hc)

end Node

/-! ### The rules -/

/-- The jump over the then code behind an else code that can complete. -/
def joinCode (joins : Bool) (thenCode : Code) : Code :=
  if joins then [{ op := .goto, operand := (thenCode.size + 3 : Nat) }] else []

/-- The code of an `if`: `other` runs unless the condition is 1, and `chosen` stands behind it. -/
def selectCode (condition other chosen : Code) : Code :=
  { op := .iconst1 } ::
    (condition ++ ({ op := .ifEq, operand := (other.size + 3 : Nat) } :: (other ++ chosen)))

/-- The code of a `while`, which is left when the condition is 0. -/
def repeatCode (condition body : Code) : Code :=
  { op := .iconst0 } ::
    (condition ++ ({ op := .ifEq, operand := (body.size + 6 : Nat) } ::
      (body ++ [{ op := .goto, operand := -(body.size + 3 + condition.size + 1 : Nat) }])))

mutual

/-- `code` stands for an expression of a checked program. -/
inductive ExpressionCode (c : EmitContext) : Node → Code → Prop
  | literal {v : Int32} {place : Position} {i : Instruction} (h : c.push v place = .ok i) :
      ExpressionCode c (.literal v place) [i]
  | constant {x : Text} {id : DeclId} {d : Declaration} {place : Position} {i : Instruction}
      (hd : c.program.decl? id = some d) (hk : d.kind = .constant)
      (h : c.push d.value place = .ok i) : ExpressionCode c (.name x (some id) place) [i]
  | slot {x : Text} {id : DeclId} {d : Declaration} {place : Position} {n : Nat}
      (hd : c.program.decl? id = some d) (hk : d.kind ≠ .constant)
      (ht : d.table ≠ Program.classTable) (hs : c.slots[id]? = some n) :
      ExpressionCode c (.name x (some id) place) [loadSlot n]
  | field {x : Text} {id : DeclId} {d : Declaration} {place : Position} {index : UInt16}
      (hd : c.program.decl? id = some d) (hk : d.kind = .var)
      (ht : d.table = Program.classTable) (hr : c.pool.refs[id]? = some index) :
      ExpressionCode c (.name x (some id) place) [{ op := .getStatic, operand := index.toNat }]
  | call {callee : Text} {arguments : List Node} {id : DeclId} {d : Declaration}
      {place : Position} {code : Code} {index : UInt16} (hd : c.program.decl? id = some d)
      (hk : d.kind = .procedure) (hn : d.arity = arguments.length)
      (hr : c.pool.refs[id]? = some index) (ha : ArgumentsCode c arguments code) :
      ExpressionCode c (.call callee arguments (some id) place)
        (code ++ [{ op := .invokeStatic, operand := index.toNat }])
  | binary {op : Operator} {left right : Node} {place : Position} {leftCode rightCode code : Code}
      (hop : operatorCode? op = some code) (hl : ExpressionCode c left leftCode)
      (hvl : c.program.yieldsValue left = true) (hr : ExpressionCode c right rightCode)
      (hvr : c.program.yieldsValue right = true) :
      ExpressionCode c (.binary op left right place) (leftCode ++ (rightCode ++ code))

/-- `code` stands for the arguments of a call. -/
inductive ArgumentsCode (c : EmitContext) : List Node → Code → Prop
  | nil : ArgumentsCode c [] []
  | cons {e : Node} {rest : List Node} {code others : Code} (h : ExpressionCode c e code)
      (hv : c.program.yieldsValue e = true) (hr : ArgumentsCode c rest others) :
      ArgumentsCode c (e :: rest) (code ++ others)

end

mutual

/-- `code` stands for a statement of the procedure `d` of a checked program. -/
inductive StatementCode (c : EmitContext) (d : Declaration) : Node → Code → Prop
  | assignSlot {x : Text} {id : DeclId} {e : Declaration} {value : Node} {spot place : Position}
      {code : Code} {n : Nat} (he : c.program.decl? id = some e) (hk : e.kind ≠ .constant)
      (ht : e.table ≠ Program.classTable) (hs : c.slots[id]? = some n)
      (h : ExpressionCode c value code) (hv : c.program.yieldsValue value = true) :
      StatementCode c d (.binary .assign (.name x (some id) spot) value place)
        (code ++ [storeSlot n])
  | assignField {x : Text} {id : DeclId} {e : Declaration} {value : Node} {spot place : Position}
      {code : Code} {index : UInt16} (he : c.program.decl? id = some e) (hk : e.kind = .var)
      (ht : e.table = Program.classTable) (hr : c.pool.refs[id]? = some index)
      (h : ExpressionCode c value code) (hv : c.program.yieldsValue value = true) :
      StatementCode c d (.binary .assign (.name x (some id) spot) value place)
        (code ++ [{ op := .putStatic, operand := index.toNat }])
  | call {callee : Text} {arguments : List Node} {link : Option DeclId} {place : Position}
      {code : Code} (h : ExpressionCode c (.call callee arguments link place) code) :
      StatementCode c d (.call callee arguments link place)
        (code ++ if c.program.returnsValue link then [{ op := .pop }] else [])
  | leave {place : Position} (hd : d.type = .void) :
      StatementCode c d (.exit .absent place) [{ op := .vreturn }]
  | answer {value : Node} {place : Position} {code : Code} (hd : d.type = .int)
      (h : ExpressionCode c value code) (hv : c.program.yieldsValue value = true) :
      StatementCode c d (.exit value place) (code ++ [{ op := .ireturn }])
  | branch {condition : Node} {thens elses : List Node} {thenPlace elsePlace place : Position}
      {condCode thenCode elseCode : Code} (hc : ExpressionCode c condition condCode)
      (hv : c.program.yieldsValue condition = true) (ht : StatementsCode c d thens thenCode)
      (he : StatementsCode c d elses elseCode)
      (hskip : fitsBranch
        ((elseCode ++ joinCode (Node.allComplete elses) thenCode).size + 3 : Nat) = true)
      (hjoin : Node.allComplete elses = true → fitsBranch (thenCode.size + 3 : Nat) = true) :
      StatementCode c d (.branch condition (.block thens thenPlace) (.block elses elsePlace) place)
        (selectCode condCode (elseCode ++ joinCode (Node.allComplete elses) thenCode) thenCode)
  | loop {condition : Node} {body : List Node} {bodyPlace place : Position}
      {condCode bodyCode : Code} (hc : ExpressionCode c condition condCode)
      (hv : c.program.yieldsValue condition = true) (hb : StatementsCode c d body bodyCode)
      (hleave : fitsBranch (bodyCode.size + 6 : Nat) = true)
      (hagain : fitsBranch (-(bodyCode.size + 3 + condCode.size + 1 : Nat)) = true) :
      StatementCode c d (.loop condition (.block body bodyPlace) place)
        (repeatCode condCode bodyCode)

/-- `code` stands for several statements, of which only the last may not complete. -/
inductive StatementsCode (c : EmitContext) (d : Declaration) : List Node → Code → Prop
  | nil : StatementsCode c d [] []
  | cons {s : Node} {rest : List Node} {code others : Code} (h : StatementCode c d s code)
      (hreach : s.completes = true ∨ rest = []) (hr : StatementsCode c d rest others) :
      StatementsCode c d (s :: rest) (code ++ others)

end

/-! ### Emitted code follows the rules -/

namespace EmitContext

variable {c : EmitContext} {t : TableId}

/-- The context of a procedure with the table `t`: its slots are those of the declarations of the
table. -/
structure Fits (c : EmitContext) (t : TableId) : Prop where
  /-- The program is well formed. -/
  wellFormed : c.program.WellFormed
  /-- The table is not that of the class. -/
  ne_class : t ≠ Program.classTable
  /-- Exactly the declarations of the table have slots. -/
  slot_iff : ∀ id, (∃ n, c.slots[id]? = some n) ↔
    ∃ d, c.program.decl? id = some d ∧ d.table = t

theorem Fits.slot_eq_none (hc : c.Fits t) {id : DeclId} {d : Declaration}
    (hd : c.program.decl? id = some d) (ht : d.table = Program.classTable) :
    c.slots[id]? = none := by
  rw [Option.eq_none_iff_forall_not_mem]
  intro n hn
  obtain ⟨e, he, htable⟩ := (hc.slot_iff id).1 ⟨n, hn⟩
  obtain rfl := Option.some.inj (hd.symm.trans he)
  exact hc.ne_class (htable.symm.trans ht)

theorem Fits.kind_eq_var (hc : c.Fits t) {id : DeclId} {d : Declaration}
    (hd : c.program.decl? id = some d) (hk : d.kind ≠ .constant) (hv : d.isValue = true)
    (ht : d.table = Program.classTable) : d.kind = .var := by
  have hparam := hc.wellFormed.member_kind id d hd ht
  unfold Declaration.isValue at hv
  cases hkind : d.kind <;> simp_all

theorem prepend_eq_ok {i : Except EmitError Instruction} {rest : Except EmitError Code}
    {code : Code} (h : prepend i rest = .ok code) :
    ∃ i' r, i = .ok i' ∧ rest = .ok r ∧ code = i' :: r := by
  simp only [prepend, bind_eq_ok, pure_eq_ok] at h
  obtain ⟨i', hi, r, hr, rfl⟩ := h
  exact ⟨i', r, hi, hr, rfl⟩

theorem reference_eq_ok {id : DeclId} {index : Int} (h : c.reference (some id) = .ok index) :
    ∃ ref, c.pool.refs[id]? = some ref ∧ index = ref.toNat := by
  unfold reference at h
  rw [Option.bind_some] at h
  split at h
  · rename_i ref href
    exact ⟨ref, href, (Except.ok.inj h).symm⟩
  · simp at h

/-- The rules for reading a name. -/
theorem expressionCode_of_readName (hc : c.Fits t) {id : DeclId} {d : Declaration}
    (hd : c.program.decl? id = some d) (hv : d.isValue = true)
    (ht : d.table = t ∨ d.table = Program.classTable) {place : Position} {i : Instruction}
    (h : c.readName (some id) place = .ok i) (x : Text) :
    ExpressionCode c (.name x (some id) place) [i] := by
  unfold readName at h
  rw [Option.bind_some, hd] at h
  by_cases hk : d.kind = .constant
  · refine .constant hd hk ?_
    cases d
    simp only at hk
    subst hk
    exact h
  · rcases ht with ht | ht
    · obtain ⟨n, hn⟩ := (hc.slot_iff id).2 ⟨d, hd, ht⟩
      rw [slot?, Option.bind_some, hn] at h
      have hi : (.ok (loadSlot n) : Except EmitError Instruction) = .ok i := by
        cases d with
        | mk kind => cases kind <;> first | exact h | exact absurd rfl hk
      obtain rfl := Except.ok.inj hi
      exact .slot hd hk (ht ▸ hc.ne_class) hn
    · rw [slot?, Option.bind_some, hc.slot_eq_none hd ht] at h
      have hi : (c.reference (some id) >>= fun index =>
          pure ({ op := .getStatic, operand := index } : Instruction)) = .ok i := by
        cases d with
        | mk kind => cases kind <;> first | exact h | exact absurd rfl hk
      simp only [bind_eq_ok, pure_eq_ok] at hi
      obtain ⟨index, hindex, rfl⟩ := hi
      obtain ⟨ref, href, rfl⟩ := reference_eq_ok hindex
      exact .field hd (hc.kind_eq_var hd hk hv ht) ht href

theorem operatorOnto_eq_ok {op : Operator} {place : Position} {rest : Except EmitError Code}
    {code : Code} (h : operatorOnto op place rest = .ok code) :
    ∃ oc r, operatorCode? op = some oc ∧ rest = .ok r ∧ code = oc ++ r := by
  unfold operatorOnto at h
  split at h
  · rename_i oc hoc
    cases rest with
    | error e => simp [Except.map] at h
    | ok r => exact ⟨oc, r, hoc, rfl, (Except.ok.inj h).symm⟩
  · simp at h

theorem requireValue_eq_ok {p : Program} {node : Node} {cause : Cause}
    (h : p.requireValue node cause = .ok ()) : p.yieldsValue node = true := by
  unfold Program.requireValue at h
  split at h
  · assumption
  · simp at h

theorem checkExpression_binary {p : Program} {op : Operator} {left right : Node}
    {place : Position} (hop : op ≠ .assign)
    (h : p.checkExpression (.binary op left right place) = .ok ()) :
    p.checkExpression left = .ok () ∧ p.yieldsValue left = true ∧
      p.checkExpression right = .ok () ∧ p.yieldsValue right = true := by
  have h : (do
      p.checkExpression left
      p.requireValue left (.operandYieldsNothing op)
      p.checkExpression right
      p.requireValue right (.operandYieldsNothing op)) = Except.ok () := by
    rw [← h]
    cases op <;> first | rfl | exact absurd rfl hop
  simp only [bind_eq_ok] at h
  obtain ⟨_, hl, _, hvl, _, hr, hvr⟩ := h
  exact ⟨hl, requireValue_eq_ok hvl, hr, requireValue_eq_ok hvr⟩

/-- What is emitted for a linked and checked expression follows the rules. -/
theorem expressionCode_of_expression (hc : c.Fits t) {e : Node}
    (he : e.LinkedExpression c.program t) {rest : Except EmitError Code} {code : Code}
    (hcheck : c.program.checkExpression e = .ok ()) (h : c.expression e rest = .ok code) :
    ∃ ce r, rest = .ok r ∧ code = ce ++ r ∧ ExpressionCode c e ce := by
  induction he generalizing rest code with
  | literal =>
    rw [expression] at h
    obtain ⟨i, r, hi, hr, rfl⟩ := prepend_eq_ok h
    exact ⟨[i], r, hr, rfl, .literal hi⟩
  | name hd hv ht =>
    rw [expression] at h
    obtain ⟨i, r, hi, hr, rfl⟩ := prepend_eq_ok h
    exact ⟨[i], r, hr, rfl, expressionCode_of_readName hc hd hv ht hi _⟩
  | @call callee arguments id d place hd hk hn ha ih =>
    rw [expression] at h
    rw [Program.checkExpression] at hcheck
    -- the arguments one by one, each checked to have a value
    have hargs : ∀ (es : List Node) (hes : ∀ a ∈ es, a ∈ arguments)
        (hcheck : c.program.checkArguments callee es = .ok ()) {rest : Except EmitError Code}
        {code : Code} (h : c.expressions es rest = .ok code),
        ∃ ce r, rest = .ok r ∧ code = ce ++ r ∧ ArgumentsCode c es ce := by
      intro es
      induction es with
      | nil =>
        intro _ _ rest code h
        exact ⟨[], code, h, rfl, .nil⟩
      | cons e es ihes =>
        intro hes hcheck rest code h
        rw [List.forall_mem_cons] at hes
        simp only [Program.checkArguments, bind_eq_ok] at hcheck
        obtain ⟨_, he, _, hv, hcheck⟩ := hcheck
        rw [expressions] at h
        obtain ⟨ce, r₁, hr₁, rfl, hce⟩ := ih e hes.1 he h
        obtain ⟨ces, r, hr, rfl, hces⟩ := ihes hes.2 hcheck hr₁
        exact ⟨ce ++ ces, r, hr, by rw [List.append_assoc],
          .cons hce (requireValue_eq_ok hv) hces⟩
    -- behind them the call by its reference
    obtain ⟨ca, r₁, hr₁, rfl, hca⟩ := hargs arguments (fun a ha => ha) hcheck h
    obtain ⟨i, r, hi, hr, rfl⟩ := prepend_eq_ok hr₁
    simp only [invocation, bind_eq_ok, pure_eq_ok] at hi
    obtain ⟨index, hindex, rfl⟩ := hi
    obtain ⟨ref, href, rfl⟩ := reference_eq_ok hindex
    exact ⟨_, r, hr, by rw [List.append_assoc]; rfl, .call hd hk hn href hca⟩
  | binary hop _ _ ihl ihr =>
    obtain ⟨hl, hvl, hr, hvr⟩ := checkExpression_binary hop hcheck
    rw [expression] at h
    obtain ⟨cl, r₁, hr₁, rfl, hcl⟩ := ihl hl h
    obtain ⟨cr, r₂, hr₂, rfl, hcr⟩ := ihr hr hr₁
    obtain ⟨oc, r, hoc, hr, rfl⟩ := operatorOnto_eq_ok hr₂
    exact ⟨_, r, hr, by simp only [List.append_assoc], .binary hoc hcl hvl hcr hvr⟩

theorem branchTo_eq_ok {op : Opcode} {distance : Int} {place : Position} {i : Instruction}
    (h : branchTo op distance place = .ok i) :
    fitsBranch distance = true ∧ i = { op, operand := distance } := by
  unfold branchTo at h
  split at h
  · rename_i hfits
    exact ⟨hfits, (Except.ok.inj h).symm⟩
  · simp at h

/-- The parts of an `if` and the distances of its branches. -/
theorem branchCode_eq_ok {condition thenCode elseCode code : Code} {joins : Bool}
    {place : Position} (h : branchCode condition thenCode elseCode joins place = .ok code) :
    fitsBranch ((elseCode ++ joinCode joins thenCode).size + 3 : Nat) = true ∧
      (joins = true → fitsBranch (thenCode.size + 3 : Nat) = true) ∧
      code = selectCode condition (elseCode ++ joinCode joins thenCode) thenCode := by
  have hgotoSize : ((thenCode.size + 3 : Nat) : Int) = thenCode.size + 3 := Int.natCast_add _ _
  cases joins with
  | true =>
    simp only [branchCode, if_true, bind_eq_ok, pure_eq_ok] at h
    obtain ⟨skip, hskip, i, hi, join, rfl, rfl⟩ := h
    obtain ⟨hfits, rfl⟩ := branchTo_eq_ok hskip
    obtain ⟨hgoto, rfl⟩ := branchTo_eq_ok hi
    have hsize : ((elseCode ++ joinCode true thenCode).size + 3 : Nat) =
        (elseCode.size + 6 : Int) := by
      rw [Code.size_append, Nat.add_assoc]
      exact Int.natCast_add _ _
    refine ⟨by rw [hsize, hfits], fun _ => by rw [hgotoSize, hgoto], ?_⟩
    rw [selectCode, hsize, joinCode, if_pos rfl, hgotoSize, List.append_assoc]
  | false =>
    simp only [branchCode, Bool.false_eq_true, if_false, bind_eq_ok, pure_eq_ok] at h
    obtain ⟨skip, hskip, join, rfl, rfl⟩ := h
    obtain ⟨hfits, rfl⟩ := branchTo_eq_ok hskip
    have hsize : ((elseCode ++ joinCode false thenCode).size + 3 : Nat) =
        (elseCode.size + 3 : Int) := by
      rw [Code.size_append]
      exact Int.natCast_add _ _
    refine ⟨by rw [hsize, hfits], by simp, ?_⟩
    rw [selectCode, hsize, joinCode, if_neg (by simp), List.append_nil, List.nil_append]

/-- The parts of a `while` and the distances of its branches. -/
theorem loopCode_eq_ok {condition body code : Code} {place : Position}
    (h : loopCode condition body place = .ok code) :
    fitsBranch (body.size + 6 : Nat) = true ∧
      fitsBranch (-(body.size + 3 + condition.size + 1 : Nat)) = true ∧
      code = repeatCode condition body := by
  simp only [loopCode, bind_eq_ok, pure_eq_ok] at h
  obtain ⟨leave, hleave, again, hagain, rfl⟩ := h
  obtain ⟨hfits, rfl⟩ := branchTo_eq_ok hleave
  obtain ⟨hback, rfl⟩ := branchTo_eq_ok hagain
  have hleaveSize : ((body.size + 6 : Nat) : Int) = body.size + 6 := Int.natCast_add _ _
  have hagainSize : ((body.size + 3 + condition.size + 1 : Nat) : Int) =
      body.size + 3 + condition.size + 1 := by
    rw [Int.natCast_add, Int.natCast_add, Int.natCast_add]
    rfl
  refine ⟨by rw [hleaveSize, hfits], by rw [hagainSize, hback], ?_⟩
  rw [repeatCode, hleaveSize, hagainSize]

/-- The rules for writing a name. -/
theorem statementCode_of_writeName (hc : c.Fits t) {d e : Declaration} {id : DeclId}
    (he : c.program.decl? id = some e) (hk : e.kind ≠ .constant) (hv : e.isValue = true)
    (ht : e.table = t ∨ e.table = Program.classTable) {i : Instruction}
    (h : c.writeName (some id) = .ok i) {value : Node} {code : Code}
    (hvalue : ExpressionCode c value code) (hyields : c.program.yieldsValue value = true) (x : Text)
    (spot place : Position) :
    StatementCode c d (.binary .assign (.name x (some id) spot) value place) (code ++ [i]) := by
  unfold writeName at h
  rw [slot?, Option.bind_some] at h
  rcases ht with ht | ht
  · obtain ⟨n, hn⟩ := (hc.slot_iff id).2 ⟨e, he, ht⟩
    rw [hn] at h
    obtain rfl := Except.ok.inj h
    exact .assignSlot he hk (ht ▸ hc.ne_class) hn hvalue hyields
  · rw [hc.slot_eq_none he ht] at h
    simp only [bind_eq_ok, pure_eq_ok] at h
    obtain ⟨index, hindex, rfl⟩ := h
    obtain ⟨ref, href, rfl⟩ := reference_eq_ok hindex
    exact .assignField he (hc.kind_eq_var he hk hv ht) ht href hvalue hyields

theorem checkExit_eq_ok {p : Program} {d : Declaration} {value : Node} {place : Position}
    (h : p.checkExit d value place = .ok ()) :
    p.checkExpression value = .ok () ∧
      (d.type = .void → value = .absent) ∧ (d.type = .int → p.yieldsValue value = true) := by
  simp only [Program.checkExit, bind_eq_ok] at h
  obtain ⟨_, hcheck, h⟩ := h
  refine ⟨hcheck, fun hd => ?_, fun hd => ?_⟩
  · rw [hd] at h
    cases value <;> first | rfl | simp [Node.isPresent] at h
  · rw [hd] at h
    by_contra hv
    simp [hv] at h

/-- The code of a `return` with a value. -/
theorem statement_exit {value : Node} (h : value ≠ .absent) (place : Position) :
    c.statement (.exit value place) = c.expression value (.ok [{ op := .ireturn }]) := by
  cases value <;> first | rfl | exact absurd rfl h

/-- What is emitted for several statements follows the rules if it does so for each of them. -/
theorem statementsCode_of_forall {d : Declaration} {ss : List Node}
    (ih : ∀ s ∈ ss, ∀ {code : Code}, c.program.checkStatement d s = .ok () →
      s.checkReachable = .ok () → c.statement s = .ok code → StatementCode c d s code)
    {used : Nat} {code : Code} (hcheck : c.program.checkStatements d ss = .ok ())
    (hreach : Node.checkReachableAll ss = .ok ()) (h : c.statements used ss = .ok code) :
    StatementsCode c d ss code := by
  induction ss generalizing used code with
  | nil =>
    rw [statements] at h
    obtain rfl := Except.ok.inj h
    exact .nil
  | cons s rest ihs =>
    rw [List.forall_mem_cons] at ih
    simp only [Program.checkStatements, bind_eq_ok] at hcheck
    obtain ⟨_, hs, hrest⟩ := hcheck
    obtain ⟨hr, hlast, hrs⟩ := Node.checkReachableAll_cons hreach
    simp only [statements, bind_eq_ok] at h
    obtain ⟨code, hcode, h⟩ := h
    split at h
    · simp at h
    · simp only [bind_eq_ok, pure_eq_ok] at h
      obtain ⟨others, hothers, rfl⟩ := h
      exact .cons (ih.1 hs hr hcode) hlast (ihs ih.2 hrest hrs hothers)

/-- What is emitted for a linked and checked statement follows the rules. -/
theorem statementCode_of_statement (hc : c.Fits t) {d : Declaration} {s : Node}
    (hs : s.LinkedStatement c.program t) {code : Code}
    (hcheck : c.program.checkStatement d s = .ok ()) (hreach : s.checkReachable = .ok ())
    (h : c.statement s = .ok code) : StatementCode c d s code := by
  induction hs generalizing code with
  | @assign x id e value spot place hd hv ht hvalue =>
    simp only [Program.checkStatement, Program.checkAssignment, bind_eq_ok] at hcheck
    obtain ⟨_, hexpr, _, hyields, hk⟩ := hcheck
    -- the check refuses a constant
    have hkind : e.kind ≠ .constant := by
      intro hconst
      simp [Program.hasKind, hd, hconst] at hk
    rw [statement] at h
    obtain ⟨ce, r, hr, rfl, hce⟩ := expressionCode_of_expression hc hvalue hexpr h
    obtain ⟨i, rest, hi, hrest, rfl⟩ := prepend_eq_ok hr
    obtain rfl := Except.ok.inj hrest
    exact statementCode_of_writeName hc hd hkind hv ht hi hce (requireValue_eq_ok hyields) x spot
      place
  | call hcall =>
    rw [statement] at h
    obtain ⟨ce, r, hr, rfl, hce⟩ := expressionCode_of_expression hc hcall hcheck h
    obtain rfl := Except.ok.inj hr
    exact .call hce
  | leave =>
    rw [statement] at h
    obtain rfl := Except.ok.inj h
    rw [Program.checkStatement] at hcheck
    -- the check asks for a value exactly in a procedure that returns one
    obtain ⟨-, -, hint⟩ := checkExit_eq_ok hcheck
    cases hd : d.type with
    | void => exact .leave hd
    | int => exact absurd (hint hd) (by simp [Program.yieldsValue])
  | @answer value place hvalue =>
    have hne : value ≠ .absent := by
      rintro rfl
      cases hvalue
    rw [statement_exit hne] at h
    rw [Program.checkStatement] at hcheck
    obtain ⟨hexpr, hvoid, hint⟩ := checkExit_eq_ok hcheck
    obtain ⟨ce, r, hr, rfl, hce⟩ := expressionCode_of_expression hc hvalue hexpr h
    obtain rfl := Except.ok.inj hr
    cases hd : d.type with
    | void => exact absurd (hvoid hd) hne
    | int => exact .answer hd hce (hint hd)
  | branch hcond _ _ iht ihe =>
    simp only [Program.checkStatement, Program.checkCondition, bind_eq_ok] at hcheck
    -- the condition and both blocks have passed their checks and been emitted
    obtain ⟨_, ⟨_, hexpr, hyields⟩, _, hthens, helses⟩ := hcheck
    simp only [Node.checkReachable, Node.checkReachableIn, bind_eq_ok] at hreach
    obtain ⟨_, hrt, hre⟩ := hreach
    simp only [statement, bind_eq_ok] at h
    obtain ⟨cc, hcc, ct, hct, ce, hce, h⟩ := h
    obtain ⟨condCode, r, hr, rfl, hcondCode⟩ := expressionCode_of_expression hc hcond hexpr hcc
    obtain rfl := Except.ok.inj hr
    rw [List.append_nil] at h
    obtain ⟨hskip, hjoin, rfl⟩ := branchCode_eq_ok h
    exact .branch hcondCode (requireValue_eq_ok hyields)
      (statementsCode_of_forall iht hthens hrt hct) (statementsCode_of_forall ihe helses hre hce)
      hskip hjoin
  | loop hcond _ ihb =>
    simp only [Program.checkStatement, Program.checkCondition, bind_eq_ok] at hcheck
    obtain ⟨_, ⟨_, hexpr, hyields⟩, hbody⟩ := hcheck
    simp only [Node.checkReachable, Node.checkReachableIn] at hreach
    simp only [statement, bind_eq_ok] at h
    obtain ⟨cc, hcc, cb, hcb, h⟩ := h
    obtain ⟨condCode, r, hr, rfl, hcondCode⟩ := expressionCode_of_expression hc hcond hexpr hcc
    obtain rfl := Except.ok.inj hr
    rw [List.append_nil] at h
    obtain ⟨hleave, hagain, rfl⟩ := loopCode_eq_ok h
    exact .loop hcondCode (requireValue_eq_ok hyields)
      (statementsCode_of_forall ihb hbody hreach hcb) hleave hagain

end EmitContext

end Classwright
