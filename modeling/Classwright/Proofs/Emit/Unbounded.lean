import Classwright.Proofs.Emit.Found
import Classwright.Proofs.Emit.Methods
import Classwright.Proofs.Tree.Nodes

/-!
# The layout of code without limits

The layout of a tree is the code it would have if methods could be of any length and branches could
go any distance (`EmitContext.expressionLayout`, `EmitContext.statementLayout`).  When all that a
linked tree refers to is in the pool, an expression is emitted exactly as it is laid out
(`EmitContext.expression_eq`), and a statement is so unless its layout breaks a limit, in which case
emission stops there (`EmitContext.statement_meets`).
-/

namespace Classwright

/-! ### Layouts -/

/-- The code of a single instruction, empty if there is none. -/
def instructionLayout : Except EmitError Instruction → Code
  | .ok i => [i]
  | .error _ => []

namespace EmitContext

mutual

/-- The layout of an expression. -/
def expressionLayout (c : EmitContext) : Node → Code
  | .literal value place => instructionLayout (c.push value place)
  | .name _ link place => instructionLayout (c.readName link place)
  | .call _ arguments link _ =>
    argumentsLayout c arguments ++ instructionLayout (c.invocation link)
  | .binary op left right _ =>
    expressionLayout c left ++ (expressionLayout c right ++ (operatorCode? op).getD [])
  | _ => []

/-- The layout of arguments, one after the other. -/
def argumentsLayout (c : EmitContext) : List Node → Code
  | [] => []
  | e :: rest => expressionLayout c e ++ argumentsLayout c rest

end

mutual

/-- The layout of a statement. -/
def statementLayout (c : EmitContext) : Node → Code
  | .binary .assign (.name _ link _) right _ =>
    c.expressionLayout right ++ instructionLayout (c.writeName link)
  | .call callee arguments link place =>
    c.expressionLayout (.call callee arguments link place) ++
      if c.program.returnsValue link then [{ op := .pop }] else []
  | .exit .absent _ => [{ op := .vreturn }]
  | .exit value _ => c.expressionLayout value ++ [{ op := .ireturn }]
  | .branch condition thenBlock elseBlock _ =>
    selectCode (c.expressionLayout condition)
      (statementLayout c elseBlock ++ joinCode elseBlock.completes (statementLayout c thenBlock))
      (statementLayout c thenBlock)
  | .loop condition body _ => repeatCode (c.expressionLayout condition) (statementLayout c body)
  | .block body _ => statementsLayout c body
  | _ => []

/-- The layout of several statements, one after the other. -/
def statementsLayout (c : EmitContext) : List Node → Code
  | [] => []
  | s :: rest => statementLayout c s ++ statementsLayout c rest

end

end EmitContext

/-! ### Limits -/

namespace Code

/-- The distance of each branch fits two bytes. -/
def BranchesFit (code : Code) : Prop :=
  ∀ i ∈ code, i.op.operand = .branch → fitsBranch i.operand = true

/-- The code of a method keeps within the limits of the format. -/
def WithinLimits (code : Code) : Prop :=
  code.size ≤ maxCodeLength ∧ code.BranchesFit

theorem BranchesFit.part {part code : Code} (h : code.BranchesFit) (hpart : part <:+: code) :
    part.BranchesFit :=
  fun i hi => h i (hpart.subset hi)

theorem size_le_of_infix {part code : Code} (h : part <:+: code) : part.size ≤ code.size := by
  obtain ⟨before, behind, rfl⟩ := h
  simp only [size_append]
  omega

@[simp] theorem branchesFit_nil : BranchesFit [] := by
  simp [BranchesFit]

theorem branchesFit_append {code others : Code} :
    (code ++ others).BranchesFit ↔ code.BranchesFit ∧ others.BranchesFit :=
  List.forall_mem_append

theorem branchesFit_cons {i : Instruction} {rest : Code} :
    BranchesFit (i :: rest) ↔
      (i.op.operand = .branch → fitsBranch i.operand = true) ∧ BranchesFit rest :=
  List.forall_mem_cons

end Code

/-- The branches of an operator are short. -/
theorem branchesFit_operatorCode (op : Operator) :
    Code.BranchesFit ((operatorCode? op).getD []) := by
  have hcompare (op : Opcode) : Code.BranchesFit (comparisonCode op) := by
    simp only [comparisonCode, Code.branchesFit_cons]
    exact ⟨fun _ => by decide, by decide, by decide, by decide, by simp⟩
  cases op with
  | assign | add | subtract | multiply | divide =>
    simp [operatorCode?, Code.BranchesFit, Opcode.operand]
  | _ => exact hcompare _

theorem isInfix_selectCode_other (condition other chosen : Code) :
    other <:+: selectCode condition other chosen :=
  ⟨{ op := .iconst1 } :: (condition ++ [{ op := .ifEq, operand := (other.size + 3 : Nat) }]),
    chosen, by simp [selectCode]⟩

theorem isInfix_selectCode_chosen (condition other chosen : Code) :
    chosen <:+: selectCode condition other chosen :=
  ⟨{ op := .iconst1 } ::
      (condition ++ ({ op := .ifEq, operand := (other.size + 3 : Nat) } :: other)),
    [], by simp [selectCode]⟩

theorem isInfix_repeatCode (condition body : Code) : body <:+: repeatCode condition body :=
  ⟨{ op := .iconst0 } :: (condition ++ [{ op := .ifEq, operand := (body.size + 6 : Nat) }]),
    [{ op := .goto, operand := -(body.size + 3 + condition.size + 1 : Nat) }],
    by simp [repeatCode]⟩

/-- `x` yields `code` behind `used` bytes of the same block, with branches that fit, or stops at a
limit of the format, which `code` breaks there. -/
inductive Meets (used : Nat) (code : Code) : Except EmitError Code → Prop
  | done (h : code.BranchesFit) : Meets used code (.ok code)
  | stopped {e : CompileError} (hk : e.kind = .methodTooLong ∨ e.kind = .branchOffsetOutOfRange)
      (h : code.BranchesFit → maxCodeLength < used + code.size) :
      Meets used code (.error (.compile e))

/-- A step that lays out a part of some code, in front of one that goes on with it: a limit that the
part breaks is broken by the whole. -/
theorem Meets.bind {used used' : Nat} {part code : Code} {x : Except EmitError Code}
    {f : Code → Except EmitError Code} (hx : Meets used part x) (hpart : part <:+: code)
    (hused : used ≤ used') (hf : part.BranchesFit → Meets used' code (f part)) :
    Meets used' code (x >>= f) := by
  cases hx with
  | done hfit => exact hf hfit
  | stopped hk hlong =>
    refine .stopped hk fun hfit => ?_
    have hpartLong := hlong (hfit.part hpart)
    have hsize := Code.size_le_of_infix hpart
    omega

/-- Procedures belong to the class. -/
theorem Program.WellFormed.procedure_table_eq {p : Program} (hp : p.WellFormed) {id : DeclId}
    {d : Declaration} (hd : p.decl? id = some d) (hk : d.kind = .procedure) :
    d.table = classTable := by
  by_contra htable
  rcases hp.local_kind id d hd htable with h | h <;> simp [h] at hk

namespace EmitContext

variable {c : EmitContext} {t : TableId}

/-! ### Branches -/

/-- A branch of the layout goes where it should, or emission stops at it. -/
theorem meets_branchTo {used : Nat} {op : Opcode} {distance : Int} {place : Position} {code : Code}
    {f : Instruction → Except EmitError Code} (hop : op.operand = .branch)
    (hmem : { op, operand := distance } ∈ code)
    (hf : fitsBranch distance = true → Meets used code (f { op, operand := distance })) :
    Meets used code (branchTo op distance place >>= f) := by
  unfold branchTo
  split
  · rename_i hfits
    exact hf hfits
  · rename_i hfits
    exact .stopped (Or.inr rfl) fun hfit => absurd (hfit _ hmem hop) hfits

/-- An `if` is laid out around its parts if the distances of its branches fit. -/
theorem meets_branchCode {condition thenCode elseCode : Code} {joins : Bool} {place : Position}
    (hc : condition.BranchesFit) (ht : thenCode.BranchesFit) (he : elseCode.BranchesFit) :
    Meets 0 (selectCode condition (elseCode ++ joinCode joins thenCode) thenCode)
      (branchCode condition thenCode elseCode joins place) := by
  have hgoto : ((thenCode.size + 3 : Nat) : Int) = thenCode.size + 3 := Int.natCast_add _ _
  -- The first branch skips the else code and the jump behind it, if there is one.
  have hskip : ((elseCode ++ joinCode joins thenCode).size + 3 : Nat) =
      (elseCode.size + if joins then 6 else 3 : Int) := by
    rw [Code.size_append]
    cases joins with
    | true => exact Int.natCast_add (elseCode.size) 6
    | false => exact Int.natCast_add (elseCode.size) 3
  rw [selectCode, hskip, branchCode]
  refine meets_branchTo rfl (by simp) fun hfits => ?_
  cases joins with
  | false =>
    simp only [joinCode, Bool.false_eq_true, if_false, List.append_nil]
    refine .done ?_
    simp only [Code.branchesFit_cons, Code.branchesFit_append]
    exact ⟨by simp [Opcode.operand], hc, fun _ => hfits, he, ht⟩
  | true =>
    simp only [joinCode, if_true, hgoto]
    refine meets_branchTo rfl (by simp) fun hfits' => ?_
    rw [List.append_assoc]
    refine .done ?_
    simp only [Code.branchesFit_cons, Code.branchesFit_append]
    exact ⟨by simp [Opcode.operand], hc, fun _ => hfits, he, ⟨fun _ => hfits', by simp⟩, ht⟩

/-- A `while` is laid out around its parts if the distances of its branches fit. -/
theorem meets_loopCode {condition body : Code} {place : Position} (hc : condition.BranchesFit)
    (hb : body.BranchesFit) :
    Meets 0 (repeatCode condition body) (loopCode condition body place) := by
  -- The first branch leaves over the body and the jump behind it, which goes back over all.
  have hleave : ((body.size + 6 : Nat) : Int) = body.size + 6 := Int.natCast_add _ _
  have hagain : (-(body.size + 3 + condition.size + 1 : Nat) : Int) =
      -(body.size + 3 + condition.size + 1 : Int) := by
    push_cast
    rfl
  rw [repeatCode, hleave, hagain, loopCode]
  refine meets_branchTo rfl (by simp) fun hfits => ?_
  refine meets_branchTo rfl (by simp) fun hfits' => ?_
  refine .done ?_
  simp only [Code.branchesFit_cons, Code.branchesFit_append]
  exact ⟨by simp [Opcode.operand], hc, fun _ => hfits, hb, fun _ => hfits', by simp⟩

/-! ### Pools that hold what is needed -/

/-- The pool has what the trees of the program refer to, except for their numbers. -/
structure Stocked (c : EmitContext) (t : TableId) : Prop where
  /-- The context is that of a procedure with the table `t`. -/
  fits : c.Fits t
  /-- There is a reference for each declaration of the class. -/
  refs : ∀ id d, c.program.decl? id = some d → d.table = Program.classTable →
    c.pool.Finds (.ref id)
  /-- The values of constants are there. -/
  constants : ∀ id d, c.program.decl? id = some d → d.kind = .constant →
    c.pool.Finds (.integer d.value)

/-- The pool has the numbers of a tree that must be loaded from it. -/
def HasLiterals (c : EmitContext) (node : Node) : Prop :=
  ∀ v ∈ PoolBuilder.poolLiterals node, c.pool.Finds (.integer v)

theorem hasLiterals_iff {node : Node} : c.HasLiterals node ↔
    ∀ n ∈ node.nodes, ∀ v place, n = .literal v place → fitsShortPush v.toInt = false →
      c.pool.Finds (.integer v) := by
  simp only [HasLiterals, PoolBuilder.poolLiterals, List.mem_filterMap]
  constructor
  · rintro h n hn v place rfl hlarge
    exact h v ⟨_, hn, by simp [hlarge]⟩
  · rintro h v ⟨n, hn, hv⟩
    split at hv
    · split at hv
      · cases hv
      · rename_i hlarge
        obtain rfl := Option.some.inj hv
        exact h _ hn _ _ rfl (Bool.eq_false_iff.2 hlarge)
    · cases hv

/-- A tree whose nodes include those of another one has its numbers. -/
theorem HasLiterals.part {node part : Node} (h : c.HasLiterals node)
    (hpart : part.nodes ⊆ node.nodes) : c.HasLiterals part :=
  hasLiterals_iff.2 fun n hn => hasLiterals_iff.1 h n (hpart hn)

theorem HasLiterals.binary {op : Operator} {left right : Node} {place : Position}
    (h : c.HasLiterals (.binary op left right place)) :
    c.HasLiterals left ∧ c.HasLiterals right := by
  have hnodes := Node.nodes_binary op left right place
  exact ⟨h.part (hnodes ▸ List.subset_cons_of_subset _ (List.subset_append_left _ _)),
    h.part (hnodes ▸ List.subset_cons_of_subset _ (List.subset_append_right _ _))⟩

theorem HasLiterals.argument {callee : Text} {arguments : List Node} {link : Option DeclId}
    {place : Position} (h : c.HasLiterals (.call callee arguments link place)) :
    ∀ e ∈ arguments, c.HasLiterals e := by
  intro e he
  refine h.part ?_
  rw [Node.nodes_call]
  exact List.subset_cons_of_subset _ fun n hn => List.mem_flatMap.2 ⟨e, he, hn⟩

theorem HasLiterals.value {value : Node} {place : Position}
    (h : c.HasLiterals (.exit value place)) : c.HasLiterals value :=
  h.part (Node.nodes_exit value place ▸ List.subset_cons_self _ _)

theorem HasLiterals.branch {condition thenBlock elseBlock : Node} {place : Position}
    (h : c.HasLiterals (.branch condition thenBlock elseBlock place)) :
    c.HasLiterals condition ∧ c.HasLiterals thenBlock ∧ c.HasLiterals elseBlock := by
  have hnodes := Node.nodes_branch condition thenBlock elseBlock place
  refine ⟨h.part ?_, h.part ?_, h.part ?_⟩ <;> rw [hnodes] <;>
    intro n hn <;> simp [hn]

theorem HasLiterals.loop {condition body : Node} {place : Position}
    (h : c.HasLiterals (.loop condition body place)) :
    c.HasLiterals condition ∧ c.HasLiterals body := by
  have hnodes := Node.nodes_loop condition body place
  refine ⟨h.part ?_, h.part ?_⟩ <;> rw [hnodes] <;> intro n hn <;> simp [hn]

theorem HasLiterals.statement {statements : List Node} {place : Position}
    (h : c.HasLiterals (.block statements place)) : ∀ s ∈ statements, c.HasLiterals s := by
  intro s hs
  refine h.part ?_
  rw [Node.nodes_block]
  exact List.subset_cons_of_subset _ fun n hn => List.mem_flatMap.2 ⟨s, hs, hn⟩

theorem exists_push {v : Int32} (place : Position)
    (h : fitsShortPush v.toInt = false → c.pool.Finds (.integer v)) :
    ∃ i, c.push v place = .ok i := by
  unfold push
  split
  · exact ⟨_, rfl⟩
  · split
    · exact ⟨_, rfl⟩
    · rename_i hlarge
      obtain ⟨index, hindex⟩ := h (Bool.eq_false_iff.2 hlarge)
      rw [hindex]
      exact ⟨_, rfl⟩

theorem exists_reference {id : DeclId} (h : c.pool.Finds (.ref id)) :
    ∃ index, c.reference (some id) = .ok index := by
  obtain ⟨index, hindex⟩ := h
  exact ⟨index.toNat, by rw [reference, Option.bind_some, hindex]⟩

theorem exists_invocation {id : DeclId} (h : c.pool.Finds (.ref id)) :
    ∃ i, c.invocation (some id) = .ok i := by
  obtain ⟨index, hindex⟩ := exists_reference h
  exact ⟨_, by rw [invocation, hindex]; rfl⟩

namespace Stocked

/-- Every declaration that code refers to has a slot or a reference. -/
theorem slot_or_reference (hc : c.Stocked t) {id : DeclId} {d : Declaration}
    (hd : c.program.decl? id = some d) (ht : d.table = t ∨ d.table = Program.classTable) :
    (∃ n, c.slot? (some id) = some n) ∨
      (c.slot? (some id) = none ∧ ∃ index, c.reference (some id) = .ok index) := by
  rcases ht with ht | ht
  · exact Or.inl ((hc.fits.slot_iff id).2 ⟨d, hd, ht⟩)
  · exact Or.inr ⟨hc.fits.slot_eq_none hd ht, exists_reference (hc.refs id d hd ht)⟩

theorem exists_readName (hc : c.Stocked t) {id : DeclId} {d : Declaration}
    (hd : c.program.decl? id = some d) (ht : d.table = t ∨ d.table = Program.classTable)
    (place : Position) : ∃ i, c.readName (some id) place = .ok i := by
  unfold readName
  rw [Option.bind_some, hd]
  split
  · rename_i value _ _ _ _ _ heq
    cases heq
    exact exists_push place fun _ => hc.constants id _ hd rfl
  · rcases hc.slot_or_reference hd ht with ⟨n, hn⟩ | ⟨hnone, index, hindex⟩
    · rw [hn]
      exact ⟨_, rfl⟩
    · rw [hnone, hindex]
      exact ⟨_, rfl⟩

theorem exists_writeName (hc : c.Stocked t) {id : DeclId} {d : Declaration}
    (hd : c.program.decl? id = some d) (ht : d.table = t ∨ d.table = Program.classTable) :
    ∃ i, c.writeName (some id) = .ok i := by
  unfold writeName
  rcases hc.slot_or_reference hd ht with ⟨n, hn⟩ | ⟨hnone, index, hindex⟩
  · rw [hn]
    exact ⟨_, rfl⟩
  · rw [hnone, hindex]
    exact ⟨_, rfl⟩

end Stocked

/-! ### Expressions -/

/-- An expression with nothing behind it. -/
theorem map_append_nil (code : Code) :
    (.ok [] : Except EmitError Code).map (code ++ ·) = .ok code := by
  simp [Except.map]

theorem prepend_of_exists {i : Except EmitError Instruction} (h : ∃ i', i = .ok i')
    (rest : Except EmitError Code) : prepend i rest = rest.map (instructionLayout i ++ ·) := by
  obtain ⟨i', rfl⟩ := h
  cases rest <;> rfl

theorem map_append_map (rest : Except EmitError Code) (code others : Code) :
    (rest.map (others ++ ·)).map (code ++ ·) = rest.map ((code ++ others) ++ ·) := by
  cases rest with
  | error e => rfl
  | ok r => simp [Except.map]

/-- An expression is emitted as it is laid out. -/
theorem expression_eq (hc : c.Stocked t) {e : Node} (he : e.LinkedExpression c.program t)
    (hl : c.HasLiterals e) (rest : Except EmitError Code) :
    c.expression e rest = rest.map (c.expressionLayout e ++ ·) := by
  -- The links of the tree say for each name and call that there is something to refer to.
  induction he generalizing rest with
  | @literal v place =>
    rw [expression, expressionLayout]
    refine prepend_of_exists (exists_push place fun hlarge => ?_) rest
    exact hasLiterals_iff.1 hl _ (List.mem_singleton_self _) v place rfl hlarge
  | name hd _ ht =>
    rw [expression, expressionLayout]
    exact prepend_of_exists (hc.exists_readName hd ht _) rest
  | @call callee arguments id d place hd hk hn _ ih =>
    have hargs : ∀ es : List Node, (∀ a ∈ es, a ∈ arguments) → ∀ rest,
        c.expressions es rest = rest.map (c.argumentsLayout es ++ ·) := by
      intro es
      induction es with
      | nil =>
        intro _ rest
        rw [expressions, argumentsLayout]
        cases rest <;> rfl
      | cons e es ihes =>
        intro hes rest
        rw [List.forall_mem_cons] at hes
        rw [expressions, ih e hes.1 (hl.argument e hes.1), ihes hes.2, argumentsLayout,
          map_append_map]
    have hclass : d.table = Program.classTable := hc.fits.wellFormed.procedure_table_eq hd hk
    rw [expression, hargs arguments (fun _ ha => ha), expressionLayout,
      prepend_of_exists (exists_invocation (hc.refs id d hd hclass)), map_append_map]
  | @binary op left right place hop _ _ ihl ihr =>
    obtain ⟨code, hcode⟩ : ∃ code, operatorCode? op = some code := by
      cases op <;> first | exact ⟨_, rfl⟩ | exact absurd rfl hop
    rw [expression, operatorOnto, hcode, ihr hl.binary.2, ihl hl.binary.1,
      expressionLayout, hcode, Option.getD_some, map_append_map, map_append_map,
      List.append_assoc]

/-! ### Statements -/

/-- Several statements are emitted as they are laid out if each of them is, up to the statement with
which they grow beyond the limit. -/
theorem meets_statements {ss : List Node}
    (h : ∀ s ∈ ss, Meets 0 (c.statementLayout s) (c.statement s)) (used : Nat) :
    Meets used (c.statementsLayout ss) (c.statements used ss) := by
  induction ss generalizing used with
  | nil => exact .done Code.branchesFit_nil
  | cons s rest ih =>
    rw [List.forall_mem_cons] at h
    rw [statementsLayout, statements]
    refine h.1.bind (List.prefix_append _ _).isInfix (Nat.zero_le _) fun hfit => ?_
    dsimp only
    split
    · -- The statement itself goes beyond the limit, and what follows it only adds to that.
      refine .stopped (Or.inl rfl) fun _ => ?_
      rw [Code.size_append]
      omega
    · have hrest := ih h.2 (used + (c.statementLayout s).size)
      cases hr : c.statements (used + (c.statementLayout s).size) rest with
      | ok others =>
        rw [hr] at hrest
        cases hrest with
        | done hfit' => exact .done (Code.branchesFit_append.2 ⟨hfit, hfit'⟩)
      | error e =>
        rw [hr] at hrest
        cases hrest with
        | stopped hk hlong =>
          refine .stopped hk fun hall => ?_
          have hover := hlong (Code.branchesFit_append.1 hall).2
          rw [Code.size_append]
          omega

theorem branchesFit_instructionLayout {x : Except EmitError Instruction}
    (h : ∀ i, x = .ok i → i.op.operand ≠ .branch) : (instructionLayout x).BranchesFit := by
  cases x with
  | error e => exact Code.branchesFit_nil
  | ok i => exact Code.branchesFit_cons.2 ⟨fun hop => absurd hop (h i rfl), Code.branchesFit_nil⟩

theorem branchesFit_push (v : Int32) (place : Position) :
    (instructionLayout (c.push v place)).BranchesFit := by
  refine branchesFit_instructionLayout fun i hi => ?_
  rcases push_eq_ok hi with ⟨-, rfl⟩ | ⟨-, rfl⟩ | ⟨index, -, ⟨-, rfl⟩ | rfl⟩ <;>
    simp [Opcode.operand]

/-- An instruction that refers to a declaration of the class is no branch. -/
theorem branchesFit_reference {op : Opcode} (hop : op.operand ≠ .branch) (link : Option DeclId) :
    (instructionLayout (c.reference link >>= fun index =>
      pure { op, operand := index })).BranchesFit := by
  refine branchesFit_instructionLayout fun i hi => ?_
  simp only [bind_eq_ok, pure_eq_ok] at hi
  obtain ⟨index, -, rfl⟩ := hi
  exact hop

theorem branchesFit_loadSlot (n : Nat) : Code.BranchesFit [loadSlot n] := by
  match n with
  | 0 | 1 | 2 | 3 | n + 4 => simp [Code.BranchesFit, loadSlot, Opcode.operand]

theorem branchesFit_storeSlot (n : Nat) : Code.BranchesFit [storeSlot n] := by
  match n with
  | 0 | 1 | 2 | 3 | n + 4 => simp [Code.BranchesFit, storeSlot, Opcode.operand]

theorem branchesFit_readName (link : Option DeclId) (place : Position) :
    (instructionLayout (c.readName link place)).BranchesFit := by
  unfold readName
  split
  · exact branchesFit_push _ _
  · split
    · exact branchesFit_loadSlot _
    · exact branchesFit_reference (by simp [Opcode.operand]) link

theorem branchesFit_writeName (link : Option DeclId) :
    (instructionLayout (c.writeName link)).BranchesFit := by
  unfold writeName
  split
  · exact branchesFit_storeSlot _
  · exact branchesFit_reference (by simp [Opcode.operand]) link

mutual

/-- The only branches of an expression are those of its comparisons. -/
theorem branchesFit_expressionLayout (e : Node) : (c.expressionLayout e).BranchesFit := by
  match e with
  | .literal v place => exact branchesFit_push v place
  | .name _ link place => exact branchesFit_readName link place
  | .call _ arguments link _ =>
    exact Code.branchesFit_append.2 ⟨branchesFit_argumentsLayout arguments,
      branchesFit_reference (by simp [Opcode.operand]) link⟩
  | .binary op left right _ =>
    exact Code.branchesFit_append.2 ⟨branchesFit_expressionLayout left,
      Code.branchesFit_append.2 ⟨branchesFit_expressionLayout right, branchesFit_operatorCode op⟩⟩
  | .absent | .exit _ _ | .branch _ _ _ _ | .loop _ _ _ | .block _ _ => exact Code.branchesFit_nil

theorem branchesFit_argumentsLayout (es : List Node) : (c.argumentsLayout es).BranchesFit := by
  match es with
  | [] => exact Code.branchesFit_nil
  | e :: rest =>
    exact Code.branchesFit_append.2 ⟨branchesFit_expressionLayout e,
      branchesFit_argumentsLayout rest⟩

end

/-- A statement is emitted as it is laid out, or emission stops at a limit that its layout breaks. -/
theorem statement_meets (hc : c.Stocked t) {s : Node} (hs : s.LinkedStatement c.program t)
    (hl : c.HasLiterals s) : Meets 0 (c.statementLayout s) (c.statement s) := by
  induction hs with
  | @assign x id d value spot place hd _ ht hvalue =>
    rw [statement, expression_eq hc hvalue hl.binary.2,
      prepend_of_exists (hc.exists_writeName hd ht)]
    rw [statementLayout]
    simp only [Except.map, List.append_nil]
    exact .done (Code.branchesFit_append.2 ⟨branchesFit_expressionLayout value,
      branchesFit_writeName _⟩)
  | @call callee arguments link place hcall =>
    rw [statement, expression_eq hc hcall hl, statementLayout]
    refine .done (Code.branchesFit_append.2 ⟨branchesFit_expressionLayout _, ?_⟩)
    split
    · simp [Code.BranchesFit, Opcode.operand]
    · exact Code.branchesFit_nil
  | leave =>
    rw [statement, statementLayout]
    exact .done (by simp [Code.BranchesFit, Opcode.operand])
  | @answer value place hvalue =>
    have hne : value ≠ .absent := by
      rintro rfl
      cases hvalue
    rw [statement.eq_4 _ _ _ hne, statementLayout.eq_4 _ _ _ hne,
      expression_eq hc hvalue hl.value]
    exact .done (Code.branchesFit_append.2 ⟨branchesFit_expressionLayout _,
      by simp [Code.BranchesFit, Opcode.operand]⟩)
  | @branch condition thens elses thenPlace elsePlace place hcond _ _ iht ihe =>
    obtain ⟨hlc, hlt, hle⟩ := hl.branch
    have hthens := meets_statements (fun s hs => iht s hs (hlt.statement s hs)) 0
    have helses := meets_statements (fun s hs => ihe s hs (hle.statement s hs)) 0
    rw [statement, expression_eq hc hcond hlc, statementLayout, map_append_nil, ok_bind,
      statement, statement, statementLayout, statementLayout]
    -- Both blocks are parts of the layout: the then code at its end, the else code in front of it.
    refine hthens.bind ?_ (Nat.le_refl 0) fun hthenFit => ?_
    · exact isInfix_selectCode_chosen _ _ _
    · refine helses.bind ?_ (Nat.le_refl 0) fun helseFit => ?_
      · exact (List.prefix_append _ _).isInfix.trans (isInfix_selectCode_other _ _ _)
      · exact meets_branchCode (branchesFit_expressionLayout condition) hthenFit helseFit
  | @loop condition body bodyPlace place hcond _ ihb =>
    obtain ⟨hlc, hlb⟩ := hl.loop
    have hbody := meets_statements (fun s hs => ihb s hs (hlb.statement s hs)) 0
    rw [statement, expression_eq hc hcond hlc, statementLayout, map_append_nil, ok_bind,
      statement, statementLayout]
    refine hbody.bind (isInfix_repeatCode _ _) (Nat.le_refl 0) fun hbodyFit => ?_
    exact meets_loopCode (branchesFit_expressionLayout condition) hbodyFit

end EmitContext

end Classwright
