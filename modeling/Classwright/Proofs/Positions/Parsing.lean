import Classwright.Proofs.Parser.Runs
import Classwright.Proofs.Positions.Checks
import Classwright.Proofs.Printer.Lexemes
import Classwright.Proofs.Tree.Constants

/-!
# Parsing does not depend on positions

The states of the parser can be freed of positions, too.  A token takes a state without positions
where it takes the state itself, positions apart, and neither the place of the token nor the end of
the tokens matters: `ExprState.step_erase`, `StmtState.step_erase` and `ClassState.step_erase` say
so for the three automata.  Hence tokens with the same kinds and contents form the same program, or
are refused for the same cause (`Program.ofTokens_congr`).
-/

namespace Classwright

theorem Token.eq_of_lexeme {t t' : Token} (h : t'.lexeme = t.lexeme) :
    t'.kind = t.kind ∧ t'.content = t.content ∧ t'.value = t.value := by
  have hkind : t'.kind = t.kind := congrArg Lexeme.kind h
  have hcontent : t'.content = t.content := congrArg Lexeme.content h
  exact ⟨hkind, hcontent, by rw [value, value, hkind, hcontent]⟩

namespace Parser

open CompileError (outline)

/-- The same step between other states, complaints and results. -/
def Step.map {S S' C C' R R' : Type} (f : S → S') (g : C → C') (h : R → R') :
    Step S C R → Step S' C' R'
  | shift next => shift (f next)
  | done result => done (h result)
  | fail complaint => fail (g complaint)

/-! ### Expressions -/

namespace Pending

/-- Waiting operands without their positions. -/
def erase (pending : Pending) : Pending :=
  pending.map fun waiting => (waiting.1.erase, waiting.2)

@[simp] theorem erase_nil : erase [] = [] := rfl

@[simp] theorem erase_cons (left : Node) (op : Operator) (rest : Pending) :
    erase ((left, op) :: rest) = (left.erase, op) :: erase rest := rfl

@[simp] theorem erase_erase (pending : Pending) : pending.erase.erase = pending.erase := by
  simp [erase, Function.comp_def]

theorem reduce_erase (least : Nat) (pending : Pending) (value : Node) :
    pending.erase.reduce least value.erase =
      ((pending.reduce least value).1.erase, (pending.reduce least value).2.erase) := by
  induction pending generalizing value with
  | nil => rfl
  | cons waiting rest ih =>
    obtain ⟨left, op⟩ := waiting
    rw [erase_cons, reduce, reduce]
    split
    · have hop := ih (.binary op left value left.position)
      rw [Node.erase] at hop
      rw [Node.position_erase, hop]
    · rfl

@[simp] theorem push_erase (pending : Pending) (value : Node) (op : Operator) :
    pending.erase.push value.erase op = (pending.push value op).erase := by
  rw [push, push, reduce_erase]
  rfl

@[simp] theorem close_erase (pending : Pending) (value : Node) :
    pending.erase.close value.erase = (pending.close value).erase := by
  rw [close, close, reduce_erase]

@[simp] theorem compares_erase (pending : Pending) : pending.erase.compares = pending.compares := by
  simp [compares, erase, Function.comp_def]

end Pending

namespace Opening

/-- An open parenthesis without its positions. -/
def erase : Opening → Opening
  | group outer => group outer.erase
  | arguments callee _ done outer => arguments callee .unknown (Node.eraseAll done) outer.erase

@[simp] theorem erase_group (outer : Pending) : (group outer).erase = group outer.erase := rfl

@[simp] theorem erase_arguments (callee : Text) (place : Position) (done : List Node)
    (outer : Pending) : (arguments callee place done outer).erase =
      arguments callee .unknown (Node.eraseAll done) outer.erase := rfl

@[simp] theorem erase_comp_erase : erase ∘ erase = erase := by
  funext o
  cases o <;> simp

end Opening

namespace ExprState

/-- A state without its positions. -/
def erase : ExprState → ExprState
  | operand openings pending => operand (openings.map Opening.erase) pending.erase
  | identifier openings pending id _ =>
    identifier (openings.map Opening.erase) pending.erase id .unknown
  | operator openings pending value =>
    operator (openings.map Opening.erase) pending.erase value.erase

@[simp] theorem erase_erase (s : ExprState) : s.erase.erase = s.erase := by
  cases s <;> simp [erase]

/-- What a token leads to, without positions. -/
def eraseStep (x : Step ExprState Complaint Node) : Step ExprState Complaint Node :=
  x.map erase id Node.erase

@[simp] theorem eraseStep_eraseStep (x : Step ExprState Complaint Node) :
    eraseStep (eraseStep x) = eraseStep x := by
  cases x <;> simp [eraseStep, Step.map]

theorem closeAll_erase (openings : List Opening) (value : Node) :
    closeAll (openings.map Opening.erase) value.erase =
      (closeAll openings value).map Node.erase := by
  cases openings with
  | nil => rfl
  | cons o rest => cases o <;> rfl

theorem finish_erase (s : ExprState) : s.erase.finish = s.finish.map Node.erase := by
  cases s with
  | operand openings pending => rfl
  | identifier openings pending id place =>
    rw [erase, finish, finish, ← closeAll_erase, ← Pending.close_erase]
    rfl
  | operator openings pending value =>
    rw [erase, finish, finish, ← closeAll_erase, ← Pending.close_erase]

variable {t t' : Token}

theorem stepValue_erase (ht : t'.kind = t.kind) (openings : List Opening) (pending : Pending)
    (value : Node) :
    stepValue (openings.map Opening.erase) pending.erase value.erase t' =
      eraseStep (stepValue openings pending value t) := by
  unfold stepValue
  rw [ht]
  cases operatorOf? t.kind with
  | some op =>
    simp only [Pending.compares_erase, Pending.push_erase]
    split <;> rfl
  | none =>
    cases openings with
    | nil => exact congrArg Step.done (Pending.close_erase pending value)
    | cons o rest =>
      cases o with
      | group outer =>
        cases t.kind with
        | rightParen =>
          simp only [List.map_cons, Opening.erase, Pending.close_erase]
          rfl
        | _ => rfl
      | arguments callee place done outer =>
        cases t.kind with
        | rightParen =>
          simp only [List.map_cons, Opening.erase, Pending.close_erase, eraseStep, Step.map, erase,
            Node.erase, Node.eraseAll_eq_map, List.map_reverse]
        | comma =>
          simp only [List.map_cons, Opening.erase, Pending.close_erase]
          rfl
        | _ => rfl

theorem stepOperand_erase (ht : t'.lexeme = t.lexeme) (openings : List Opening)
    (pending : Pending) :
    eraseStep (stepOperand (openings.map Opening.erase) pending.erase t') =
      eraseStep (stepOperand openings pending t) := by
  obtain ⟨hkind, hcontent, hvalue⟩ := Token.eq_of_lexeme ht
  unfold stepOperand
  rw [hkind, hcontent, hvalue]
  cases t.kind with
  | number => simp [eraseStep, Step.map, erase, Node.erase]
  | identifier => simp [eraseStep, Step.map, erase]
  | leftParen => simp [eraseStep, Step.map, erase]
  | rightParen =>
    cases openings with
    | nil => rfl
    | cons o rest =>
      cases o with
      | group outer => rfl
      | arguments callee place done outer =>
        cases done with
        | nil =>
          cases pending with
          | nil => simp [eraseStep, Step.map, erase, Node.erase, Node.eraseAll]
          | cons waiting pending => rfl
        | cons e done => cases pending <;> rfl
  | _ => rfl

/-- A token takes a state without positions where it takes the state, positions apart. -/
theorem step_erase (ht : t'.lexeme = t.lexeme) (s : ExprState) :
    eraseStep (s.erase.step t') = eraseStep (s.step t) := by
  obtain ⟨hkind, -⟩ := Token.eq_of_lexeme ht
  cases s with
  | operand openings pending => exact stepOperand_erase ht openings pending
  | identifier openings pending id place =>
    rw [erase, step, step, hkind]
    split
    · simp [eraseStep, Step.map, erase, Node.eraseAll]
    · have hvalue := stepValue_erase hkind openings pending (.name id none place)
      rw [Node.erase] at hvalue
      rw [hvalue, eraseStep_eraseStep]
  | operator openings pending value =>
    rw [erase, step, step, stepValue_erase hkind, eraseStep_eraseStep]

end ExprState

/-! ### Statements -/

/-- An objection without the place it names. -/
def Objection.erase : Objection → Objection
  | plain c => plain c
  | inCondition owner _ c => inCondition owner none c

@[simp] theorem Objection.erase_erase (o : Objection) : o.erase.erase = o.erase := by
  cases o <;> rfl

/-- What an open block belongs to, without its positions. -/
def BlockOwner.erase : BlockOwner → BlockOwner
  | goal => goal
  | thenOf _ condition => thenOf .unknown condition.erase
  | elseOf _ condition thenBlock _ => elseOf .unknown condition.erase thenBlock.erase .unknown
  | bodyOf _ condition => bodyOf .unknown condition.erase

@[simp] theorem BlockOwner.erase_erase (o : BlockOwner) : o.erase.erase = o.erase := by
  cases o <;> simp [erase]

namespace OpenBlock

/-- An open block without its positions. -/
def erase (b : OpenBlock) : OpenBlock :=
  ⟨b.owner.erase, .unknown, Node.eraseAll b.done⟩

@[simp] theorem erase_comp_erase : erase ∘ erase = erase := by
  funext b
  simp [erase]

@[simp] theorem add_erase (b : OpenBlock) (node : Node) :
    b.erase.add node.erase = (b.add node).erase := rfl

end OpenBlock

namespace ExprUse

/-- What an expression is for, without positions. -/
def erase : ExprUse → ExprUse
  | assigned id _ => assigned id .unknown
  | returned _ => returned .unknown
  | called => called
  | condition owner _ _ => condition owner .unknown .unknown

@[simp] theorem erase_erase (use : ExprUse) : use.erase.erase = use.erase := by
  cases use <;> rfl

@[simp] theorem objection_erase (use : ExprUse) (c : Complaint) :
    (use.erase.objection c).erase = (use.objection c).erase := by
  cases use <;> rfl

@[simp] theorem closer_erase (use : ExprUse) : use.erase.closer = use.closer := by
  cases use <;> rfl

end ExprUse

namespace StmtState

/-- A state without its positions. -/
def erase : StmtState → StmtState
  | start blocks => start (blocks.map OpenBlock.erase)
  | named blocks id _ => named (blocks.map OpenBlock.erase) id .unknown
  | expression blocks use e => expression (blocks.map OpenBlock.erase) use.erase e.erase
  | paren blocks owner _ => paren (blocks.map OpenBlock.erase) owner .unknown
  | brace blocks owner => brace (blocks.map OpenBlock.erase) owner.erase
  | optionalElse blocks _ condition thenBlock =>
    optionalElse (blocks.map OpenBlock.erase) .unknown condition.erase thenBlock.erase
  | finished node => finished node.erase

@[simp] theorem erase_erase (s : StmtState) : s.erase.erase = s.erase := by
  cases s <;> simp [erase]

/-- What a token leads to, without positions. -/
def eraseStep (x : Step StmtState Objection Node) : Step StmtState Objection Node :=
  x.map erase Objection.erase Node.erase

theorem complete_erase (blocks : List OpenBlock) (node : Node) :
    complete (blocks.map OpenBlock.erase) node.erase = (complete blocks node).erase := by
  cases blocks <;> rfl

theorem closeBlock_erase (rest : List OpenBlock) (b : OpenBlock) :
    closeBlock (rest.map OpenBlock.erase) b.erase = (closeBlock rest b).erase := by
  obtain ⟨owner, brace, done⟩ := b
  have hblock : Node.block (Node.eraseAll done).reverse .unknown =
      (Node.block done.reverse brace).erase := by
    simp only [Node.erase, Node.eraseAll_eq_map, List.map_reverse]
  have hempty : (Node.eraseAll done).isEmpty = done.isEmpty := by
    cases done <;> rfl
  cases owner with
  | elseOf place condition thenBlock elsePlace =>
    simp only [closeBlock, OpenBlock.erase, BlockOwner.erase, hempty, hblock, ← complete_erase,
      Node.erase]
    split <;> rfl
  | goal | thenOf => simp only [closeBlock, OpenBlock.erase, BlockOwner.erase, hblock, erase]
  | bodyOf place condition =>
    simp only [closeBlock, OpenBlock.erase, BlockOwner.erase, hblock, ← complete_erase, Node.erase]

theorem afterCondition_erase (blocks : List OpenBlock) (owner : ConditionOwner)
    (place : Position) (condition : Node) :
    afterCondition (blocks.map OpenBlock.erase) owner .unknown condition.erase =
      (afterCondition blocks owner place condition).erase := by
  cases owner <;> rfl

variable {t t' : Token}

theorem stepStart_erase (ht : t'.lexeme = t.lexeme) (blocks : List OpenBlock) :
    eraseStep (stepStart (blocks.map OpenBlock.erase) t') = eraseStep (stepStart blocks t) := by
  obtain ⟨hkind, hcontent, -⟩ := Token.eq_of_lexeme ht
  unfold stepStart
  rw [hkind, hcontent]
  cases t.kind with
  | rightBrace =>
    cases blocks with
    | nil => rfl
    | cons b rest =>
      simp only [List.map_cons, closeBlock_erase, eraseStep, Step.map, erase_erase]
  | ifWord | whileWord | returnWord | identifier =>
    simp [eraseStep, Step.map, erase, ExprUse.erase]
  | _ => rfl

theorem stepUse_erase (ht : t'.kind = t.kind) (blocks : List OpenBlock) (use : ExprUse)
    (value : Node) :
    eraseStep (stepUse (blocks.map OpenBlock.erase) use.erase value.erase t') =
      eraseStep (stepUse blocks use value t) := by
  unfold stepUse
  rw [ht]
  cases use with
  | assigned id place =>
    cases t.kind with
    | semicolon =>
      have hassign := complete_erase blocks (.binary .assign (.name id none place) value place)
      simp only [Node.erase] at hassign
      simp only [ExprUse.erase, hassign, eraseStep, Step.map, erase_erase]
    | _ => rfl
  | returned place =>
    cases t.kind with
    | semicolon =>
      have hexit := complete_erase blocks (.exit value place)
      simp only [Node.erase] at hexit
      simp only [ExprUse.erase, hexit, eraseStep, Step.map, erase_erase]
    | _ => rfl
  | called =>
    cases t.kind with
    | semicolon => simp only [ExprUse.erase, complete_erase, eraseStep, Step.map, erase_erase]
    | _ => rfl
  | condition owner place paren =>
    cases t.kind with
    | rightParen =>
      simp only [ExprUse.erase, afterCondition_erase blocks owner place, eraseStep, Step.map,
        erase_erase]
    | _ => rfl

/-- The step of the expression decides what comes, unless a `return` or a call is complete. -/
theorem stepExpression_erase_of {blocks : List OpenBlock} {use : ExprUse} {e : ExprState}
    (ht : t'.lexeme = t.lexeme)
    (hexit : ∀ place, use = .returned place → e = .operand [] [] → t.kind = .semicolon → False)
    (hcall : ∀ pending value, use = .called → e = .operator [] pending value → False) :
    eraseStep (stepExpression (blocks.map OpenBlock.erase) use.erase e.erase t') =
      eraseStep (stepExpression blocks use e t) := by
  obtain ⟨hkind, -⟩ := Token.eq_of_lexeme ht
  have hexit' : ∀ place, use.erase = .returned place → e.erase = .operand [] [] →
      t'.kind = .semicolon → False := by
    intro place huse he ht
    cases use <;> cases huse
    cases e <;> simp only [ExprState.erase, ExprState.operand.injEq, reduceCtorEq] at he
    exact hexit _ rfl (by simpa [Pending.erase] using he) (hkind ▸ ht)
  have hcall' : ∀ pending value, use.erase = .called → e.erase = .operator [] pending value →
      False := by
    intro pending value huse he
    cases use <;> cases huse
    cases e <;> simp only [ExprState.erase, ExprState.operator.injEq, List.map_eq_nil_iff,
      reduceCtorEq] at he
    obtain ⟨rfl, -⟩ := he
    exact hcall _ _ rfl rfl
  -- Neither state is one of the two that are complete already.
  rw [stepExpression.eq_3 _ _ _ _ hcall hexit, stepExpression.eq_3 _ _ _ _ hcall' hexit']
  have hstep := ExprState.step_erase ht e
  cases hs : e.step t <;> cases hs' : e.erase.step t' <;>
    simp only [hs, hs', ExprState.eraseStep, Step.map, Step.shift.injEq, Step.done.injEq,
      Step.fail.injEq, reduceCtorEq, id] at hstep
  · simp [eraseStep, Step.map, erase, hstep]
  · rename_i value value'
    have hvalue :=
      stepUse_erase (rfl : t'.kind = t'.kind) (blocks.map OpenBlock.erase) use.erase value'
    rw [← stepUse_erase hkind blocks use value, ← hstep]
    simpa using hvalue.symm
  · simp [eraseStep, Step.map, hstep]

theorem stepExpression_erase (ht : t'.lexeme = t.lexeme) (blocks : List OpenBlock) (use : ExprUse)
    (e : ExprState) :
    eraseStep (stepExpression (blocks.map OpenBlock.erase) use.erase e.erase t') =
      eraseStep (stepExpression blocks use e t) := by
  obtain ⟨hkind, -⟩ := Token.eq_of_lexeme ht
  by_cases hexit : ∃ place, use = .returned place ∧ e = .operand [] [] ∧ t.kind = .semicolon
  · obtain ⟨place, rfl, rfl, hsemicolon⟩ := hexit
    have hbare := complete_erase blocks (.exit .absent place)
    simp only [Node.erase] at hbare
    simp only [ExprUse.erase, ExprState.erase, List.map_nil, Pending.erase_nil, stepExpression,
      hkind, hsemicolon, hbare, eraseStep, Step.map, erase_erase]
  · by_cases hcall : ∃ pending value, use = .called ∧ e = .operator [] pending value
    · obtain ⟨pending, value, rfl, rfl⟩ := hcall
      exact stepUse_erase hkind blocks .called value
    · exact stepExpression_erase_of ht
        (fun place huse he ht => hexit ⟨place, huse, he, ht⟩)
        (fun pending value huse he => hcall ⟨pending, value, huse, he⟩)

/-- A token takes a state without positions where it takes the state, positions apart. -/
theorem step_erase (ht : t'.lexeme = t.lexeme) (s : StmtState) :
    eraseStep (s.erase.step t') = eraseStep (s.step t) := by
  obtain ⟨hkind, -⟩ := Token.eq_of_lexeme ht
  cases s with
  | start blocks => exact stepStart_erase ht blocks
  | named blocks id place =>
    rw [erase, step, step, hkind]
    cases t.kind with
    | leftParen | assign =>
      simp [eraseStep, Step.map, erase, ExprUse.erase, ExprState.erase, ExprState.startCall,
        ExprState.start, Node.eraseAll]
    | _ => rfl
  | expression blocks use e => exact stepExpression_erase ht blocks use e
  | paren blocks owner place =>
    rw [erase, step, step, hkind]
    split
    · simp [eraseStep, Step.map, erase, ExprUse.erase]
    · rfl
  | brace blocks owner =>
    rw [erase, step, step, hkind]
    split
    · simp [eraseStep, Step.map, erase, OpenBlock.erase, Node.eraseAll]
    · rfl
  | optionalElse blocks place condition thenBlock =>
    rw [erase, step, step, hkind]
    split
    · simp [eraseStep, Step.map, erase, BlockOwner.erase]
    · cases blocks with
      | nil => simp [eraseStep, Step.map, ifWithoutElse, Node.erase, Node.eraseAll]
      | cons b rest =>
        exact stepStart_erase ht (b.add (ifWithoutElse place condition thenBlock) :: rest)
  | finished node => simp [erase, step, eraseStep, Step.map]

theorem step_congr {s s' : StmtState} (hs : s'.erase = s.erase) (ht : t'.lexeme = t.lexeme) :
    eraseStep (s'.step t') = eraseStep (s.step t) := by
  calc eraseStep (s'.step t')
    _ = eraseStep (s'.erase.step t') := (step_erase rfl s').symm
    _ = eraseStep (s.erase.step t') := by rw [hs]
    _ = eraseStep (s.step t) := step_erase ht s

theorem finish_erase (s : StmtState) :
    (s.erase.finish.map Node.erase).mapError Objection.erase =
      (s.finish.map Node.erase).mapError Objection.erase := by
  cases s with
  | start blocks | optionalElse blocks => cases blocks <;> simp [erase, finish, Except.map,
      ifWithoutElse, Node.erase, Node.eraseAll]
  | expression blocks use e =>
    rw [erase, finish, finish, ExprState.finish_erase]
    cases e.finish <;> simp [Except.map]
  | named | paren | brace => rfl
  | finished node => simp [erase, finish, Except.map]

end StmtState

/-! ### Declarations -/

/-- Tokens that are equal up to their places are refused with the same words. -/
theorem Objection.unplaced_error {o o' : Objection} (ho : o'.erase = o.erase) {t t' : Option Token}
    (ht : t'.map Token.lexeme = t.map Token.lexeme) (ending ending' : Position) :
    (o'.error ending' t').unplaced = (o.error ending t).unplaced := by
  have hmismatch (c : Complaint) : c.mismatch t' = c.mismatch t := by
    cases t with
    | none =>
      rw [Option.map_none, Option.map_eq_none_iff] at ht
      rw [ht]
    | some t =>
      obtain ⟨t', rfl, hlexeme⟩ := Option.map_eq_some_iff.1 ht
      cases c <;> simp only [Complaint.mismatch, (Token.eq_of_lexeme hlexeme).2.1]
  cases o <;> cases o' <;>
    simp only [erase, plain.injEq, inCondition.injEq, reduceCtorEq, true_and] at ho
  · simp [error, CompileError.unplaced, hmismatch, ho]
  · simp [error, CompileError.unplaced, hmismatch, ho]

end Parser

namespace Parser

open CompileError (outline outline_bind)

theorem declareParams_erase (p : Program) (t : TableId) (params : List (Text × Position)) :
    declareParams p.erase t (params.map fun param => (param.1, .unknown)) =
      outline (Prod.map Program.erase id) (declareParams p t params) := by
  induction params generalizing p with
  | nil => rfl
  | cons param rest ih =>
    obtain ⟨name, place⟩ := param
    have hparam := p.declare_erase t { kind := .parameter, name, position := place }
    rw [List.map_cons, declareParams, declareParams]
    refine (congrArg (· >>= _) hparam).trans (outline_bind fun ⟨q, n⟩ => ?_)
    exact (congrArg (· >>= _) (ih q)).trans (outline_bind fun ⟨_, _⟩ => rfl)

/-- The head of a method without its positions. -/
def MethodHead.erase (head : MethodHead) : MethodHead :=
  { head with place := .unknown, params := head.params.map fun param => (param.1, .unknown) }

theorem declareMethod_erase (p : Program) (head : MethodHead) :
    declareMethod p.erase head.erase =
      outline (Prod.map Program.erase id) (declareMethod p head) := by
  have hparams : head.erase.params.reverse =
      head.params.reverse.map fun param => (param.1, .unknown) := List.map_reverse.symm
  have hhead := p.declare_erase Program.classTable
    { kind := .procedure
      name := head.name
      type := head.type
      params := head.params.reverse.map fun _ => none
      position := head.place }
  rw [declareMethod, declareMethod, hparams, List.map_map]
  refine (congrArg (· >>= _) hhead).trans (outline_bind fun ⟨q, procedure⟩ => ?_)
  dsimp only [Prod.map]
  have htable := declareParams_erase (q.addTable (some Program.classTable) (some procedure)).1
    (q.addTable (some Program.classTable) (some procedure)).2 head.params.reverse
  refine (congrArg (· >>= _) htable).trans (outline_bind fun ⟨q', ids⟩ => ?_)
  let change (d : Declaration) := { d with locals := some q.tables.size, params := ids }
  have hupdate : (q'.update procedure change).erase = q'.erase.update procedure change :=
    Program.erase_update q' procedure fun _ => rfl
  exact congrArg (fun r : Program => Except.ok (r, procedure, q.tables.size)) hupdate.symm

theorem constantValue_erase (e : Node) :
    e.erase.constantValue = outline id e.constantValue := by
  cases e with
  | binary op left right place =>
    by_cases hop : op = .assign
    · subst hop
      rfl
    · rw [Node.erase, Node.constantValue_binary hop, Node.constantValue_binary hop,
        constantValue_erase left, constantValue_erase right]
      refine outline_bind fun x => outline_bind fun y => ?_
      dsimp only [id]
      cases op.compute? x y <;> rfl
  | block statements place =>
    have hposition := Node.position_erase (.block statements place)
    rw [Node.erase] at hposition
    exact congrArg (fun place => Except.error (CompileError.mk .variableInitializer place))
      hposition
  | _ => rfl

theorem declareConstant_erase (p : Program) (name : Text) (place : Position) (e : Node) :
    declareConstant p.erase name .unknown e.erase =
      outline Program.erase (declareConstant p name place e) := by
  rw [declareConstant, declareConstant, constantValue_erase]
  refine outline_bind fun value => ?_
  refine (congrArg (· >>= _) (p.declare_erase Program.classTable
    { kind := .constant, name, value, position := place })).trans (outline_bind fun ⟨_, _⟩ => rfl)

/-! ### Classes -/

/-- A method that has been declared, without its positions. -/
def MethodBody.erase (home : MethodBody) : MethodBody :=
  { home with brace := .unknown }

theorem MethodBody.erase_mk (procedure : DeclId) (table : TableId) (brace : Position) :
    erase ⟨procedure, table, brace⟩ = ⟨procedure, table, .unknown⟩ := rfl

@[simp] theorem MethodBody.erase_comp_erase : erase ∘ erase = erase := rfl

@[simp] theorem MethodBody.erase_erase (home : MethodBody) : home.erase.erase = home.erase := rfl

@[simp] theorem MethodHead.erase_erase (head : MethodHead) : head.erase.erase = head.erase := by
  simp [erase, Function.comp_def]

namespace ClassState

/-- A state without its positions. -/
def erase : ClassState → ClassState
  | classWord => classWord
  | className => className
  | classBrace p => classBrace p.erase
  | members p group => members p.erase group
  | constantInt p => constantInt p.erase
  | constantName p => constantName p.erase
  | constantAssign p name _ => constantAssign p.erase name .unknown
  | constantValue p name _ e => constantValue p.erase name .unknown e.erase
  | variableName p home => variableName p.erase (home.map MethodBody.erase)
  | variableEnd p home name _ => variableEnd p.erase (home.map MethodBody.erase) name .unknown
  | methodType p => methodType p.erase
  | methodName p type => methodName p.erase type
  | methodParen p head => methodParen p.erase head.erase
  | firstParam p head => firstParam p.erase head.erase
  | nextParam p head => nextParam p.erase head.erase
  | paramName p head => paramName p.erase head.erase
  | paramEnd p head => paramEnd p.erase head.erase
  | methodBrace p procedure table => methodBrace p.erase procedure table
  | locals p home => locals p.erase home.erase
  | body p procedure s => body p.erase procedure s.erase
  | closed p => closed p.erase

@[simp] theorem erase_erase (s : ClassState) : s.erase.erase = s.erase := by
  cases s <;> simp [erase]

end ClassState

theorem declareVariable_erase (p : Program) (home : Option MethodBody) (name : Text)
    (place : Position) :
    declareVariable p.erase (home.map MethodBody.erase) name .unknown =
      outline ClassState.erase (declareVariable p home name place) := by
  have hvar (t : TableId) := p.declare_erase t { kind := .var, name, position := place }
  cases home with
  | none => exact (congrArg (· >>= _) (hvar _)).trans (outline_bind fun ⟨_, _⟩ => rfl)
  | some home => exact (congrArg (· >>= _) (hvar home.table)).trans (outline_bind fun ⟨_, _⟩ => rfl)

theorem bodyState_erase (p : Program) (procedure : DeclId) (s : StmtState) :
    bodyState p.erase procedure s.erase = (bodyState p procedure s).erase := by
  cases s with
  | finished node =>
    simp only [bodyState, StmtState.erase, ClassState.erase]
    rw [Program.erase_update p procedure (g := fun d => { d with body := node.erase }) fun _ => rfl]
  | _ => rfl

namespace ClassState

variable {t t' : Token} {ending ending' : Position}

theorem outline_error {o o' : Objection} (ho : o'.erase = o.erase) (ht : t'.lexeme = t.lexeme) :
    outline erase (.error (o'.error ending' (some t'))) =
      outline erase (.error (o.error ending (some t))) :=
  congrArg Except.error (Objection.unplaced_error ho (by simp [ht]) ending ending')

theorem stepBody_erase (ht : t'.lexeme = t.lexeme) (p : Program) (procedure : DeclId)
    {s s' : StmtState} (hs : s'.erase = s.erase) :
    outline erase (stepBody ending' p.erase procedure s' t') =
      outline erase (stepBody ending p procedure s t) := by
  have hstep := StmtState.step_congr hs ht
  unfold stepBody
  cases h : s.step t <;> cases h' : s'.step t' <;>
    simp only [h, h', StmtState.eraseStep, Step.map, Step.shift.injEq, Step.done.injEq,
      Step.fail.injEq, reduceCtorEq] at hstep
  · simp [outline, Except.map, ← bodyState_erase, hstep]
  · exact outline_error rfl ht
  · exact outline_error hstep ht

theorem stepConstant_erase (ht : t'.lexeme = t.lexeme) (p : Program) (name : Text)
    (place : Position) (e : ExprState) :
    outline erase (stepConstant ending' p.erase name .unknown e.erase t') =
      outline erase (stepConstant ending p name place e t) := by
  have hstep := ExprState.step_erase ht e
  unfold stepConstant
  cases h : e.step t <;> cases h' : e.erase.step t' <;>
    simp only [h, h', ExprState.eraseStep, Step.map, Step.shift.injEq, Step.done.injEq,
      Step.fail.injEq, reduceCtorEq, id] at hstep
  · simp [outline, Except.map, erase, hstep]
  · rw [(Token.eq_of_lexeme ht).1]
    dsimp only
    split
    · rename_i value value' _
      -- The values have the same erasure, so both declarations agree with the one of this.
      have hdeclare : outline Program.erase (declareConstant p.erase name .unknown value') =
          outline Program.erase (declareConstant p name place value) := by
        rw [← declareConstant_erase, ← declareConstant_erase, Program.erase_erase, hstep]
      have hmembers (x : Except CompileError Program) :
          outline erase (x >>= fun p => pure (members p .constants)) =
            outline Program.erase x >>= fun p => pure (members p .constants) :=
        Eq.symm (outline_bind fun _ => rfl)
      exact (hmembers _).trans ((congrArg (· >>= _) hdeclare).trans (hmembers _).symm)
    · exact outline_error rfl ht
  · exact outline_error (hstep ▸ rfl) ht

theorem stepParamsEnd_erase (p : Program) (head : MethodHead) :
    stepParamsEnd p.erase head.erase = outline erase (stepParamsEnd p head) := by
  rw [stepParamsEnd, stepParamsEnd, declareMethod_erase]
  exact outline_bind fun ⟨_, _, _⟩ => rfl

theorem refuse_erase (ht : t'.lexeme = t.lexeme) (s : ClassState) :
    outline erase (s.erase.refuse ending' t') = outline erase (s.refuse ending t) :=
  outline_error (by cases s <;> rfl) ht

/-- In a state without positions the same token must come, and it leads to the same state, positions
apart. -/
theorem wanted?_erase {s : ClassState} {k : TokenKind} {next : Token → ClassState}
    (h : s.wanted? = some (k, next)) :
    ∃ next', s.erase.wanted? = some (k, next') ∧
      ∀ {t t' : Token}, t'.lexeme = t.lexeme → (next' t').erase = (next t).erase := by
  cases s <;> cases h <;> refine ⟨_, rfl, fun ht => ?_⟩ <;>
    simp [erase, (Token.eq_of_lexeme ht).2.1, Program.erase, Program.empty, MethodHead.erase,
      MethodBody.erase_mk, Function.comp_def]

theorem outline_ite {c : Prop} [Decidable c] {x x' y y' : Except CompileError ClassState}
    (hx : outline erase x' = outline erase x) (hy : outline erase y' = outline erase y) :
    outline erase (if c then x' else y') = outline erase (if c then x else y) := by
  split
  · exact hx
  · exact hy

/-- A token takes a state without positions where it takes the state, positions apart. -/
theorem step_erase (ht : t'.lexeme = t.lexeme) (s : ClassState) :
    outline erase (s.erase.step ending' t') = outline erase (s.step ending t) := by
  have hkind := (Token.eq_of_lexeme ht).1
  have hrefuse (s : ClassState) : outline erase (s.erase.refuse ending' t') =
      outline erase (s.refuse ending t) := refuse_erase ht s
  have hidem := CompileError.outline_outline erase_erase
  have hok (s : ClassState) : outline erase (.ok s.erase) = outline erase (.ok s) :=
    congrArg Except.ok s.erase_erase
  have hparams (p : Program) (head : MethodHead) :
      outline erase (stepParamsEnd p.erase head.erase) = outline erase (stepParamsEnd p head) := by
    rw [stepParamsEnd_erase, hidem]
  cases hw : s.wanted? with
  | some wanted =>
    obtain ⟨next', hw', hnext⟩ := wanted?_erase hw
    rw [step_wanted hw, step_wanted hw', hkind]
    exact outline_ite (congrArg Except.ok (hnext ht)) (hrefuse s)
  | none =>
    cases s with
    | constantValue p name place e => exact stepConstant_erase ht p name place e
    | body p procedure s => exact stepBody_erase ht p procedure (StmtState.erase_erase s)
    | locals p home =>
      rw [erase, step_locals, step_locals, hkind]
      exact outline_ite (hok (variableName p (some home))) (stepBody_erase ht p _ rfl)
    | variableEnd p home name place =>
      rw [erase, step_variableEnd, step_variableEnd, hkind, declareVariable_erase p home name place]
      exact outline_ite (hidem _) (hrefuse (variableEnd p home name place))
    | firstParam p head =>
      rw [erase, step_firstParam, step_firstParam, hkind]
      exact outline_ite (hok (paramName p head))
        (outline_ite (hparams p head) (hrefuse (firstParam p head)))
    | paramEnd p head =>
      rw [erase, step_paramEnd, step_paramEnd, hkind]
      exact outline_ite (hok (nextParam p head))
        (outline_ite (hparams p head) (hrefuse (paramEnd p head)))
    | methodType p =>
      rw [erase, step_methodType, step_methodType, hkind]
      exact outline_ite (hok (methodName p .void))
        (outline_ite (hok (methodName p .int)) (hrefuse (methodType p)))
    | members p group =>
      -- Each group allows what the groups behind it allow, and one member more.
      have hmethods : outline erase ((members p.erase .methods).step ending' t') =
          outline erase ((members p .methods).step ending t) := by
        rw [step_methods, step_methods, hkind]
        exact outline_ite (hok (methodType p))
          (outline_ite (hok (closed p)) (hrefuse (members p .methods)))
      have hvariables : outline erase ((members p.erase .variables).step ending' t') =
          outline erase ((members p .variables).step ending t) := by
        rw [step_variables, step_variables, hkind]
        exact outline_ite (hok (variableName p none)) hmethods
      match group with
      | .methods => exact hmethods
      | .variables => exact hvariables
      | .constants =>
        rw [erase, step_constants, step_constants, hkind]
        exact outline_ite (hok (constantInt p)) hvariables
    | closed p =>
      rw [erase, step_closed, step_closed]
      exact hrefuse (closed p)
    | _ => cases hw

theorem step_congr {s s' : ClassState} (hs : s'.erase = s.erase) (ht : t'.lexeme = t.lexeme) :
    outline erase (s'.step ending' t') = outline erase (s.step ending t) := by
  calc outline erase (s'.step ending' t')
    _ = outline erase (s'.erase.step ending' t') := (step_erase rfl s').symm
    _ = outline erase (s.erase.step ending' t') := by rw [hs]
    _ = outline erase (s.step ending t) := step_erase ht s

/-- Where the tokens end does not matter. -/
theorem finish_erase (s : ClassState) :
    outline Program.erase (s.erase.finish ending') = outline Program.erase (s.finish ending) := by
  have herror {o o' : Objection} (ho : o'.erase = o.erase) :
      outline Program.erase (.error (o'.error ending' none)) =
        outline Program.erase (.error (o.error ending none)) :=
    congrArg Except.error (Objection.unplaced_error ho rfl ending ending')
  cases s with
  | closed p => exact congrArg Except.ok p.erase_erase
  | constantValue p name place e =>
    simp only [erase, finish, ExprState.finish_erase]
    cases e.finish <;> exact herror rfl
  | body p procedure s =>
    have hfinish := s.finish_erase
    simp only [erase, finish]
    cases h : s.finish <;> cases h' : s.erase.finish <;>
      simp only [h, h', Except.map, mapError_ok, mapError_error, Except.error.injEq,
        reduceCtorEq] at hfinish
    · exact herror hfinish
    · exact herror rfl
  | _ => exact herror rfl

theorem finish_congr {s s' : ClassState} (hs : s'.erase = s.erase) :
    outline Program.erase (s'.finish ending') = outline Program.erase (s.finish ending) := by
  calc outline Program.erase (s'.finish ending')
    _ = outline Program.erase (s'.erase.finish ending') := (finish_erase s').symm
    _ = outline Program.erase (s.erase.finish ending') := by rw [hs]
    _ = outline Program.erase (s.finish ending) := finish_erase s

/-- A row of tokens takes states that are equal up to positions to such states, or is refused for
the same cause. -/
theorem foldlM_congr {ts ts' : List Token} (hts : ts'.map Token.lexeme = ts.map Token.lexeme)
    {s s' : ClassState} (hs : s'.erase = s.erase) :
    outline erase (ts'.foldlM (step ending') s') = outline erase (ts.foldlM (step ending) s) := by
  -- The two runs keep equal states, up to positions, through the row.
  induction ts generalizing ts' s s' with
  | nil =>
    obtain rfl := List.map_eq_nil_iff.1 hts
    exact congrArg Except.ok hs
  | cons t rest ih =>
    obtain ⟨t', rest', rfl, ht, hrest⟩ := List.map_eq_cons_iff.1 hts
    rw [List.foldlM_cons, List.foldlM_cons]
    exact CompileError.outline_bind_congr (step_congr hs ht) fun a a' ha => ih hrest ha

end ClassState

end Parser

namespace Program

open CompileError (outline outline_bind_congr)

/-- Tokens of the same kinds and contents form the same class, up to positions, or are refused for
the same cause. -/
theorem ofTokens_congr {ts ts' : List Token} (h : ts'.map Token.lexeme = ts.map Token.lexeme) :
    outline erase (ofTokens ts') = outline erase (ofTokens ts) :=
  outline_bind_congr (Parser.ClassState.foldlM_congr h rfl) fun _ _ hs =>
    Parser.ClassState.finish_congr hs

end Program

end Classwright
