import Classwright.Emit.ClassFile
import Classwright.Proofs.Emit.Found
import Classwright.Proofs.Positions.Trees

/-!
# Where the limits of the class-file format are exceeded

Emission refuses a jump at its `if` or `while`, a block that grows too long at the statement with
which it does, and the code of a method at the name of its procedure, or of the class for the
constructor.  In a program that takes its positions from some tokens these are tokens
(`Program.Placed.atToken_of_classFile`).
-/

namespace Classwright

/-! ### Emission that fails -/

section

variable {α β : Type}

/-- If emission exceeds a limit, it does so at one of the tokens. -/
def PlacedEmission (tokens : List Token) (x : Except EmitError α) : Prop :=
  ∀ e, x = .error (.compile e) → e.AtToken tokens

variable {tokens : List Token}

namespace PlacedEmission

theorem ok (a : α) : PlacedEmission tokens (.ok a) := by
  intro e h
  cases h

/-- An error that is about no limit. -/
theorem other {e : EmitError} (h : ∀ limit, e ≠ .compile limit) :
    PlacedEmission tokens (.error e : Except EmitError α) :=
  fun limit he => absurd (Except.error.inj he) (h limit)

/-- A limit that is exceeded. -/
theorem limit {cause : Cause} {place : Position} (h : place.IsStart tokens)
    (hcause : cause.isLexical = false) :
    PlacedEmission tokens (.error (.compile ⟨cause, place⟩) : Except EmitError α) := by
  intro e he
  cases he
  exact ⟨h, hcause⟩

theorem bind {x : Except EmitError α} {f : α → Except EmitError β} (hx : PlacedEmission tokens x)
    (hf : ∀ a, PlacedEmission tokens (f a)) : PlacedEmission tokens (x >>= f) := by
  intro e he
  rcases bind_eq_error.1 he with herror | ⟨a, -, herror⟩
  · exact hx e herror
  · exact hf a e herror

theorem map {x : Except EmitError α} (hx : PlacedEmission tokens x) (f : α → β) :
    PlacedEmission tokens (x.map f) := by
  cases x with
  | error e' =>
    intro e he
    obtain rfl := Except.error.inj he
    exact hx e rfl
  | ok a => exact ok (f a)

theorem mapM {f : α → Except EmitError β} {xs : List α}
    (h : ∀ x ∈ xs, PlacedEmission tokens (f x)) : PlacedEmission tokens (xs.mapM f) := by
  intro e he
  obtain ⟨x, hmem, herror⟩ := exists_of_mapM_eq_error he
  exact h x hmem e herror

end PlacedEmission

end

variable {tokens : List Token}

/-! ### Code -/

namespace EmitContext

section

variable (c : EmitContext)

theorem placed_push (value : Int32) (place : Position) :
    PlacedEmission tokens (c.push value place) := by
  unfold push
  split
  · exact .ok _
  · split
    · exact .ok _
    · split
      · exact .other fun _ => EmitError.noConfusion
      · exact .ok _

theorem placed_reference (link : Option DeclId) : PlacedEmission tokens (c.reference link) := by
  unfold reference
  split
  · exact .ok _
  · exact .other fun _ => EmitError.noConfusion

theorem placed_readName (link : Option DeclId) (place : Position) :
    PlacedEmission tokens (c.readName link place) := by
  unfold readName
  split
  · exact c.placed_push _ _
  · split
    · exact .ok _
    · exact (c.placed_reference link).bind fun _ => .ok _

theorem placed_writeName (link : Option DeclId) : PlacedEmission tokens (c.writeName link) := by
  unfold writeName
  split
  · exact .ok _
  · exact (c.placed_reference link).bind fun _ => .ok _

theorem placed_prepend {i : Except EmitError Instruction} {rest : Except EmitError Code}
    (hi : PlacedEmission tokens i) (hrest : PlacedEmission tokens rest) :
    PlacedEmission tokens (prepend i rest) :=
  hi.bind fun _ => hrest.bind fun _ => .ok _

mutual

/-- An expression exceeds no limit, so only what comes behind it can. -/
theorem placed_expression : ∀ (e : Node) {rest : Except EmitError Code},
    PlacedEmission tokens rest → PlacedEmission tokens (c.expression e rest)
  | .literal value place, _, h => placed_prepend (c.placed_push value place) h
  | .name _ link place, _, h => placed_prepend (c.placed_readName link place) h
  | .call _ arguments link _, _, h =>
    placed_expressions arguments
      (placed_prepend ((c.placed_reference link).bind fun _ => .ok _) h)
  | .binary op left right place, rest, h => by
    have hop : PlacedEmission tokens (operatorOnto op place rest) := by
      unfold operatorOnto
      split
      · exact h.map _
      · exact .other fun _ => EmitError.noConfusion
    exact placed_expression left (placed_expression right hop)
  | .absent, _, _ | .exit _ _, _, _ | .branch _ _ _ _, _, _ | .loop _ _ _, _, _
  | .block _ _, _, _ => .other fun _ => EmitError.noConfusion

theorem placed_expressions : ∀ (es : List Node) {rest : Except EmitError Code},
    PlacedEmission tokens rest → PlacedEmission tokens (c.expressions es rest)
  | [], _, h => h
  | e :: others, _, h => placed_expression e (placed_expressions others h)

end

theorem placed_branchTo (op : Opcode) (distance : Int) {place : Position}
    (h : place.IsStart tokens) : PlacedEmission tokens (branchTo op distance place) := by
  unfold branchTo
  split
  · exact .ok _
  · exact .limit h rfl

theorem placed_branchCode (condition thenCode elseCode : Code) (joins : Bool) {place : Position}
    (h : place.IsStart tokens) :
    PlacedEmission tokens (branchCode condition thenCode elseCode joins place) := by
  unfold branchCode
  apply PlacedEmission.bind (placed_branchTo _ _ h)
  intro skip
  dsimp only
  split
  · apply PlacedEmission.bind (placed_branchTo _ _ h)
    intro join
    exact .ok _
  · exact .ok _

theorem placed_loopCode (condition body : Code) {place : Position} (h : place.IsStart tokens) :
    PlacedEmission tokens (loopCode condition body place) := by
  unfold loopCode
  apply PlacedEmission.bind (placed_branchTo _ _ h)
  intro leave
  apply PlacedEmission.bind (placed_branchTo _ _ h)
  intro again
  exact .ok _

theorem placed_statements {statements : List Node}
    (hs : ∀ s ∈ statements, s.PlacedStatement tokens)
    (h : ∀ s ∈ statements, PlacedEmission tokens (c.statement s)) (used : Nat) :
    PlacedEmission tokens (c.statements used statements) := by
  induction statements generalizing used with
  | nil => exact .ok []
  | cons s rest ih =>
    rw [List.forall_mem_cons] at hs h
    rw [statements]
    apply PlacedEmission.bind h.1
    intro code
    dsimp only
    split
    · exact .limit hs.1.isStart rfl
    · exact (ih hs.2 h.2 _).bind fun _ => .ok _

/-- **A statement exceeds a limit at one of its tokens.** -/
theorem placed_statement {s : Node} (h : s.PlacedStatement tokens) :
    PlacedEmission tokens (c.statement s) := by
  induction h with
  | @assign _ link =>
    exact c.placed_expression _ (placed_prepend (c.placed_writeName link) (.ok []))
  | call => exact c.placed_expression _ (.ok _)
  | leave => exact .ok _
  | @answer _ value _ _ hv =>
    rw [statement]
    · exact c.placed_expression value (.ok _)
    · -- A value that is returned is not missing.
      rintro rfl
      cases hv
  | @branch t _ _ _ _ _ ht _ _ hthens _ helses _ iht ihe =>
    rw [statement, statement, statement]
    refine (c.placed_expression _ (.ok [])).bind fun condition => ?_
    refine (c.placed_statements hthens iht 0).bind fun thenCode => ?_
    refine (c.placed_statements helses ihe 0).bind fun elseCode => ?_
    exact placed_branchCode _ _ _ _ ⟨t, ht, rfl⟩
  | @loop t _ _ _ ht _ _ hstatements _ ih =>
    rw [statement, statement]
    refine (c.placed_expression _ (.ok [])).bind fun condition => ?_
    refine (c.placed_statements hstatements ih 0).bind fun body => ?_
    exact placed_loopCode _ _ ⟨t, ht, rfl⟩

theorem placed_storeConstants (ids : List DeclId) :
    PlacedEmission tokens (c.storeConstants ids) := by
  induction ids with
  | nil => exact .ok []
  | cons id rest ih =>
    rw [storeConstants]
    split
    · exact ih
    · refine (c.placed_push _ _).bind fun value => ?_
      exact (c.placed_reference _).bind fun index => ih.bind fun _ => .ok _

end

/-! ### Methods -/

variable (p : Program) (pool : PoolBuilder)

theorem placed_procedureCode {d : Declaration} (hd : d.position.IsStart tokens)
    (hbody : d.body.PlacedBlock tokens) : PlacedEmission tokens (procedureCode p pool d) := by
  have hcode (c : EmitContext) : PlacedEmission tokens (c.statement d.body) := by
    generalize d.body = body at hbody ⊢
    cases hbody with
    | intro hs =>
      rw [statement]
      exact c.placed_statements hs (fun s hmem => c.placed_statement (hs s hmem)) 0
  apply PlacedEmission.bind (hcode _)
  intro body
  dsimp only
  split
  · exact .limit hd rfl
  · exact .ok _

theorem placed_constructorCode (h : p.position.IsStart tokens) :
    PlacedEmission tokens (constructorCode p pool) := by
  apply PlacedEmission.bind (placed_storeConstants _ _)
  intro stores
  dsimp only
  split
  · exact .limit h rfl
  · exact .ok _

end EmitContext

/-! ### Class files -/

namespace PoolBuilder

variable (pool : PoolBuilder)

theorem placed_utf8Index (text : Text) : PlacedEmission tokens (pool.utf8Index text) := by
  unfold utf8Index
  split
  · exact .ok _
  · exact .other fun _ => EmitError.noConfusion

theorem placed_member (flags : UInt16) (name descriptor : Text) :
    PlacedEmission tokens (pool.member flags name descriptor) :=
  (pool.placed_utf8Index name).bind fun _ => (pool.placed_utf8Index descriptor).bind fun _ => .ok _

theorem placed_method (flags : UInt16) (name descriptor : Text) (code : MethodCode) :
    PlacedEmission tokens (pool.method flags name descriptor code) :=
  (pool.placed_member flags name descriptor).bind fun _ =>
    (pool.placed_utf8Index _).bind fun _ => .ok _

theorem placed_field? (d : Declaration) : PlacedEmission tokens (pool.field? d) := by
  unfold field?
  split
  · refine (pool.placed_member _ _ _).bind fun m => (pool.placed_utf8Index _).bind fun name => ?_
    split
    · exact .other fun _ => EmitError.noConfusion
    · exact .ok _
  · exact (pool.placed_member _ _ _).bind fun _ => .ok _
  · exact .ok none

end PoolBuilder

namespace Program.Placed

variable {p : Program}

theorem placed_methods (hp : p.Placed tokens) (pool : PoolBuilder) :
    PlacedEmission tokens (p.methods pool) := by
  have hprocedures : PlacedEmission tokens
      ((p.procedures.filterMap p.decl?).mapM (p.procedureMethod pool)) := by
    refine .mapM fun d hd => ?_
    obtain ⟨hposition, hbody⟩ := hp.of_mem_procedures hd
    exact (EmitContext.placed_procedureCode p pool hposition hbody).bind fun code =>
      pool.placed_method _ _ _ code
  refine hprocedures.bind fun methods => ?_
  refine (EmitContext.placed_constructorCode p pool hp.position).bind fun code => ?_
  exact (pool.placed_method _ _ _ code).bind fun _ => .ok _

/-- **Emission exceeds a limit at a statement, or at the name of a procedure or of the class**,
unless the constant pool is too large. -/
theorem atToken_of_classFile (hp : p.Placed tokens) (hwf : p.WellFormed) {e : CompileError}
    (h : p.classFile = .error (.compile e)) (hkind : e.kind ≠ .constantPoolOverflow) :
    e.AtToken tokens := by
  unfold classFile at h
  rcases bind_eq_error.1 h with hpool | ⟨pool, -, h⟩
  · -- The pool fails for its size only.
    have hoverflow := PoolBuilder.eq_overflow_of_ofProgram hwf hpool
    obtain rfl := EmitError.compile.inj hoverflow
    exact absurd rfl hkind
  · have hfields : PlacedEmission tokens (p.fields pool) :=
      (PlacedEmission.mapM fun d _ => pool.placed_field? d).bind fun _ => .ok _
    have hfile := hfields.bind fun fields => (hp.placed_methods pool).bind fun methods =>
      .ok (ClassFile.mk ClassFile.minorVersion ClassFile.majorVersion pool.entries
        ClassFile.publicFlag pool.this pool.super fields methods)
    exact hfile e h

end Program.Placed

end Classwright
