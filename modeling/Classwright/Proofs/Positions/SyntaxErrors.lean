import Classwright.Proofs.Parser.Truncated
import Classwright.Proofs.Positions.Trees
import Classwright.Proofs.Tree.Constants

/-!
# Where syntax errors stand

The parser keeps the positions of names that it has not declared yet, and that of the parenthesis
of an open condition.  They are positions of tokens in each state (`Parser.ClassState.Placed`), and
each token keeps them so or is refused at one of the tokens (`Parser.ClassState.placed_step`).
When the tokens end too soon, the error stands behind the last one unless a condition is open
(`Program.atToken_of_ofTokens`).
-/

namespace Classwright

open Classwright.Parser Classwright.Grammar

variable {tokens : List Token}

/-! ### Declarations -/

/-- An initializer is refused at one of its nodes. -/
theorem Node.PlacedExpression.placed_constantValue {e : Node} (h : e.PlacedExpression tokens) :
    PlacedOutcome tokens (fun _ => True) e.constantValue := by
  have hself := h.isStart
  induction h with
  | literal => exact trivial
  | name | call => exact ⟨hself, rfl⟩
  | binary hop _ hl hr ihl ihr =>
    rw [constantValue_binary hop]
    refine (ihl hl.isStart).bind fun x _ => (ihr hr.isStart).bind fun y _ => ?_
    split
    · exact trivial
    · exact ⟨hself, rfl⟩

theorem Program.placed_declare (p : Program) (table : TableId) {d : Declaration}
    (h : d.position.IsStart tokens) :
    PlacedOutcome tokens (fun _ => True) (p.declare table d) := by
  unfold declare
  cases p.conflict? table d with
  | none => exact trivial
  | some earlier =>
    show (redefinition d earlier).AtToken tokens
    unfold redefinition
    split <;> exact ⟨h, rfl⟩

namespace Parser

theorem placed_declareParams (p : Program) (table : TableId) {params : List (Text × Position)}
    (h : ∀ x ∈ params, x.2.IsStart tokens) :
    PlacedOutcome tokens (fun _ => True) (declareParams p table params) := by
  induction params generalizing p with
  | nil => exact trivial
  | cons x rest ih =>
    rw [List.forall_mem_cons] at h
    refine (p.placed_declare table h.1).bind fun y _ => ?_
    exact (ih y.1 h.2).bind fun _ _ => trivial

/-- The names of a method and of its parameters are tokens. -/
structure MethodHead.Placed (tokens : List Token) (head : MethodHead) : Prop where
  place : head.place.IsStart tokens
  params : ∀ x ∈ head.params, x.2.IsStart tokens

theorem placed_declareMethod (p : Program) {head : MethodHead} (h : head.Placed tokens) :
    PlacedOutcome tokens (fun _ => True) (declareMethod p head) := by
  refine (p.placed_declare Program.classTable h.place).bind fun y _ => ?_
  have hparams : ∀ x ∈ head.params.reverse, x.2.IsStart tokens := fun x hx =>
    h.params x (List.mem_reverse.1 hx)
  exact (placed_declareParams _ _ hparams).bind fun _ _ => trivial

/-! ### Statements -/

/-- The condition that is being read starts at a parenthesis. -/
def ExprUse.Placed (tokens : List Token) : ExprUse → Prop
  | .condition _ _ paren => paren.IsStart tokens
  | _ => True

/-- So does the condition in which a state is. -/
def StmtState.Placed (tokens : List Token) : StmtState → Prop
  | .expression _ use _ => use.Placed tokens
  | _ => True

/-- An objection names a token, if it names one other than that it is about. -/
def Objection.Placed (tokens : List Token) : Objection → Prop
  | .inCondition _ (some start) _ => start.IsStart tokens
  | _ => True

theorem Objection.Placed.atToken_error {o : Objection} (h : o.Placed tokens) {t : Token}
    (ht : t ∈ tokens) (ending : Position) : (o.error ending (some t)).AtToken tokens := by
  cases o with
  | plain c => exact ⟨⟨t, ht, rfl⟩, rfl⟩
  | inCondition owner start c =>
    cases start with
    | none => exact ⟨⟨t, ht, rfl⟩, rfl⟩
    | some start => exact ⟨h, rfl⟩

theorem ExprUse.Placed.objection {use : ExprUse} (h : use.Placed tokens) (c : Complaint) :
    (use.objection c).Placed tokens := by
  cases use with
  | condition owner place paren => exact h
  | _ => exact trivial

namespace StmtState

/-- A step keeps the open condition at a token, or objects to one. -/
def PlacedStep (tokens : List Token) : Step StmtState Objection Node → Prop
  | .shift next => next.Placed tokens
  | .done _ => True
  | .fail o => o.Placed tokens

theorem placed_complete (blocks : List OpenBlock) (node : Node) :
    (complete blocks node).Placed tokens := by
  cases blocks <;> exact trivial

theorem placed_closeBlock (rest : List OpenBlock) (b : OpenBlock) :
    (closeBlock rest b).Placed tokens := by
  unfold closeBlock
  split
  · exact trivial
  · exact trivial
  · exact placed_complete _ _
  · exact placed_complete _ _

theorem placed_stepStart (blocks : List OpenBlock) (t : Token) :
    PlacedStep tokens (stepStart blocks t) := by
  unfold stepStart
  split
  -- Only a closing brace looks at the blocks that are open.
  all_goals try exact trivial
  cases blocks with
  | nil => exact trivial
  | cons b rest => exact placed_closeBlock rest b

theorem placed_stepUse (blocks : List OpenBlock) {use : ExprUse} (h : use.Placed tokens)
    (value : Node) (t : Token) : PlacedStep tokens (stepUse blocks use value t) := by
  unfold stepUse
  split
  · exact placed_complete _ _
  · exact placed_complete _ _
  · exact placed_complete _ _
  · rename_i owner place paren _
    cases owner <;> exact trivial
  · exact h.objection _

theorem placed_stepExpression (blocks : List OpenBlock) {use : ExprUse} (h : use.Placed tokens)
    (e : ExprState) (t : Token) : PlacedStep tokens (stepExpression blocks use e t) := by
  unfold stepExpression
  split
  · exact placed_complete _ _
  · exact placed_stepUse blocks h _ t
  · split
    · exact h
    · exact placed_stepUse blocks h _ t
    · exact h.objection _

theorem placed_step {s : StmtState} (hs : s.Placed tokens) {t : Token} (ht : t ∈ tokens) :
    PlacedStep tokens (s.step t) := by
  cases s with
  | start blocks => exact placed_stepStart blocks t
  | named blocks id place =>
    simp only [step]
    split <;> exact trivial
  | expression blocks use e => exact placed_stepExpression blocks hs e t
  | paren blocks owner place =>
    simp only [step]
    split
    · exact ⟨t, ht, rfl⟩
    · exact trivial
  | brace blocks owner =>
    simp only [step]
    split <;> exact trivial
  | optionalElse blocks place condition thenBlock =>
    simp only [step]
    split
    · exact trivial
    · cases blocks with
      | nil => exact trivial
      | cons b rest => exact placed_stepStart _ t
  | finished node => exact trivial

end StmtState

/-! ### Classes -/

namespace ClassState

/-- The positions that a state keeps are those of tokens, and an initializer has been read from
tokens. -/
def Placed (tokens : List Token) : ClassState → Prop
  | .constantAssign _ _ place | .variableEnd _ _ _ place => place.IsStart tokens
  | .constantValue _ _ place e =>
    place.IsStart tokens ∧ ∃ r : Reading, r.state = e ∧ r.tokens ⊆ tokens
  | .methodParen _ head | .firstParam _ head | .nextParam _ head | .paramName _ head
  | .paramEnd _ head => head.Placed tokens
  | .body _ _ s => s.Placed tokens
  | _ => True

variable {ending : Position} {t : Token}

theorem placed_stepBody (p : Program) (procedure : DeclId) {s : StmtState} (hs : s.Placed tokens)
    (ht : t ∈ tokens) : PlacedOutcome tokens (Placed tokens) (stepBody ending p procedure s t) := by
  have hstep := StmtState.placed_step hs ht
  unfold stepBody
  split
  · rename_i next hnext
    rw [hnext] at hstep
    cases next with
    | finished node => exact trivial
    | _ => exact hstep
  · exact ⟨⟨t, ht, rfl⟩, rfl⟩
  · rename_i o ho
    rw [ho] at hstep
    exact Objection.Placed.atToken_error hstep ht ending

theorem placed_stepConstant (p : Program) (name : Text) {place : Position}
    (hplace : place.IsStart tokens) {r : Reading} (hr : r.tokens ⊆ tokens) (ht : t ∈ tokens) :
    PlacedOutcome tokens (Placed tokens) (stepConstant ending p name place r.state t) := by
  unfold stepConstant
  split
  · rename_i next hnext
    obtain ⟨r', hstate, htokens, -⟩ := Reading.step_shift hnext
    refine ⟨hplace, r', hstate, ?_⟩
    rw [htokens, List.append_subset]
    exact ⟨hr, List.cons_subset.2 ⟨ht, List.nil_subset _⟩⟩
  · exact ⟨⟨t, ht, rfl⟩, rfl⟩
  · rename_i value hvalue
    split
    · obtain ⟨⟨e, rfl, he⟩, -⟩ := Reading.step_done hvalue
      have hconstant := (e.placed (he ▸ hr)).placed_constantValue
      have hdeclare : PlacedOutcome tokens (fun _ => True)
          (declareConstant p name place e.node) :=
        hconstant.bind fun _ _ => (p.placed_declare _ hplace).bind fun _ _ => trivial
      exact hdeclare.bind fun _ _ => trivial
    · exact ⟨⟨t, ht, rfl⟩, rfl⟩

theorem placed_declareVariable (p : Program) (home : Option MethodBody) (name : Text)
    {place : Position} (h : place.IsStart tokens) :
    PlacedOutcome tokens (Placed tokens) (declareVariable p home name place) := by
  cases home <;> exact (p.placed_declare _ h).bind fun _ _ => trivial

theorem placed_stepParamsEnd (p : Program) {head : MethodHead} (h : head.Placed tokens) :
    PlacedOutcome tokens (Placed tokens) (stepParamsEnd p head) :=
  (placed_declareMethod p h).bind fun _ _ => trivial

/-- **A token keeps the positions of a state those of tokens, or is refused at one of them.** -/
theorem placed_step {s : ClassState} (hs : s.Placed tokens) (ht : t ∈ tokens) :
    PlacedOutcome tokens (Placed tokens) (s.step ending t) := by
  have hstart : t.position.IsStart tokens := ⟨t, ht, rfl⟩
  unfold step
  split
  -- Most tokens change nothing that the state keeps.
  all_goals try exact trivial
  all_goals try exact hs
  -- A constant has a name, an equals sign and a value,
  · exact hstart
  · exact ⟨hs, .operand [] {}, rfl, List.nil_subset _⟩
  · obtain ⟨hplace, r, rfl, hr⟩ := hs
    exact placed_stepConstant _ _ hplace hr ht
  -- a variable a name and a semicolon,
  · exact hstart
  · exact placed_declareVariable _ _ _ hs
  -- and a method a name and parameters, which may be none,
  · exact ⟨hstart, List.forall_mem_nil _⟩
  · exact placed_stepParamsEnd _ hs
  · exact ⟨hs.place, List.forall_mem_cons.2 ⟨hstart, hs.params⟩⟩
  · exact placed_stepParamsEnd _ hs
  -- with statements behind them.
  · exact placed_stepBody (s := .start _) _ _ trivial ht
  · exact placed_stepBody _ _ hs ht
  -- No other token can stand here.
  · exact ⟨hstart, rfl⟩

theorem placed_foldlM {s : ClassState} (hs : s.Placed tokens) {ts : List Token}
    (h : ts ⊆ tokens) : PlacedOutcome tokens (Placed tokens) (ts.foldlM (step ending) s) := by
  induction ts generalizing s with
  | nil => exact hs
  | cons t ts ih =>
    rw [List.cons_subset] at h
    rw [List.foldlM_cons]
    exact (placed_step hs h.1).bind fun s' hs' => ih hs' h.2

/-- A condition that is open starts at a parenthesis. -/
theorem Placed.openCondition {s : ClassState} (hs : s.Placed tokens) {owner : ConditionOwner}
    {paren : Position} (h : s.openCondition = some (owner, some paren)) :
    paren.IsStart tokens := by
  unfold ClassState.openCondition at h
  split at h
  · cases h
  · cases h
    exact hs
  · cases h

/-- The end of the tokens is refused behind the last one, or at the condition that is open. -/
theorem Placed.finish {s : ClassState} (hs : s.Placed tokens) {e : CompileError}
    (h : s.finish ending = .error e) : e.AtToken tokens ∨
      (e.kind = .unexpectedEnd ∨ e.kind = .badCondition) ∧ e.position = ending := by
  have hclosed : ∀ p, s ≠ .closed p := by
    rintro p rfl
    cases h
  obtain ⟨what, hfinish⟩ := finish_of_ne_closed ending hclosed
  obtain rfl := Except.error.inj (hfinish.symm.trans h)
  cases hopen : s.openCondition with
  | none => exact Or.inr ⟨Or.inl rfl, rfl⟩
  | some condition =>
    obtain ⟨owner, start⟩ := condition
    cases start with
    | none => exact Or.inr ⟨Or.inr rfl, rfl⟩
    | some paren => exact Or.inl ⟨hs.openCondition hopen, rfl⟩

end ClassState

end Parser

/-- **Tokens that form no class are refused at one of them**, or behind the last one when they end
too soon. -/
theorem Program.atToken_of_ofTokens {e : CompileError} (h : ofTokens tokens = .error e) :
    e.AtToken tokens ∨ (e.kind = .unexpectedEnd ∨ e.kind = .badCondition) ∧
      e.position = endOfTokens tokens := by
  have hreads : PlacedOutcome tokens (ClassState.Placed tokens)
      (tokens.foldlM (ClassState.step (endOfTokens tokens)) .classWord) :=
    ClassState.placed_foldlM (s := .classWord) trivial (List.Subset.refl tokens)
  unfold ofTokens at h
  rcases bind_eq_error.1 h with herror | ⟨s, hs, herror⟩
  · rw [herror] at hreads
    exact Or.inl hreads
  · rw [hs] at hreads
    exact ClassState.Placed.finish hreads herror

end Classwright
