import Classwright.Parser.Statement
import Classwright.Proofs.Source.Tokens

/-!
# The trees the parser makes

`Node.IsExpression`, `Node.IsStatement` and `Node.IsBlock` say which trees are expressions,
statements and blocks of the language before names are linked.  A state of the parser is *sound*
when everything it has put aside is of this kind; each token keeps a state sound, so every tree
that is handed on is of this kind too (`ExprState.sound_step`, `StmtState.sound_step`).
-/

namespace Classwright

namespace Node

/-- The trees of expressions. -/
inductive IsExpression : Node → Prop
  | literal {v : Int32} {place : Position} (h : 0 ≤ v) : IsExpression (.literal v place)
  | name {id : Text} {place : Position} (h : id.IsIdentifier) : IsExpression (.name id none place)
  | call {callee : Text} {arguments : List Node} {place : Position} (h : callee.IsIdentifier)
      (ha : ∀ a ∈ arguments, IsExpression a) : IsExpression (.call callee arguments none place)
  | binary {op : Operator} {left right : Node} {place : Position} (h : op ≠ .assign)
      (hl : IsExpression left) (hr : IsExpression right) :
      IsExpression (.binary op left right place)

/-- The trees of statements. -/
inductive IsStatement : Node → Prop
  | assign {id : Text} {value : Node} {spot place : Position} (h : id.IsIdentifier)
      (hv : value.IsExpression) : IsStatement (.binary .assign (.name id none spot) value place)
  | call {callee : Text} {arguments : List Node} {place : Position} (h : callee.IsIdentifier)
      (ha : ∀ a ∈ arguments, IsExpression a) : IsStatement (.call callee arguments none place)
  | leave {place : Position} : IsStatement (.exit .absent place)
  | answer {value : Node} {place : Position} (h : value.IsExpression) :
      IsStatement (.exit value place)
  | branch {condition : Node} {thens elses : List Node} {thenPlace elsePlace place : Position}
      (h : condition.IsExpression) (ht : ∀ s ∈ thens, IsStatement s)
      (he : ∀ s ∈ elses, IsStatement s) :
      IsStatement (.branch condition (.block thens thenPlace) (.block elses elsePlace) place)
  | loop {condition : Node} {body : List Node} {bodyPlace place : Position}
      (h : condition.IsExpression) (hb : ∀ s ∈ body, IsStatement s) :
      IsStatement (.loop condition (.block body bodyPlace) place)

/-- The trees of blocks. -/
inductive IsBlock : Node → Prop
  | intro {statements : List Node} {place : Position} (h : ∀ s ∈ statements, IsStatement s) :
      IsBlock (.block statements place)

end Node

namespace Parser

open Node

/-! ### Expressions -/

/-- The operands that wait are expressions. -/
def Pending.Sound (pending : Pending) : Prop :=
  ∀ waiting ∈ pending, waiting.1.IsExpression ∧ waiting.2 ≠ .assign

theorem operatorOf?_ne_assign {kind : TokenKind} {op : Operator}
    (h : operatorOf? kind = some op) : op ≠ .assign := by
  rintro rfl
  cases kind <;> simp [operatorOf?] at h

namespace Pending

theorem Sound.reduce {pending : Pending} {least : Nat} {value : Node} (h : pending.Sound)
    (hv : value.IsExpression) :
    (pending.reduce least value).1.Sound ∧ (pending.reduce least value).2.IsExpression := by
  induction pending generalizing value with
  | nil => exact ⟨h, hv⟩
  | cons waiting rest ih =>
    obtain ⟨left, op⟩ := waiting
    have hrest : Sound rest := fun w hw => h w (List.mem_cons_of_mem _ hw)
    obtain ⟨hleft, hop⟩ := h (left, op) List.mem_cons_self
    unfold Pending.reduce
    split
    · exact ih hrest (.binary hop hleft hv)
    · exact ⟨h, hv⟩

theorem Sound.push {pending : Pending} {value : Node} {op : Operator} (h : pending.Sound)
    (hv : value.IsExpression) (hop : op ≠ .assign) : (pending.push value op).Sound := by
  obtain ⟨hrest, hleft⟩ := @Sound.reduce pending op.priority value h hv
  intro waiting hw
  rcases List.mem_cons.1 hw with rfl | hw
  · exact ⟨hleft, hop⟩
  · exact hrest waiting hw

theorem Sound.close {pending : Pending} {value : Node} (h : pending.Sound)
    (hv : value.IsExpression) : (pending.close value).IsExpression :=
  (h.reduce hv).2

end Pending

/-- What waits outside an open parenthesis is made of expressions. -/
def Opening.Sound : Opening → Prop
  | .group outer => outer.Sound
  | .arguments callee _ done outer =>
    callee.IsIdentifier ∧ (∀ e ∈ done, e.IsExpression) ∧ outer.Sound

namespace ExprState

/-- Everything a state has put aside is made of expressions. -/
def Sound : ExprState → Prop
  | .operand openings pending => (∀ o ∈ openings, o.Sound) ∧ pending.Sound
  | .identifier openings pending id _ =>
    (∀ o ∈ openings, o.Sound) ∧ pending.Sound ∧ id.IsIdentifier
  | .operator openings pending value =>
    (∀ o ∈ openings, o.Sound) ∧ pending.Sound ∧ value.IsExpression

theorem sound_start : start.Sound :=
  ⟨by simp, by simp [Pending.Sound]⟩

theorem sound_startCall {callee : Text} {place : Position} (h : callee.IsIdentifier) :
    (startCall callee place).Sound :=
  ⟨by simp [Opening.Sound, Pending.Sound, h], by simp [Pending.Sound]⟩

theorem sound_stepValue {openings : List Opening} {pending : Pending} {value : Node} {t : Token}
    (ho : ∀ o ∈ openings, o.Sound) (hp : pending.Sound) (hv : value.IsExpression) :
    (∀ next, stepValue openings pending value t = .shift next → next.Sound) ∧
      ∀ e, stepValue openings pending value t = .done e → e.IsExpression := by
  have hclose := hp.close hv
  unfold stepValue
  split
  -- an operator in front of which the value is an operand
  · rename_i op hop
    split
    · simp
    · simp only [Step.shift.injEq, forall_eq', reduceCtorEq, false_implies, implies_true, and_true]
      exact ⟨ho, hp.push hv (operatorOf?_ne_assign hop)⟩
  · split
    -- a bracket is closed, around a tree
    · rename_i outer rest _
      simp only [Step.shift.injEq, forall_eq', reduceCtorEq, false_implies, implies_true, and_true]
      rw [List.forall_mem_cons] at ho
      exact ⟨ho.2, ho.1, hclose⟩
    -- an argument ends at a comma
    · rename_i callee place done outer rest _
      simp only [Step.shift.injEq, forall_eq', reduceCtorEq, false_implies, implies_true, and_true]
      rw [List.forall_mem_cons] at ho
      obtain ⟨⟨hcallee, hdone, houter⟩, hrest⟩ := ho
      refine ⟨List.forall_mem_cons.2 ⟨⟨hcallee, ?_, houter⟩, hrest⟩, by simp [Pending.Sound]⟩
      exact List.forall_mem_cons.2 ⟨hclose, hdone⟩
    -- the last argument, with which the call is complete
    · rename_i callee place done outer rest _
      simp only [Step.shift.injEq, forall_eq', reduceCtorEq, false_implies, implies_true, and_true]
      rw [List.forall_mem_cons] at ho
      obtain ⟨⟨hcallee, hdone, houter⟩, hrest⟩ := ho
      refine ⟨hrest, houter, .call hcallee ?_⟩
      intro a ha
      rcases List.mem_cons.1 (List.mem_reverse.1 ha) with rfl | ha
      · exact hclose
      · exact hdone a ha
    · split
      -- the tree ends in front of the token
      · rename_i e he
        have : e = pending.close value := by
          unfold closeAll at he
          split at he <;> simp_all
        subst this
        simpa using hclose
      · simp

theorem sound_stepOperand {openings : List Opening} {pending : Pending} {t : Token}
    (ho : ∀ o ∈ openings, o.Sound) (hp : pending.Sound) (ht : t.Genuine) :
    (∀ next, stepOperand openings pending t = .shift next → next.Sound) ∧
      ∀ e, stepOperand openings pending t ≠ .done e := by
  unfold stepOperand
  split
  · simp only [Step.shift.injEq, forall_eq', ne_eq, reduceCtorEq, not_false_eq_true, implies_true,
      and_true]
    exact ⟨ho, hp, .literal ht.value_nonneg⟩
  · rename_i hk
    simp only [Step.shift.injEq, forall_eq', ne_eq, reduceCtorEq, not_false_eq_true, implies_true,
      and_true]
    exact ⟨ho, hp, ht.identifier hk⟩
  · simp only [Step.shift.injEq, forall_eq', ne_eq, reduceCtorEq, not_false_eq_true, implies_true,
      and_true]
    exact ⟨List.forall_mem_cons.2 ⟨hp, ho⟩, by simp [Pending.Sound]⟩
  · split
    · simp only [Step.shift.injEq, forall_eq', ne_eq, reduceCtorEq, not_false_eq_true,
        implies_true, and_true]
      rw [List.forall_mem_cons] at ho
      exact ⟨ho.2, ho.1.2.2, .call ho.1.1 (by simp)⟩
    · simp
  · simp

/-- A token keeps a state sound, and an expression that is complete is one. -/
theorem sound_step {s : ExprState} {t : Token} (hs : s.Sound) (ht : t.Genuine) :
    (∀ next, s.step t = .shift next → next.Sound) ∧
      ∀ e, s.step t = .done e → e.IsExpression := by
  cases s with
  | operand openings pending =>
    obtain ⟨hshift, hdone⟩ := sound_stepOperand hs.1 hs.2 ht
    exact ⟨hshift, fun e he => absurd he (hdone e)⟩
  | identifier openings pending id place =>
    simp only [step]
    split
    · simp only [Step.shift.injEq, forall_eq', reduceCtorEq, false_implies, implies_true, and_true]
      refine ⟨List.forall_mem_cons.2 ⟨⟨hs.2.2, by simp, hs.2.1⟩, hs.1⟩, by simp [Pending.Sound]⟩
    · exact sound_stepValue hs.1 hs.2.1 (.name hs.2.2)
  | operator openings pending value => exact sound_stepValue hs.1 hs.2.1 hs.2.2

/-! ### Calls that stand alone -/

/-- The outermost open parenthesis is that of a call behind which nothing waits. -/
def InCall (openings : List Opening) : Prop :=
  ∃ inner callee place done, openings = inner ++ [.arguments callee place done []]

/-- The state is inside a call that stands alone, or just behind it. -/
def IsCalled : ExprState → Prop
  | .operand openings _ => InCall openings
  | .identifier openings _ _ _ => InCall openings
  | .operator openings _ value =>
    InCall openings ∨ openings = [] ∧ ∃ callee arguments place, value = .call callee arguments none place

theorem InCall.cons {openings : List Opening} (h : InCall openings) (o : Opening) :
    InCall (o :: openings) := by
  obtain ⟨inner, callee, place, done, rfl⟩ := h
  exact ⟨o :: inner, callee, place, done, rfl⟩

theorem InCall.of_cons {o : Opening} {rest : List Opening} (h : InCall (o :: rest)) :
    InCall rest ∨ rest = [] ∧ ∃ callee place done, o = .arguments callee place done [] := by
  obtain ⟨inner, callee, place, done, h⟩ := h
  cases inner with
  | nil =>
    simp only [List.nil_append, List.cons.injEq] at h
    exact Or.inr ⟨h.2, callee, place, done, h.1⟩
  | cons o' inner =>
    simp only [List.cons_append, List.cons.injEq] at h
    exact Or.inl ⟨inner, callee, place, done, h.2⟩

theorem isCalled_stepValue {openings : List Opening} {pending : Pending} {value : Node} {t : Token}
    {next : ExprState} (h : InCall openings)
    (hs : stepValue openings pending value t = .shift next) : next.IsCalled := by
  unfold stepValue at hs
  split at hs
  · split at hs
    · simp at hs
    · obtain rfl := Step.shift.inj hs
      exact h
  · split at hs
    · obtain rfl := Step.shift.inj hs
      rcases h.of_cons with h | ⟨-, _, _, _, h⟩
      · exact Or.inl h
      · exact absurd h (by simp)
    · obtain rfl := Step.shift.inj hs
      rcases h.of_cons with h | ⟨rfl, _, _, _, h⟩
      · exact h.cons _
      · injection h with _ _ _ houter
        subst houter
        exact ⟨[], _, _, _, rfl⟩
    · obtain rfl := Step.shift.inj hs
      rcases h.of_cons with h | ⟨rfl, _, _, _, h⟩
      · exact Or.inl h
      · exact Or.inr ⟨rfl, _, _, _, rfl⟩
    · split at hs <;> simp at hs

theorem isCalled_step {s next : ExprState} {t : Token} (h : s.IsCalled)
    (hs : s.step t = .shift next) (hend : ∀ pending value, s ≠ .operator [] pending value) :
    next.IsCalled := by
  cases s with
  | operand openings pending =>
    simp only [step, stepOperand] at hs
    split at hs
    · obtain rfl := Step.shift.inj hs
      exact Or.inl h
    · obtain rfl := Step.shift.inj hs
      exact h
    · obtain rfl := Step.shift.inj hs
      exact InCall.cons h _
    · split at hs
      · obtain rfl := Step.shift.inj hs
        rcases InCall.of_cons h with h | ⟨rfl, _, _, _, h⟩
        · exact Or.inl h
        · exact Or.inr ⟨rfl, _, _, _, rfl⟩
      · simp at hs
    · simp at hs
  | identifier openings pending id place =>
    simp only [step] at hs
    split at hs
    · obtain rfl := Step.shift.inj hs
      exact InCall.cons h _
    · exact isCalled_stepValue h hs
  | operator openings pending value =>
    rcases h with h | ⟨rfl, -⟩
    · exact isCalled_stepValue h hs
    · exact absurd rfl (hend pending value)

/-- Inside a call no token completes the expression. -/
theorem step_ne_done_of_isCalled {s : ExprState} {t : Token} {e : Node} (h : s.IsCalled)
    (hend : ∀ pending value, s ≠ .operator [] pending value) : s.step t ≠ .done e := by
  have hvalue (openings : List Opening) (pending : Pending) (value : Node) (ho : InCall openings) :
      stepValue openings pending value t ≠ .done e := by
    obtain ⟨inner, callee, place, done, rfl⟩ := ho
    unfold stepValue
    split
    · split <;> simp
    · split
      · simp
      · simp
      · simp
      · cases inner with
        | nil => simp [closeAll]
        | cons o inner => cases o <;> simp [closeAll]
  cases s with
  | operand openings pending =>
    simp only [step, stepOperand]
    repeat' split
    all_goals simp
  | identifier openings pending id place =>
    simp only [step]
    split
    · simp
    · exact hvalue _ _ _ h
  | operator openings pending value =>
    rcases h with h | ⟨rfl, -⟩
    · exact hvalue _ _ _ h
    · exact absurd rfl (hend pending value)

end ExprState

/-! ### Statements -/

/-- The owner of a block inside the one that is asked for, with the trees it has put aside. -/
def BlockOwner.IsInner : BlockOwner → Prop
  | .goal => False
  | .thenOf _ condition => condition.IsExpression
  | .elseOf _ condition thenBlock _ => condition.IsExpression ∧ thenBlock.IsBlock
  | .bodyOf _ condition => condition.IsExpression

/-- Open blocks that hold statements, of which the outermost is the one that is asked for. -/
inductive OpenBlocks : List OpenBlock → Prop
  | goal {brace : Position} {done : List Node} (h : ∀ s ∈ done, s.IsStatement) :
      OpenBlocks [⟨.goal, brace, done⟩]
  | inner {owner : BlockOwner} {brace : Position} {done : List Node} {rest : List OpenBlock}
      (ho : owner.IsInner) (h : ∀ s ∈ done, s.IsStatement) (hr : OpenBlocks rest) :
      OpenBlocks (⟨owner, brace, done⟩ :: rest)

/-- What holds of an expression state for the sake of what the expression is for. -/
def ExprUse.Fits : ExprUse → ExprState → Prop
  | .assigned id _, _ => id.IsIdentifier
  | .called, e => e.IsCalled
  | _, _ => True

theorem OpenBlocks.add {b : OpenBlock} {rest : List OpenBlock}
    (h : OpenBlocks (b :: rest)) {node : Node} (hn : node.IsStatement) :
    OpenBlocks (b.add node :: rest) := by
  cases h with
  | goal hd => exact .goal (List.forall_mem_cons.2 ⟨hn, hd⟩)
  | inner ho hd hr => exact .inner ho (List.forall_mem_cons.2 ⟨hn, hd⟩) hr

namespace StmtState

/-- Everything a state has put aside is made of statements and expressions. -/
def Sound : StmtState → Prop
  | .start blocks => OpenBlocks blocks
  | .named blocks id _ => OpenBlocks blocks ∧ id.IsIdentifier
  | .expression blocks use e => OpenBlocks blocks ∧ e.Sound ∧ use.Fits e
  | .paren blocks _ _ => OpenBlocks blocks
  | .brace blocks owner => OpenBlocks blocks ∧ owner.IsInner
  | .optionalElse blocks _ condition thenBlock =>
    OpenBlocks blocks ∧ condition.IsExpression ∧ thenBlock.IsBlock
  | .finished node => node.IsBlock

theorem sound_complete {blocks : List OpenBlock} {node : Node} (h : OpenBlocks blocks)
    (hn : node.IsStatement) : (complete blocks node).Sound := by
  cases blocks with
  | nil => cases h
  | cons b rest => exact h.add hn

theorem sound_closeBlock {b : OpenBlock} {rest : List OpenBlock} (h : OpenBlocks (b :: rest)) :
    (closeBlock rest b).Sound := by
  have hdone (done : List Node) (hd : ∀ s ∈ done, s.IsStatement) :
      ∀ s ∈ done.reverse, s.IsStatement := fun s hs => hd s (List.mem_reverse.1 hs)
  cases h with
  | goal hd => exact .intro (hdone _ hd)
  | @inner owner brace done _ ho hd hr =>
    cases owner with
    | goal => exact ho.elim
    | thenOf place condition => exact ⟨hr, ho, .intro (hdone _ hd)⟩
    | elseOf place condition thenBlock elsePlace =>
      obtain ⟨hc, ht⟩ := ho
      cases ht with
      | intro ht =>
        unfold closeBlock
        dsimp only
        split
        · exact sound_complete hr (.branch hc ht (by simp))
        · exact sound_complete hr (.branch hc ht (hdone _ hd))
    | bodyOf place condition => exact sound_complete hr (.loop ho (hdone _ hd))

theorem sound_stepStart {blocks : List OpenBlock} {t : Token} {next : StmtState}
    (h : OpenBlocks blocks) (ht : t.Genuine) (hs : stepStart blocks t = .shift next) :
    next.Sound := by
  unfold stepStart at hs
  split at hs
  · obtain rfl := Step.shift.inj hs
    exact h
  · obtain rfl := Step.shift.inj hs
    exact h
  · obtain rfl := Step.shift.inj hs
    exact ⟨h, ExprState.sound_start, trivial⟩
  · rename_i hk
    obtain rfl := Step.shift.inj hs
    exact ⟨h, ht.identifier hk⟩
  · split at hs
    · obtain rfl := Step.shift.inj hs
      exact sound_closeBlock h
    · simp at hs
  · simp at hs

theorem sound_stepUse {blocks : List OpenBlock} {use : ExprUse} {value : Node} {t : Token}
    {next : StmtState} (h : OpenBlocks blocks) (hv : value.IsExpression)
    (huse : ∀ id place, use = .assigned id place → id.IsIdentifier)
    (hcall : use = .called → ∃ callee arguments place, value = .call callee arguments none place)
    (hs : stepUse blocks use value t = .shift next) : next.Sound := by
  unfold stepUse at hs
  split at hs
  · obtain rfl := Step.shift.inj hs
    exact sound_complete h (.assign (huse _ _ rfl) hv)
  · obtain rfl := Step.shift.inj hs
    exact sound_complete h (.answer hv)
  · obtain rfl := Step.shift.inj hs
    obtain ⟨callee, arguments, place, rfl⟩ := hcall rfl
    cases hv with
    | call hc ha => exact sound_complete h (.call hc ha)
  · rename_i owner place _ _
    obtain rfl := Step.shift.inj hs
    cases owner with
    | ifStatement => exact ⟨h, hv⟩
    | whileStatement => exact ⟨h, hv⟩
  · simp at hs

theorem sound_stepExpression {blocks : List OpenBlock} {use : ExprUse} {e : ExprState} {t : Token}
    {next : StmtState} (h : OpenBlocks blocks) (he : e.Sound) (huse : use.Fits e)
    (ht : t.Genuine) (hs : stepExpression blocks use e t = .shift next) : next.Sound := by
  unfold stepExpression at hs
  split at hs
  · obtain rfl := Step.shift.inj hs
    exact sound_complete h .leave
  · refine sound_stepUse h he.2.2 (by simp) ?_ hs
    intro _
    rcases huse with ⟨inner, _, _, _, hnil⟩ | ⟨-, hcall⟩
    · exact absurd hnil (by simp)
    · exact hcall
  · rename_i use e _ _ _ hcalled _
    obtain ⟨hshift, hdone⟩ := ExprState.sound_step he ht
    split at hs
    · rename_i e' he'
      obtain rfl := Step.shift.inj hs
      refine ⟨h, hshift e' he', ?_⟩
      cases use with
      | called =>
        refine ExprState.isCalled_step huse he' ?_
        exact fun pending value hend => hcalled pending value rfl hend
      | assigned id place => exact huse
      | returned place => trivial
      | condition owner place paren => trivial
    · rename_i value hvalue
      refine sound_stepUse h (hdone value hvalue) ?_ ?_ hs
      · rintro id place rfl
        exact huse
      · rintro rfl
        -- inside a call no token completes the expression
        exact absurd hvalue (ExprState.step_ne_done_of_isCalled huse fun pending value hend =>
          hcalled pending value rfl hend)
    · simp at hs

/-- A token keeps a state sound. -/
theorem sound_step {s next : StmtState} {t : Token} (hs : s.Sound) (ht : t.Genuine)
    (h : s.step t = .shift next) : next.Sound := by
  cases s with
  | start blocks => exact sound_stepStart hs ht h
  | named blocks id place =>
    simp only [step] at h
    split at h
    · obtain rfl := Step.shift.inj h
      exact ⟨hs.1, ExprState.sound_startCall hs.2, [], _, _, _, rfl⟩
    · obtain rfl := Step.shift.inj h
      exact ⟨hs.1, ExprState.sound_start, hs.2⟩
    · simp at h
  | expression blocks use e => exact sound_stepExpression hs.1 hs.2.1 hs.2.2 ht h
  | paren blocks owner place =>
    simp only [step] at h
    split at h
    · obtain rfl := Step.shift.inj h
      exact ⟨hs, ExprState.sound_start, trivial⟩
    · simp at h
  | brace blocks owner =>
    simp only [step] at h
    split at h
    · obtain rfl := Step.shift.inj h
      exact .inner hs.2 (by simp) hs.1
    · simp at h
  | optionalElse blocks place condition thenBlock =>
    obtain ⟨hb, hc, hthen⟩ := hs
    simp only [step] at h
    split at h
    · obtain rfl := Step.shift.inj h
      exact ⟨hb, hc, hthen⟩
    · cases hthen with
      | intro hthen =>
        split at h
        · simp at h
        · exact sound_stepStart (hb.add (.branch hc hthen (by simp))) ht h
  | finished node => simp [step] at h

end StmtState

end Parser

end Classwright
