import Classwright.Check.Analysis
import Classwright.Proofs.Emit.Layout
import Classwright.Proofs.Parser.Bodies
import Classwright.Proofs.Source.Splitting
import Classwright.Proofs.Tree.Reachability

/-!
# Reachability of parsed programs

The unreachable statements of a class stand in its source in the order in which the check finds
them: a statement stands at its first token, and those that are unreachable inside it behind this
one (`Grammar.Stmt.inherited_refused`, `Grammar.Class.sublist_refused`).  So the check refuses the
one that comes first in the source (`Program.checkReachability_refuses_first`).
-/

namespace Classwright

/-! ### Unreachable statements in the source -/

namespace Grammar

/-- A statement stands at its first token, and what is unreachable in it behind this one. -/
def Stmt.RefusedInOrder (s : Stmt) : Prop :=
  ∃ t ts, s.tokens = t :: ts ∧ s.node.position = t.position ∧
    (s.node.refused.map Node.position).Sublist (ts.map Token.position)

/-- What is unreachable in a block stands at some of its tokens, in the same order. -/
def Block.RefusedInOrder (b : Block) : Prop :=
  (b.node.refusedIn.map Node.position).Sublist (b.tokens.map Token.position)

theorem sublist_refusedAll {statements : List Stmt} (h : ∀ s ∈ statements, s.RefusedInOrder)
    (dead : Bool) : ((Node.refusedAll dead (Stmt.nodes statements)).map Node.position).Sublist
      ((Stmt.allTokens statements).map Token.position) := by
  induction statements generalizing dead with
  | nil => exact List.Sublist.refl _
  | cons s rest ih =>
    rw [List.forall_mem_cons] at h
    obtain ⟨t, ts, htokens, hposition, hs⟩ := h.1
    rw [Stmt.nodes, Node.refusedAll, Stmt.allTokens, htokens]
    simp only [List.map_append, List.cons_append, List.map_cons]
    have hrest := hs.append (ih h.2 (dead || s.node.terminates))
    cases dead with
    | false => exact hrest.cons _
    | true =>
      rw [if_pos rfl, List.map_singleton, List.singleton_append, hposition]
      exact hrest.cons_cons _

theorem Block.refusedIn_elseNode (b : Block) (place : Position) :
    (b.elseNode place).refusedIn = b.node.refusedIn := by
  rcases b with ⟨leftBrace, statements, rightBrace⟩
  cases statements <;> rfl

/-- What is unreachable in a part of some tokens stands at some of them all. -/
theorem sublist_of_part {xs : List Position} {part : List Token}
    (h : xs.Sublist (part.map Token.position)) (front back : List Token) :
    xs.Sublist ((front ++ (part ++ back)).map Token.position) := by
  refine h.trans (List.Sublist.map _ ?_)
  exact (List.sublist_append_left part back).trans (List.sublist_append_right front _)

theorem Stmt.inherited_refused : Stmt.Inherited Stmt.RefusedInOrder Block.RefusedInOrder where
  assign name sign value semicolon := ⟨name.1, _, rfl, rfl, List.nil_sublist _⟩
  call c semicolon := by
    obtain ⟨name, leftParen, rest, hc⟩ := c.exists_tokens
    have hstmt : (Stmt.call c semicolon).tokens =
        name.1 :: (leftParen.1 :: rest ++ [semicolon.1]) := by
      rw [Stmt.tokens, hc]
      rfl
    rcases c with ⟨callee, paren, arguments, rightParen⟩
    have hname : callee.1 = name.1 := by
      cases arguments with
      | none => exact (List.cons.inj hc).1
      | some arguments => exact (List.cons.inj hc).1
    refine ⟨name.1, _, hstmt, ?_, ?_⟩
    · rw [← hname]
      cases arguments <;> rfl
    · cases arguments <;> exact List.nil_sublist _
  exit word value semicolon := by
    cases value <;> exact ⟨word.1, _, rfl, rfl, List.nil_sublist _⟩
  branch word condition thens hthens := by
    refine ⟨word.1, _, rfl, rfl, ?_⟩
    have hrefused : (Stmt.branch word condition thens none).node.refused =
        thens.node.refusedIn := List.append_nil _
    rw [hrefused]
    have hpart := sublist_of_part hthens condition.tokens []
    rwa [List.append_nil] at hpart
  branchElse word condition thens elseWord elses hthens helses := by
    refine ⟨word.1, _, rfl, rfl, ?_⟩
    have hrefused : (Stmt.branch word condition thens (some (elseWord, elses))).node.refused =
        thens.node.refusedIn ++ (elses.elseNode elseWord.1.position).refusedIn := rfl
    rw [hrefused, elses.refusedIn_elseNode, List.map_append, List.map_append, List.map_append]
    refine List.Sublist.trans ?_ (List.sublist_append_right _ _)
    exact hthens.append (helses.cons _)
  loop word condition body hbody := by
    refine ⟨word.1, _, rfl, rfl, ?_⟩
    have hpart := sublist_of_part hbody condition.tokens []
    rwa [List.append_nil] at hpart
  block leftBrace statements rightBrace h := by
    exact sublist_of_part (sublist_refusedAll h false) [leftBrace.1] [rightBrace.1]

theorem Method.sublist_refused (m : Method) :
    (m.body.refusedIn.map Node.position).Sublist (m.tokens.map Token.position) := by
  have hstatements : ∀ s ∈ m.statements, s.RefusedInOrder :=
    fun s _ => Stmt.inherited_refused.stmt s
  have hpart := sublist_of_part (sublist_refusedAll hstatements false)
    (m.publicWord.1 :: m.type.1 :: m.name.1 :: m.leftParen.1 :: (Method.paramTokens m.params ++
      m.rightParen.1 :: m.leftBrace.1 :: m.locals.flatMap Variable.tokens)) [m.rightBrace.1]
  show ((Node.refusedAll false (Stmt.nodes m.statements)).map Node.position).Sublist _
  rw [Method.tokens]
  simpa only [List.append_assoc, List.cons_append] using hpart

/-- The unreachable statements of a class, from left to right, stand at some of its tokens, in the
same order. -/
theorem Class.sublist_refused (c : Class) :
    (((c.methods.map Method.body).flatMap Node.refusedIn).map Node.position).Sublist
      (c.tokens.map Token.position) := by
  have hmethods : (((c.methods.map Method.body).flatMap Node.refusedIn).map Node.position).Sublist
      ((c.methods.flatMap Method.tokens).map Token.position) := by
    induction c.methods with
    | nil => exact List.Sublist.refl _
    | cons m ms ih =>
      rw [List.map_cons, List.flatMap_cons, List.flatMap_cons, List.map_append, List.map_append]
      exact m.sublist_refused.append ih
  have hpart := sublist_of_part hmethods
    (c.classWord.1 :: c.name.1 :: c.leftBrace.1 :: (c.constants.flatMap Constant.tokens ++
      c.fields.flatMap Variable.tokens)) [c.rightBrace.1]
  rw [Class.tokens]
  simpa only [List.append_assoc, List.cons_append] using hpart

end Grammar

/-! ### Programs -/

/-- The position is in front of another one: in a line above, or in the same line further left. -/
def Position.Before (p q : Position) : Prop :=
  p.line < q.line ∨ p.line = q.line ∧ p.column < q.column

theorem Token.Precedes.before {t u : Token} (h : t.Precedes u) : t.position.Before u.position := by
  simp only [Precedes] at h
  simp only [Position.Before, Token.position]
  omega

namespace Program

variable {text : Text} {p : Program}

/-- The statement is unreachable in one of the lists of a procedure, however deep. -/
def HoldsUnreachable (p : Program) (next : Node) : Prop :=
  ∃ id ∈ p.procedures, ∃ d, p.decl? id = some d ∧ d.body.HoldsUnreachable next

/-- The unreachable statements of a program, one procedure after the other. -/
def refused (p : Program) : List Node :=
  (p.procedures.filterMap p.decl?).flatMap fun d => d.body.refusedIn

theorem checkReachability_eq (p : Program) : p.checkReachability = Node.refuseFirst p.refused := by
  rw [refused, Node.refuseFirst_flatMap]
  simp only [checkReachability, forProcedures, Node.checkReachableIn_eq]

theorem mem_refused (h : ofText text = .ok p) {next : Node} :
    next ∈ p.refused ↔ p.HoldsUnreachable next := by
  obtain ⟨group, hbuilt⟩ := built_of_ofText h
  have hblock {id : DeclId} {d : Declaration} (hid : id ∈ p.procedures)
      (hd : p.decl? id = some d) : d.body.IsBlock := by
    obtain ⟨d', hd', hk⟩ := hbuilt.wellFormed.1.mem_procedures.1 hid
    obtain rfl := Option.some.inj (hd'.symm.trans hd)
    exact hbuilt.isBlock_body hd hk
  simp only [refused, List.mem_flatMap, List.mem_filterMap]
  constructor
  · rintro ⟨d, ⟨id, hid, hd⟩, hnext⟩
    exact ⟨id, hid, d, hd, (hblock hid hd).mem_refusedIn.1 hnext⟩
  · rintro ⟨id, hid, d, hd, hnext⟩
    exact ⟨d, ⟨id, hid, hd⟩, (hblock hid hd).mem_refusedIn.2 hnext⟩

/-- The unreachable statements stand in the source in the order in which they are found. -/
theorem pairwise_refused (h : ofText text = .ok p) :
    (p.refused.map Node.position).Pairwise Position.Before := by
  obtain ⟨tokens, c, htokens, rfl, hc, hbodies⟩ := exists_bodies h
  obtain ⟨segments, hdivides, hsegments⟩ := Token.ofText_eq_ok_iff.1 htokens
  have hordered : (c.tokens.map Token.position).Pairwise Position.Before := by
    rw [← hsegments, List.pairwise_map]
    exact (hdivides.pairwise []).imp Token.Precedes.before
  have hrefused : p.refused = (c.methods.map Grammar.Method.body).flatMap Node.refusedIn := by
    rw [← hbodies, List.flatMap_map]
    rfl
  rw [hrefused]
  exact hordered.sublist c.sublist_refused

/-- **Unreachable code is reported exactly, and where it starts.**  For a program that has been
parsed, the check passes exactly if no list of statements in a procedure, however deep, goes on
behind a terminating one.  Otherwise the error stands at such a statement, and all others of the
program stand behind it in the source.  And when the check has passed, each statement of a list can
end normally, except for the last one. -/
theorem checkReachability_refuses_first (h : ofText text = .ok p) :
    (p.checkReachability = .ok () ↔ ∀ next, ¬ p.HoldsUnreachable next) ∧
    (∀ e, p.checkReachability = .error e → e.cause = .unreachableCode ∧
      ∃ first, p.HoldsUnreachable first ∧ e.position = first.position ∧
        ∀ next, p.HoldsUnreachable next → next = first ∨ first.position.Before next.position) ∧
    (p.checkReachability = .ok () → ∀ id ∈ p.procedures, ∀ d, p.decl? id = some d →
      ∀ statements place, .block statements place ∈ d.body.nodes →
        ∀ s ∈ statements.dropLast, s.completes = true) := by
  have hpass : p.checkReachability = .ok () ↔ ∀ next, ¬ p.HoldsUnreachable next := by
    rw [checkReachability_eq, Node.refuseFirst_eq_ok, List.eq_nil_iff_forall_not_mem]
    exact forall_congr' fun next => not_congr (mem_refused h)
  refine ⟨hpass, ?_, ?_⟩
  · intro e he
    have hordered := pairwise_refused h
    rw [checkReachability_eq] at he
    -- the error is that of the first refused statement, and the others are in order behind it
    cases hrefused : p.refused with
    | nil =>
      rw [hrefused] at he
      cases he
    | cons first rest =>
      rw [hrefused] at he hordered
      obtain rfl := Except.error.inj he
      refine ⟨rfl, first, (mem_refused h).1 (hrefused ▸ List.mem_cons_self), rfl, ?_⟩
      intro next hnext
      have hmem := (mem_refused h).2 hnext
      rw [hrefused, List.mem_cons] at hmem
      rw [List.map_cons, List.pairwise_cons] at hordered
      exact hmem.imp_right fun hrest => hordered.1 _ (List.mem_map_of_mem hrest)
  · intro hok id hid d hd statements place hblock s hs
    have hnone : ∀ next, ¬ d.body.HoldsUnreachable next :=
      fun next hnext => hpass.1 hok next ⟨id, hid, d, hd, hnext⟩
    have hterminating := Node.not_terminating_of_mem_dropLast hnone hblock hs
    -- a statement that cannot end normally is terminating
    by_contra hcompletes
    rw [Bool.not_eq_true] at hcompletes
    apply hterminating
    rw [← Node.terminates_iff]
    exact Node.terminates_of_completes_eq_false s hcompletes

/-- A class with three unreachable statements: the second one of the block inside the `if`, the one
behind the `if`, and one of the next procedure. -/
def unreachableSource : Text :=
  Text.ofString ("class U \x7b\n" ++
    "public int f(int a) \x7b if (a) \x7b while (1) \x7b return 1; \x7d\n" ++
    " a = 2; \x7d else \x7b return 3; \x7d return 4; \x7d\n" ++
    "public void g() \x7b return; g(); \x7d \x7d")

set_option maxRecDepth 20000 in
theorem checkReachability_refuses_first_nested : ∃ p e, ofText unreachableSource = .ok p ∧
    p.checkReachability = .error e ∧ e.position = ⟨3, 2⟩ ∧ ∃ first, p.HoldsUnreachable first ∧
      e.position = first.position ∧ ∀ next, p.HoldsUnreachable next →
        next = first ∨ first.position.Before next.position := by
  have hcheck : ((ofText unreachableSource).toOption.any fun p =>
      p.checkReachability == .error ⟨.unreachableCode, ⟨3, 2⟩⟩) = true := by
    simp only [unreachableSource, Text.ofString_append]
    repeat rw [Text.ofString_ofList]
    cbv
  obtain ⟨p, h, hrefusal⟩ := exists_of_any hcheck
  have herror := beq_iff_eq.1 hrefusal
  obtain ⟨-, hfirst⟩ := (checkReachability_refuses_first h).2.1 _ herror
  exact ⟨p, _, h, herror, rfl, hfirst⟩

end Program

end Classwright
