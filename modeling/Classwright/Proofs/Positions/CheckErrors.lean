import Classwright.Check.Analysis
import Classwright.Proofs.Positions.Trees
import Classwright.Proofs.Tree.Reachability

/-!
# Where the checks fail

Name resolution, the search for unreachable statements and the analysis fail at a node of a
procedure or at the name of one.  In a program that takes its positions from some tokens these are
tokens (`Program.Placed.atToken_of_resolve`, `Program.Placed.placed_checkReachability`,
`Program.Placed.placed_analyze`).
-/

namespace Classwright

variable {tokens : List Token}

namespace Node

/-! ### Uses -/

theorem mem_usesAll {nodes : List Node} {u : Use} :
    u ∈ usesAll nodes ↔ ∃ node ∈ nodes, u ∈ node.uses := by
  induction nodes with
  | nil => simp [usesAll]
  | cons node rest ih => rw [usesAll, List.mem_append, ih, List.exists_mem_cons_iff]

/-- A use stands where its name or call does. -/
theorem PlacedExpression.atToken_use {e : Node} (h : e.PlacedExpression tokens) :
    ∀ u ∈ e.uses, u.error.AtToken tokens := by
  induction h with
  | literal => exact List.forall_mem_nil _
  | @name t _ ht => exact List.forall_mem_singleton.2 ⟨⟨t, ht, rfl⟩, rfl⟩
  | @call t _ _ ht _ _ ih =>
    rw [uses, List.forall_mem_append]
    refine ⟨fun u hu => ?_, List.forall_mem_singleton.2 ⟨⟨t, ht, rfl⟩, rfl⟩⟩
    obtain ⟨a, hmem, hu⟩ := mem_usesAll.1 hu
    exact ih a hmem u hu
  | binary _ _ _ _ ihl ihr =>
    rw [uses, List.forall_mem_append]
    exact ⟨ihl, ihr⟩

theorem atToken_usesAll {nodes : List Node}
    (h : ∀ s ∈ nodes, ∀ u ∈ s.uses, u.error.AtToken tokens) :
    ∀ u ∈ usesAll nodes, u.error.AtToken tokens := by
  intro u hu
  obtain ⟨s, hmem, hu⟩ := mem_usesAll.1 hu
  exact h s hmem u hu

theorem PlacedStatement.atToken_use {s : Node} (h : s.PlacedStatement tokens) :
    ∀ u ∈ s.uses, u.error.AtToken tokens := by
  induction h with
  | assign ht hk hv =>
    rw [uses, List.forall_mem_append]
    exact ⟨(PlacedExpression.name ht hk).atToken_use, hv.atToken_use⟩
  | call h => exact h.atToken_use
  | leave => exact List.forall_mem_nil _
  | answer _ _ hv => exact hv.atToken_use
  | branch _ _ hc _ _ _ _ iht ihe =>
    rw [uses, List.forall_mem_append, List.forall_mem_append]
    exact ⟨hc.atToken_use, atToken_usesAll iht, atToken_usesAll ihe⟩
  | loop _ _ hc _ _ ih =>
    rw [uses, List.forall_mem_append]
    exact ⟨hc.atToken_use, atToken_usesAll ih⟩

theorem PlacedBlock.atToken_use {b : Node} (h : b.PlacedBlock tokens) :
    ∀ u ∈ b.uses, u.error.AtToken tokens := by
  cases h with
  | intro hs => exact atToken_usesAll fun s hmem => (hs s hmem).atToken_use

/-! ### Unreachable statements -/

theorem Unreachable.mem {statements : List Node} {next : Node} (h : Unreachable statements next) :
    next ∈ statements := by
  obtain ⟨front, s, between, back, rfl, -⟩ := h
  simp

/-- What is refused in some statements is one of them, or one of those in them. -/
theorem placed_refusedAll {statements : List Node}
    (hs : ∀ s ∈ statements, s.PlacedStatement tokens)
    (h : ∀ s ∈ statements, ∀ next ∈ s.refused, next.PlacedStatement tokens) :
    ∀ next ∈ refusedAll false statements, next.PlacedStatement tokens := by
  intro next hnext
  rcases mem_refusedAll.1 hnext with ⟨hdead, -⟩ | hunreachable | ⟨s, hmem, hrefused⟩
  · cases hdead
  · exact hs next hunreachable.mem
  · exact h s hmem next hrefused

theorem PlacedStatement.placed_refused {s : Node} (h : s.PlacedStatement tokens) :
    ∀ next ∈ s.refused, next.PlacedStatement tokens := by
  induction h with
  | branch _ _ _ hthens _ helses _ iht ihe =>
    rw [refused, List.forall_mem_append]
    exact ⟨placed_refusedAll hthens iht, placed_refusedAll helses ihe⟩
  | loop _ _ _ hstatements _ ih => exact placed_refusedAll hstatements ih
  | _ => exact List.forall_mem_nil _

theorem PlacedBlock.placed_checkReachableIn {b : Node} (h : b.PlacedBlock tokens) :
    PlacedOutcome tokens (fun _ => True) b.checkReachableIn := by
  have hrefused : ∀ next ∈ b.refusedIn, next.PlacedStatement tokens := by
    cases h with
    | intro hs => exact placed_refusedAll hs fun s hmem => (hs s hmem).placed_refused
  rw [checkReachableIn_eq]
  cases hfirst : b.refusedIn with
  | nil => exact trivial
  | cons next rest => exact ⟨(hrefused next (hfirst ▸ List.mem_cons_self)).isStart, rfl⟩

end Node

namespace Program

/-! ### Values -/

section

variable (p : Program)

theorem placed_requireValue {e : Node} (h : e.PlacedExpression tokens) {cause : Cause}
    (hcause : cause.isLexical = false) :
    PlacedOutcome tokens (fun _ => True) (p.requireValue e cause) := by
  unfold requireValue
  split
  · exact trivial
  · exact ⟨h.isStart, hcause⟩

theorem checkExpression_binary {op : Operator} (hop : op ≠ .assign) (left right : Node)
    (place : Position) : p.checkExpression (.binary op left right place) = (do
      p.checkExpression left
      p.requireValue left (.operandYieldsNothing op)
      p.checkExpression right
      p.requireValue right (.operandYieldsNothing op)) :=
  checkExpression.eq_2 p op left right place hop

theorem placed_checkArguments (callee : Text) {arguments : List Node}
    (ha : ∀ a ∈ arguments, a.PlacedExpression tokens)
    (h : ∀ a ∈ arguments, PlacedOutcome tokens (fun _ => True) (p.checkExpression a)) :
    PlacedOutcome tokens (fun _ => True) (p.checkArguments callee arguments) := by
  induction arguments with
  | nil => exact trivial
  | cons e rest ih =>
    rw [List.forall_mem_cons] at ha h
    rw [checkArguments]
    exact h.1.bind fun _ _ => (p.placed_requireValue ha.1 rfl).bind fun _ _ => ih ha.2 h.2

theorem placed_checkExpression {e : Node} (h : e.PlacedExpression tokens) :
    PlacedOutcome tokens (fun _ => True) (p.checkExpression e) := by
  induction h with
  | literal | name => exact trivial
  | call _ _ ha ih => exact p.placed_checkArguments _ ha ih
  | binary hop _ hl hr ihl ihr =>
    rw [p.checkExpression_binary hop]
    refine ihl.bind fun _ _ => (p.placed_requireValue hl rfl).bind fun _ _ => ?_
    exact ihr.bind fun _ _ => p.placed_requireValue hr rfl

theorem placed_checkCondition {e : Node} (h : e.PlacedExpression tokens) :
    PlacedOutcome tokens (fun _ => True) (p.checkCondition e) :=
  (p.placed_checkExpression h).bind fun _ _ => p.placed_requireValue h rfl

theorem placed_checkExit (d : Declaration) {value : Node} {place : Position}
    (hplace : place.IsStart tokens)
    (hvalue : PlacedOutcome tokens (fun _ => True) (p.checkExpression value)) :
    PlacedOutcome tokens (fun _ => True) (p.checkExit d value place) := by
  refine hvalue.bind fun _ _ => ?_
  cases d.type <;> dsimp only <;> split <;> first | exact trivial | exact ⟨hplace, rfl⟩

theorem placed_checkStatements (d : Declaration) {statements : List Node}
    (h : ∀ s ∈ statements, PlacedOutcome tokens (fun _ => True) (p.checkStatement d s)) :
    PlacedOutcome tokens (fun _ => True) (p.checkStatements d statements) := by
  induction statements with
  | nil => exact trivial
  | cons s rest ih =>
    rw [List.forall_mem_cons] at h
    exact h.1.bind fun _ _ => ih h.2

theorem placed_checkStatement (d : Declaration) {s : Node} (h : s.PlacedStatement tokens) :
    PlacedOutcome tokens (fun _ => True) (p.checkStatement d s) := by
  induction h with
  | @assign t link value ht hk hv =>
    have hstart : t.position.IsStart tokens := ⟨t, ht, rfl⟩
    refine (p.placed_checkExpression hv).bind fun _ _ => ?_
    refine (p.placed_requireValue hv rfl).bind fun _ _ => ?_
    cases link with
    | none => exact ⟨hstart, rfl⟩
    | some link =>
      dsimp only
      split
      · exact ⟨hstart, rfl⟩
      · exact trivial
  | call h => exact p.placed_checkExpression h
  | @leave t ht => exact p.placed_checkExit d ⟨t, ht, rfl⟩ trivial
  | @answer t _ ht _ hv => exact p.placed_checkExit d ⟨t, ht, rfl⟩ (p.placed_checkExpression hv)
  | branch _ _ hc _ _ _ _ iht ihe =>
    refine (p.placed_checkCondition hc).bind fun _ _ => ?_
    exact (p.placed_checkStatements d iht).bind fun _ _ => p.placed_checkStatements d ihe
  | loop _ _ hc _ _ ih =>
    exact (p.placed_checkCondition hc).bind fun _ _ => p.placed_checkStatements d ih

/-! ### Assignment -/

theorem eq_of_unassignedRead? {assigned : AssignedSet} {node : Node} {e : CompileError}
    (h : p.unassignedRead? assigned node = some e) :
    e.position = node.position ∧ e.cause.isLexical = false := by
  unfold unassignedRead? at h
  split at h
  · split at h
    · cases h
      exact ⟨rfl, rfl⟩
    · cases h
  · cases h

/-- A read that is refused is a name of the tree. -/
theorem placed_checkReads (assigned : AssignedSet) {node : Node}
    (h : ∀ n ∈ node.nodes, ∃ t ∈ tokens, n.StandsAt t) :
    PlacedOutcome tokens (fun _ => True) (p.checkReads assigned node) := by
  unfold checkReads
  split
  · rename_i e he
    obtain ⟨n, hn, he⟩ := List.exists_of_findSome?_eq_some he
    obtain ⟨t, ht, hstands⟩ := h n hn
    obtain ⟨hposition, hcause⟩ := p.eq_of_unassignedRead? he
    exact ⟨⟨t, ht, hposition.trans hstands.position_eq⟩, hcause⟩
  · exact trivial

theorem placed_assignAll {statements : List Node} (h : ∀ s ∈ statements, ∀ assigned,
    PlacedOutcome tokens (fun _ => True) (p.assign assigned s)) (assigned : AssignedSet) :
    PlacedOutcome tokens (fun _ => True) (p.assignAll assigned statements) := by
  induction statements generalizing assigned with
  | nil => exact trivial
  | cons s rest ih =>
    rw [List.forall_mem_cons] at h
    exact (h.1 assigned).bind fun assigned' _ => ih h.2 assigned'

theorem placed_assign {s : Node} (h : s.PlacedStatement tokens) (assigned : AssignedSet) :
    PlacedOutcome tokens (fun _ => True) (p.assign assigned s) := by
  have hstands := h.standsAt
  induction h generalizing assigned with
  | @assign t link value ht hk hv =>
    refine (p.placed_checkReads assigned hv.standsAt).bind fun _ _ => ?_
    cases link <;> exact trivial
  | call | leave | answer =>
    exact (p.placed_checkReads assigned hstands).bind fun _ _ => trivial
  | branch _ _ hc hthens _ helses _ iht ihe =>
    refine (p.placed_checkReads assigned hc.standsAt).bind fun _ _ => ?_
    have hthen := p.placed_assignAll (fun s hs a => iht s hs a (hthens s hs).standsAt) assigned
    have helse := p.placed_assignAll (fun s hs a => ihe s hs a (helses s hs).standsAt) assigned
    exact hthen.bind fun _ _ => helse.bind fun _ _ => trivial
  | loop _ _ hc hstatements _ ih =>
    refine (p.placed_checkReads assigned hc.standsAt).bind fun _ _ => ?_
    have hbody :=
      p.placed_assignAll (fun s hs a => ih s hs a (hstatements s hs).standsAt) assigned
    exact hbody.bind fun _ _ => trivial

/-! ### Programs -/

theorem placed_analyzeProcedure {d : Declaration} (hd : d.position.IsStart tokens)
    (hbody : d.body.PlacedBlock tokens) :
    PlacedOutcome tokens (fun _ => True) (p.analyzeProcedure d) := by
  have hreachable := hbody.placed_checkReachableIn
  have hreturns : PlacedOutcome tokens (fun _ => True) (checkReturns d) := by
    unfold checkReturns
    split
    · exact ⟨hd, rfl⟩
    · exact trivial
  unfold analyzeProcedure checkAssigned
  generalize d.body = body at hbody hreachable ⊢
  cases hbody with
  | intro hs =>
    refine (p.placed_checkStatements d fun s hmem => p.placed_checkStatement d (hs s hmem)).bind
      fun _ _ => hreachable.bind fun _ _ => hreturns.bind fun _ _ => ?_
    exact (p.placed_assignAll (fun s hmem => p.placed_assign (hs s hmem)) _).bind fun _ _ => trivial

end

namespace Placed

variable {p : Program}

/-- **Name resolution fails at a name or a call.** -/
theorem atToken_of_resolve (hp : p.Placed tokens) (hwf : p.WellFormed) {e : CompileError}
    (h : p.resolve.2 = some e) : e.AtToken tokens := by
  rw [Program.resolve, resolveProcedures_snd_eq hwf.nodup_procedures] at h
  obtain ⟨d, hd, h⟩ := List.exists_of_findSome?_eq_some h
  obtain ⟨u, hu, h⟩ := List.exists_of_findSome?_eq_some h
  have hstart := (hp.of_mem_procedures hd).2.atToken_use u hu
  unfold Use.fault at h
  cases htarget : u.target p d.locals with
  | none =>
    rw [htarget] at h
    obtain rfl := Option.some.inj h
    exact hstart
  | some id =>
    rw [htarget] at h
    cases h

/-- **Unreachable code is refused at a statement.** -/
theorem placed_checkReachability (hp : p.Placed tokens) :
    PlacedOutcome tokens (fun _ => True) p.checkReachability :=
  .forM fun _ hd => (hp.of_mem_procedures hd).2.placed_checkReachableIn

/-- **The analysis refuses a node of a procedure**, or its name. -/
theorem placed_analyze (hp : p.Placed tokens) :
    PlacedOutcome tokens (fun _ => True) p.analyze :=
  .forM fun _ hd =>
    p.placed_analyzeProcedure (hp.of_mem_procedures hd).1 (hp.of_mem_procedures hd).2

end Placed

end Program

end Classwright
