import Classwright.Proofs.Except
import Classwright.Proofs.Parser.Trees
import Classwright.Proofs.Tree.Nodes
import Classwright.Tree.Flow

/-!
# Unreachable statements

A statement of a list is unreachable if it stands behind a terminating one (`Node.Unreachable`).
Those of all lists of a block are gathered from left to right (`Node.refusedIn`,
`Node.mem_refusedIn`), and the check refuses the first of them (`Node.checkReachableIn_eq`).
-/

namespace Classwright

namespace Node

/-! ### Terminating statements -/

/-- The statements behind which control never comes: a return, a loop with a terminating body, an
`if` with two terminating blocks, and a block with a terminating statement. -/
inductive Terminating : Node → Prop
  | exit {value : Node} {place : Position} : Terminating (.exit value place)
  | loop {condition body : Node} {place : Position} (hbody : Terminating body) :
      Terminating (.loop condition body place)
  | branch {condition thenBlock elseBlock : Node} {place : Position}
      (hthen : Terminating thenBlock) (helse : Terminating elseBlock) :
      Terminating (.branch condition thenBlock elseBlock place)
  | block {front back : List Node} {s : Node} {place : Position} (hs : Terminating s) :
      Terminating (.block (front ++ s :: back) place)

theorem anyTerminates_iff (ss : List Node) :
    anyTerminates ss = true ↔ ∃ s ∈ ss, s.terminates = true := by
  induction ss with
  | nil => simp [anyTerminates]
  | cons s rest ih => rw [anyTerminates, Bool.or_eq_true, ih, List.exists_mem_cons_iff]

theorem Terminating.terminates {s : Node} (h : s.Terminating) : s.terminates = true := by
  induction h with
  | exit => rfl
  | loop _ ih => rwa [Node.terminates]
  | branch _ _ ihthen ihelse => rw [Node.terminates, ihthen, ihelse, Bool.and_self]
  | block _ ih =>
    rw [Node.terminates, anyTerminates_iff]
    exact ⟨_, by simp, ih⟩

mutual

theorem terminating_of_terminates (s : Node) (h : s.terminates = true) : s.Terminating := by
  match s with
  | .exit value place => exact .exit
  | .loop condition body place => exact .loop (terminating_of_terminates body h)
  | .branch condition thenBlock elseBlock place =>
    rw [terminates, Bool.and_eq_true] at h
    exact .branch (terminating_of_terminates thenBlock h.1)
      (terminating_of_terminates elseBlock h.2)
  | .block statements place =>
    obtain ⟨front, s, back, rfl, hs⟩ := exists_of_anyTerminates statements h
    exact .block hs

theorem exists_of_anyTerminates (ss : List Node) (h : anyTerminates ss = true) :
    ∃ front s back, ss = front ++ s :: back ∧ s.Terminating := by
  match ss with
  | s :: rest =>
    rw [anyTerminates, Bool.or_eq_true] at h
    rcases h with hs | hrest
    · exact ⟨[], s, rest, rfl, terminating_of_terminates s hs⟩
    · obtain ⟨front, s', back, rfl, hs'⟩ := exists_of_anyTerminates rest hrest
      exact ⟨s :: front, s', back, rfl, hs'⟩

end

theorem terminates_iff (s : Node) : s.terminates = true ↔ s.Terminating :=
  ⟨terminating_of_terminates s, Terminating.terminates⟩

/-! ### Statements that are refused -/

/-- The statement stands in the list behind a terminating one. -/
def Unreachable (statements : List Node) (next : Node) : Prop :=
  ∃ front s between back, statements = front ++ s :: (between ++ next :: back) ∧ s.Terminating

/-- The statement is unreachable in one of the lists of a tree. -/
def HoldsUnreachable (node next : Node) : Prop :=
  ∃ statements place, block statements place ∈ node.nodes ∧ Unreachable statements next

mutual

/-- The unreachable statements in the blocks of `if` and `while`, from left to right. -/
def refused : Node → List Node
  | branch _ thenBlock elseBlock _ => refusedIn thenBlock ++ refusedIn elseBlock
  | loop _ body _ => refusedIn body
  | _ => []

/-- The unreachable statements of a block, at any depth. -/
def refusedIn : Node → List Node
  | block statements _ => refusedAll false statements
  | _ => []

/-- The unreachable statements among those behind others, of which one may be terminating. -/
def refusedAll : Bool → List Node → List Node
  | _, [] => []
  | dead, s :: rest =>
    (if dead then [s] else []) ++ (refused s ++ refusedAll (dead || s.terminates) rest)

end

/-- Refuses the first of some statements. -/
def refuseFirst : List Node → Except CompileError Unit
  | [] => .ok ()
  | s :: _ => .error ⟨.unreachableCode, s.position⟩

theorem refuseFirst_append (xs ys : List Node) :
    refuseFirst (xs ++ ys) = refuseFirst xs >>= fun _ => refuseFirst ys := by
  cases xs <;> rfl

theorem refuseFirst_eq_ok {xs : List Node} : refuseFirst xs = .ok () ↔ xs = [] := by
  cases xs with
  | nil => simp [refuseFirst]
  | cons s rest => simp [refuseFirst]

theorem refuseFirst_flatMap {α : Type} (xs : List α) (f : α → List Node) :
    refuseFirst (xs.flatMap f) = xs.forM fun x => refuseFirst (f x) := by
  induction xs with
  | nil => rfl
  | cons x xs ih =>
    rw [List.flatMap_cons, refuseFirst_append, ih]
    rfl

mutual

theorem checkReachable_eq (s : Node) : s.checkReachable = refuseFirst s.refused := by
  match s with
  | .branch _ thenBlock elseBlock _ =>
    rw [checkReachable, refused, refuseFirst_append, checkReachableIn_eq thenBlock,
      checkReachableIn_eq elseBlock]
  | .loop _ body _ => rw [checkReachable, refused, checkReachableIn_eq body]
  | .absent | .literal _ _ | .name _ _ _ | .binary _ _ _ _ | .exit _ _ | .call _ _ _ _
  | .block _ _ => rfl

/-- The check refuses the first unreachable statement. -/
theorem checkReachableIn_eq (s : Node) : s.checkReachableIn = refuseFirst s.refusedIn := by
  match s with
  | .block statements _ => rw [checkReachableIn, refusedIn, checkReachableAll_eq statements]
  | .absent | .literal _ _ | .name _ _ _ | .binary _ _ _ _ | .exit _ _ | .call _ _ _ _
  | .branch _ _ _ _ | .loop _ _ _ => rfl

theorem checkReachableAll_eq (ss : List Node) :
    checkReachableAll ss = refuseFirst (refusedAll false ss) := by
  match ss with
  | [] => rfl
  | [s] =>
    rw [checkReachableAll, refusedAll, if_neg Bool.false_ne_true, List.nil_append, refusedAll,
      List.append_nil, checkReachable_eq s]
    cases refuseFirst s.refused <;> rfl
  | s :: next :: others =>
    have hrest := checkReachableAll_eq (next :: others)
    rw [checkReachableAll, refusedAll, if_neg Bool.false_ne_true, List.nil_append,
      refuseFirst_append, checkReachable_eq s, Bool.false_or]
    -- Behind a terminating statement the next one is refused, whatever is in it.
    by_cases hs : s.terminates = true
    · rw [if_pos hs, hs, refusedAll, if_pos rfl, List.singleton_append, refuseFirst]
    · rw [if_neg hs, hrest, Bool.eq_false_iff.2 hs]

end

/-! ### Which statements are refused -/

theorem not_unreachable_nil (next : Node) : ¬ Unreachable [] next := by
  rintro ⟨front, s, between, back, hlist, -⟩
  simp at hlist

theorem unreachable_cons {s next : Node} {rest : List Node} :
    Unreachable (s :: rest) next ↔ s.Terminating ∧ next ∈ rest ∨ Unreachable rest next := by
  constructor
  · rintro ⟨front, s', between, back, hlist, hs'⟩
    cases front with
    | nil =>
      obtain ⟨rfl, rfl⟩ := List.cons.inj hlist
      exact Or.inl ⟨hs', by simp⟩
    | cons x front =>
      obtain ⟨-, rfl⟩ := List.cons.inj hlist
      exact Or.inr ⟨front, s', between, back, rfl, hs'⟩
  · rintro (⟨hs, hnext⟩ | ⟨front, s', between, back, rfl, hs'⟩)
    · obtain ⟨between, back, rfl⟩ := List.append_of_mem hnext
      exact ⟨[], s, between, back, rfl, hs⟩
    · exact ⟨s :: front, s', between, back, rfl, hs'⟩

theorem mem_refusedAll {dead : Bool} {ss : List Node} {next : Node} :
    next ∈ refusedAll dead ss ↔
      dead = true ∧ next ∈ ss ∨ Unreachable ss next ∨ ∃ s ∈ ss, next ∈ s.refused := by
  induction ss generalizing dead with
  | nil => simp [refusedAll, not_unreachable_nil]
  | cons s rest ih =>
    have hhead : next ∈ (if dead then [s] else []) ↔ dead = true ∧ next = s := by
      cases dead <;> simp
    rw [refusedAll, List.mem_append, List.mem_append, ih, hhead, unreachable_cons, List.mem_cons,
      List.exists_mem_cons_iff, Bool.or_eq_true, terminates_iff]
    grind

/-- An expression has no statements. -/
theorem IsExpression.block_notMem {e : Node} (h : e.IsExpression) (statements : List Node)
    (place : Position) : block statements place ∉ e.nodes := by
  induction h with
  | literal | name => simp [nodes, visit, visitOnto]
  | call _ _ ih =>
    rw [nodes_call]
    simpa using ih
  | binary _ _ _ ihl ihr =>
    rw [nodes_binary]
    simp [ihl, ihr]

theorem holdsUnreachable_block {statements : List Node} {place : Position} {next : Node} :
    HoldsUnreachable (block statements place) next ↔
      Unreachable statements next ∨ ∃ s ∈ statements, HoldsUnreachable s next := by
  simp only [HoldsUnreachable, nodes_block, List.mem_cons, List.mem_flatMap, block.injEq]
  constructor
  · rintro ⟨ss, spot, ⟨rfl, -⟩ | ⟨s, hs, hmem⟩, hnext⟩
    · exact Or.inl hnext
    · exact Or.inr ⟨s, hs, ss, spot, hmem, hnext⟩
  · rintro (hnext | ⟨s, hs, ss, spot, hmem, hnext⟩)
    · exact ⟨statements, place, Or.inl ⟨rfl, rfl⟩, hnext⟩
    · exact ⟨ss, spot, Or.inr ⟨s, hs, hmem⟩, hnext⟩

/-- What is refused in the statements of a list, when in each of them it is what is unreachable. -/
theorem mem_refusedIn_block {statements : List Node} {place : Position} {next : Node}
    (h : ∀ s ∈ statements, next ∈ s.refused ↔ HoldsUnreachable s next) :
    next ∈ (block statements place).refusedIn ↔
      HoldsUnreachable (block statements place) next := by
  rw [refusedIn, mem_refusedAll, holdsUnreachable_block]
  simp only [Bool.false_eq_true, false_and, false_or]
  exact or_congr_right (exists_congr fun s => and_congr_right fun hs => h s hs)

theorem IsStatement.mem_refused {s : Node} (hs : s.IsStatement) {next : Node} :
    next ∈ s.refused ↔ HoldsUnreachable s next := by
  have hleaf {node : Node} (hrefused : node.refused = [])
      (hblock : ∀ ss place, block ss place ∉ node.nodes) :
      next ∈ node.refused ↔ HoldsUnreachable node next := by
    rw [hrefused]
    simp [HoldsUnreachable, hblock]
  induction hs with
  | @assign id value spot place _ hv =>
    have htarget : (Node.name id none spot).nodes = [.name id none spot] := rfl
    refine hleaf rfl fun ss place => ?_
    rw [nodes_binary, htarget]
    simp [hv.block_notMem]
  | call _ ha =>
    refine hleaf rfl fun ss place => ?_
    rw [nodes_call]
    simpa using fun a hmem => (ha a hmem).block_notMem ss place
  | leave => exact hleaf rfl fun ss place => by simp [nodes, visit, visitOnto]
  | answer hv =>
    refine hleaf rfl fun ss place => ?_
    rw [nodes_exit]
    simpa using hv.block_notMem ss place
  | @branch condition thens elses thenPlace elsePlace place hcondition _ _ iht ihe =>
    rw [refused, List.mem_append, mem_refusedIn_block iht, mem_refusedIn_block ihe]
    simp only [HoldsUnreachable, nodes_branch, List.mem_cons, List.mem_append, reduceCtorEq,
      hcondition.block_notMem, false_or, or_and_right, exists_or]
  | @loop condition body bodyPlace place hcondition _ ih =>
    rw [refused, mem_refusedIn_block ih]
    simp only [HoldsUnreachable, nodes_loop, List.mem_cons, List.mem_append, reduceCtorEq,
      hcondition.block_notMem, false_or]

/-- What is refused in a block is what is unreachable in one of its lists. -/
theorem IsBlock.mem_refusedIn {b : Node} (hb : b.IsBlock) {next : Node} :
    next ∈ b.refusedIn ↔ HoldsUnreachable b next := by
  cases hb with
  | intro h => exact mem_refusedIn_block fun s hs => (h s hs).mem_refused

/-- Where nothing is unreachable, only the last statement of a list can be terminating. -/
theorem not_terminating_of_mem_dropLast {node : Node} (h : ∀ next, ¬ HoldsUnreachable node next)
    {statements : List Node} {place : Position} (hmem : block statements place ∈ node.nodes)
    {s : Node} (hs : s ∈ statements.dropLast) : ¬ s.Terminating := by
  intro hterminating
  have hne : statements ≠ [] := by
    rintro rfl
    cases hs
  obtain ⟨front, back, hfront⟩ := List.append_of_mem hs
  have hlist := List.dropLast_append_getLast hne
  rw [hfront, List.append_assoc, List.cons_append] at hlist
  exact h _ ⟨statements, place, hmem, front, s, back, [], hlist.symm, hterminating⟩

end Node

end Classwright
