import Classwright.Proofs.Parser.Precedence

/-!
# Precedence climbing

Precedence climbing joins a row of operands in place: two loops that call each other keep a joined
operand where the last of its operands was, and so find there what has been joined so far
(`climbRow`).  Every round of a loop has to join something; that it does, and never asks for a slot
that does not exist, is part of what is shown.

Wherever a loop starts, the slots from there on hold a row (`Holds`), and the loop takes the
operands at the front of it whose operators bind tightly enough (`Joins`, `joins_loops`).  So the
result is the tree that the stack of the parser gives (`climbRow_eq`), and this is also what the
parser reads a row of factors into (`parseExpression_row`).
-/

namespace Classwright

namespace Parser

open Grammar (operation)

/-! ### The loops -/

/-- The two loops. -/
inductive Climb where
  /-- Joins operands to a left side while their operators bind at least as tightly as `least`. -/
  | left (least : Nat)
  /-- Joins operands to a right side while their operators bind more tightly than `above`. -/
  | right (above : Nat)

/-- A right side is first of all a left side in the same slot. -/
def Climb.rank : Climb → Nat
  | left _ => 0
  | right _ => 1

/-- Joins `value`, of which the last operand has the slot `i`, to operands on its right.  What is
joined to a left side is first made a right side; a right side is what the loop for left sides makes
of its slot, up to the first operator that binds less tightly than the one behind the slot.  The
result is the tree, the slot of its last operand and the slots as they are left; `none` stands for a
slot that does not exist and for a loop that goes on without having joined anything, neither of
which comes up on a row (`climbRow_eq`). -/
def climbLoop (ops : List Operator) (loop : Climb) (slots : Array Node) (value : Node) (i : Nat) :
    Option (Node × Nat × Array Node) :=
  match _hi : ops[i]?, loop with
  | none, _ => some (value, i, slots)
  | some op, .left least =>
    if least ≤ op.priority then do
      let right ← slots[i + 1]?
      let (right, j, slots) ← climbLoop ops (.right op.priority) slots right (i + 1)
      let left := operation value op right
      if _hj : i < j ∧ j < slots.size then
        climbLoop ops (.left least) (slots.setIfInBounds j left) left j
      else none
    else
      some (value, i, slots)
  | some op, .right above =>
    if above < op.priority then do
      let left ← slots[i]?
      let (right, j, slots) ← climbLoop ops (.left op.priority) slots left i
      if _hj : i < j then climbLoop ops (.right above) slots right j else none
    else
      some (value, i, slots)
termination_by (ops.length - i, loop.rank)
decreasing_by
  all_goals have hlt := (List.getElem?_eq_some_iff.1 _hi).1
  · exact Prod.Lex.left _ _ (by omega)
  · exact Prod.Lex.left _ _ (by omega)
  · exact Prod.Lex.right _ Nat.zero_lt_one
  · exact Prod.Lex.left _ _ (by omega)

/-- Joins the operands from the slot `start` on, up to the first operator that binds less tightly
than `least`. -/
def climb (ops : List Operator) (slots : Array Node) (start least : Nat) :
    Option (Node × Nat × Array Node) := do
  let left ← slots[start]?
  climbLoop ops (.left least) slots left start

/-- The tree that precedence climbing makes of a row. -/
def climbRow (first : Node) (rest : Tail Node) : Option Node :=
  if rest.isEmpty then some first
  else do
    let (tree, _, _) ← climb (rest.map Prod.fst) (first :: rest.map Prod.snd).toArray 0 0
    return tree

/-- Two parts of a row of which the first binds at least as tightly as the second starts are
joined one after the other. -/
theorem assemble_append {xs ys : Tail Node}
    (h : ∀ x ∈ xs, ∀ y ∈ ys.head?, y.1.priority ≤ x.1.priority) {pending : Pending}
    (hp : ∀ w ∈ pending, ∀ y ∈ ys.head?, y.1.priority ≤ w.2.priority) (value : Node) :
    assemble pending value (xs ++ ys) = assemble [] (assemble pending value xs) ys := by
  induction xs generalizing pending value with
  | nil =>
    rw [List.nil_append, assemble]
    cases ys with
    | nil => rfl
    | cons y ys =>
      obtain ⟨op, operand⟩ := y
      have hall : ∀ w ∈ pending, op.priority ≤ w.2.priority := fun w hw => hp w hw _ rfl
      rw [assemble, assemble, Pending.push, Pending.push, Pending.reduce_of_forall_le hall]
      rfl
  | cons x xs ih =>
    obtain ⟨op, operand⟩ := x
    rw [List.forall_mem_cons] at h
    rw [List.cons_append, assemble, assemble]
    refine ih h.2 (List.forall_mem_cons.2 ⟨h.1, fun w hw => ?_⟩) operand
    exact hp w (Pending.mem_of_mem_reduce hw)

/-- Behind an operator, the operands of tighter operators make up its right side. -/
theorem assemble_right {left : Node} {op : Operator} {xs : Tail Node}
    (h : ∀ x ∈ xs, op.priority < x.1.priority) (pending : Pending) (value : Node) :
    assemble (pending ++ [(left, op)]) value xs =
      operation left op (assemble pending value xs) := by
  induction xs generalizing pending value with
  | nil => exact pending.close_append_looser left op value
  | cons x xs ih =>
    obtain ⟨op', operand⟩ := x
    rw [List.forall_mem_cons] at h
    have hpush : Pending.push (pending ++ [(left, op)]) value op' =
        pending.push value op' ++ [(left, op)] := by
      rw [Pending.push, Pending.reduce_append_looser h.1]
      rfl
    rw [assemble, assemble, hpush, ih h.2]

/-- From the slot `i` on the slots hold `value` and the operands of `rest`, which have their
operators in front of them. -/
structure Holds (ops : List Operator) (slots : Array Node) (i : Nat) (value : Node)
    (rest : Tail Node) : Prop where
  /-- The operators that are left. -/
  operators : ops.drop i = rest.map Prod.fst
  /-- The slots that are left. -/
  slots : slots.toList.drop i = value :: rest.map Prod.snd

namespace Holds

variable {ops : List Operator} {slots : Array Node} {i : Nat} {value : Node} {rest : Tail Node}

theorem getElem?_slots (h : Holds ops slots i value rest) : slots[i]? = some value := by
  rw [← Array.getElem?_toList, ← List.head?_drop, h.slots, List.head?_cons]

theorem getElem?_ops (h : Holds ops slots i value rest) : ops[i]? = rest.head?.map Prod.fst := by
  rw [← List.head?_drop, h.operators, List.head?_map]

theorem lt_size (h : Holds ops slots i value rest) : i < slots.size :=
  (Array.getElem?_eq_some_iff.1 h.getElem?_slots).1

theorem next {op : Operator} {operand : Node}
    (h : Holds ops slots i value ((op, operand) :: rest)) :
    Holds ops slots (i + 1) operand rest where
  operators := by rw [← List.tail_drop, h.operators]; rfl
  slots := by rw [← List.tail_drop, h.slots]; rfl

theorem set (h : Holds ops slots i value rest) (other : Node) :
    Holds ops (slots.setIfInBounds i other) i other rest where
  operators := h.operators
  slots := by
    have hlt : i < slots.toList.length := h.lt_size
    have hrest : slots.toList.drop (i + 1) = rest.map Prod.snd := by
      rw [← List.tail_drop, h.slots, List.tail_cons]
    rw [Array.toList_setIfInBounds, List.drop_eq_getElem_cons (by rwa [List.length_set]),
      List.getElem_set_self, List.drop_set_of_lt (Nat.lt_succ_self i), hrest]

end Holds

/-- A loop that starts with `value` in the slot `i` joins the operands of `rest` as long as `P`
holds of their operators, and keeps the result in the slot of the last of them. -/
def Joins (ops : List Operator) (P : Operator → Prop) (i : Nat) (value : Node) (rest : Tail Node)
    (result : Option (Node × Nat × Array Node)) : Prop :=
  ∃ taken others slots, rest = taken ++ others ∧ (∀ x ∈ taken, P x.1) ∧
    (∀ x ∈ others.head?, ¬ P x.1) ∧
    result = some (assemble [] value taken, i + taken.length, slots) ∧
    Holds ops slots (i + taken.length) (assemble [] value taken) others

/-- The loop for left sides joins `rest` wherever that is held. -/
def JoinsLeft (ops : List Operator) (rest : Tail Node) : Prop :=
  ∀ least {slots i value}, Holds ops slots i value rest →
    Joins ops (fun op => least ≤ op.priority) i value rest
      (climbLoop ops (.left least) slots value i)

/-- The loop for right sides joins `rest` wherever that is held. -/
def JoinsRight (ops : List Operator) (rest : Tail Node) : Prop :=
  ∀ above {slots i value}, Holds ops slots i value rest →
    Joins ops (fun op => above < op.priority) i value rest
      (climbLoop ops (.right above) slots value i)

section Climbing

variable {ops : List Operator} {rest : Tail Node}

/-- Nothing is joined if the next operator does not allow it. -/
theorem Holds.stop {slots : Array Node} {i : Nat} {value : Node} {P : Operator → Prop}
    (h : Holds ops slots i value rest) (hP : ∀ x ∈ rest.head?, ¬ P x.1) :
    Joins ops P i value rest (some (value, i, slots)) :=
  ⟨[], rest, slots, rfl, List.forall_mem_nil _, hP, rfl, h⟩

/-- The operands of an operator and the tighter ones behind it are joined before those of an
operator that binds no tighter. -/
theorem assemble_left {op : Operator} (operand : Node) {high low : Tail Node}
    (hhigh : ∀ x ∈ high, op.priority < x.1.priority)
    (hlow : ∀ x ∈ low.head?, x.1.priority ≤ op.priority) (value : Node) :
    assemble [] value ((op, operand) :: (high ++ low)) =
      assemble [] (operation value op (assemble [] operand high)) low := by
  have hall : ∀ x ∈ (op, operand) :: high, ∀ y ∈ low.head?, y.1.priority ≤ x.1.priority :=
    List.forall_mem_cons.2 ⟨hlow, fun x hx y hy =>
      Nat.le_trans (hlow y hy) (Nat.le_of_lt (hhigh x hx))⟩
  rw [← List.cons_append, assemble_append hall (List.forall_mem_nil _), assemble]
  exact congrArg (assemble [] · low) (assemble_right hhigh [] operand)

theorem mem_head?_append {α : Type} {x : α} {xs ys : List α} (h : x ∈ xs.head?) :
    x ∈ (xs ++ ys).head? := by
  cases xs with
  | nil => cases h
  | cons y xs => exact h

/-- The loops behind a shorter rest are enough for the loop for left sides. -/
theorem joinsLeft_of_shorter (hleft : ∀ {others : Tail Node}, others.length < rest.length →
      JoinsLeft ops others)
    (hright : ∀ {others : Tail Node}, others.length < rest.length → JoinsRight ops others) :
    JoinsLeft ops rest := by
  intro least slots i value h
  rw [climbLoop.eq_def, h.getElem?_ops]
  cases rest with
  | nil => exact h.stop (by simp)
  | cons x rest =>
    obtain ⟨op, operand⟩ := x
    simp only [List.head?_cons, Option.map_some]
    by_cases hop : least ≤ op.priority
    · rw [if_pos hop, h.next.getElem?_slots]
      obtain ⟨high, low, slots₁, rfl, hhigh, hlow, hclimb, hholds⟩ :=
        hright (Nat.lt_succ_self _) op.priority h.next
      have hshorter : low.length < ((op, operand) :: (high ++ low)).length := by
        rw [List.length_cons, List.length_append]
        omega
      -- the right side is joined; what it ends with is overwritten and the loop goes on
      obtain ⟨taken, others, slots₂, rfl, htaken, hothers, hloop, hholds'⟩ :=
        hleft hshorter least
          (hholds.set (operation value op (assemble [] operand high)))
      have htree := assemble_left operand hhigh
        (fun x hx => Nat.le_of_not_lt (hlow x (mem_head?_append hx))) value
      have hlength : i + ((op, operand) :: (high ++ taken)).length =
          i + 1 + high.length + taken.length := by
        simp only [List.length_cons, List.length_append]
        omega
      refine ⟨(op, operand) :: (high ++ taken), others, slots₂, ?_, ?_, hothers, ?_, ?_⟩
      · rw [List.cons_append, List.append_assoc]
      · exact List.forall_mem_cons.2 ⟨hop, List.forall_mem_append.2
          ⟨fun x hx => Nat.le_trans hop (Nat.le_of_lt (hhigh x hx)), htaken⟩⟩
      · rw [hlength, htree, ← hloop]
        simp only [hclimb, Option.bind_eq_bind, Option.bind_some]
        exact dif_pos ⟨by omega, hholds.lt_size⟩
      · rw [hlength, htree]
        exact hholds'
    · rw [if_neg hop]
      exact h.stop (by simpa using hop)

/-- The loop for left sides and the loop behind a shorter rest are enough for the loop for right
sides. -/
theorem joinsRight_of_shorter (hleft : JoinsLeft ops rest)
    (hright : ∀ {others : Tail Node}, others.length < rest.length → JoinsRight ops others) :
    JoinsRight ops rest := by
  intro above slots i value h
  rw [climbLoop.eq_def, h.getElem?_ops]
  cases rest with
  | nil => exact h.stop (by simp)
  | cons x rest =>
    obtain ⟨op, operand⟩ := x
    simp only [List.head?_cons, Option.map_some]
    by_cases hop : above < op.priority
    · rw [if_pos hop, h.getElem?_slots]
      obtain ⟨high, low, slots₁, hsplit, hhigh, hlow, hclimb, hholds⟩ :=
        hleft op.priority h
      -- the first operator binds as tightly as itself, so the inner loop takes a step
      have hpos : 0 < high.length := by
        cases high with
        | nil =>
          rw [List.nil_append] at hsplit
          exact absurd (Nat.le_refl op.priority) (hlow (op, operand) (by rw [← hsplit]; rfl))
        | cons y high => exact Nat.succ_pos _
      have hshorter : low.length < ((op, operand) :: rest).length := by
        rw [hsplit, List.length_append]
        omega
      obtain ⟨taken, others, slots₂, rfl, htaken, hothers, hloop, hholds'⟩ :=
        hright hshorter above hholds
      have htree : assemble [] value (high ++ taken) =
          assemble [] (assemble [] value high) taken := by
        refine assemble_append (fun x hx y hy => ?_) (List.forall_mem_nil _) value
        have hx' := hhigh x hx
        have hy' := hlow y (mem_head?_append hy)
        omega
      have hlength : i + (high ++ taken).length = i + high.length + taken.length := by
        rw [List.length_append, Nat.add_assoc]
      refine ⟨high ++ taken, others, slots₂, ?_, ?_, hothers, ?_, ?_⟩
      · rw [hsplit, List.append_assoc]
      · exact List.forall_mem_append.2 ⟨fun x hx => Nat.lt_of_lt_of_le hop (hhigh x hx), htaken⟩
      · rw [hlength, htree, ← hloop]
        simp only [hclimb, Option.bind_eq_bind, Option.bind_some]
        exact dif_pos (by omega)
      · rw [hlength, htree]
        exact hholds'
    · rw [if_neg hop]
      exact h.stop (by simpa using hop)

/-- Both loops join what they find, whatever is left of the row. -/
theorem joins_loops (ops : List Operator) (rest : Tail Node) :
    JoinsLeft ops rest ∧ JoinsRight ops rest := by
  induction hn : rest.length using Nat.strongRecOn generalizing rest with
  | ind n ih =>
    subst hn
    have hleft : JoinsLeft ops rest := joinsLeft_of_shorter
      (fun {others} h => (ih others.length h others rfl).1)
      fun {others} h => (ih others.length h others rfl).2
    exact ⟨hleft, joinsRight_of_shorter hleft fun {others} h => (ih others.length h others rfl).2⟩

/-- **Precedence climbing** ends, with the tree of the row. -/
theorem climbRow_eq (first : Node) (rest : Tail Node) :
    climbRow first rest = some (assemble [] first rest) := by
  unfold climbRow
  split
  · rename_i hempty
    rw [List.isEmpty_iff.1 hempty]
    rfl
  · have hholds : Holds (rest.map Prod.fst) (first :: rest.map Prod.snd).toArray 0 first rest :=
      ⟨rfl, rfl⟩
    obtain ⟨taken, others, slots, hrest, -, hothers, hclimb, -⟩ :=
      (joins_loops (rest.map Prod.fst) rest).1 0 hholds
    -- no operator binds less tightly than the least priority
    have hnone : others = [] := by
      cases others with
      | nil => rfl
      | cons x others => exact absurd (Nat.zero_le _) (hothers x rfl)
    rw [hnone, List.append_nil] at hrest
    simp only [climb, hholds.getElem?_slots, hclimb, Option.bind_eq_bind, Option.bind_some]
    rw [hrest]
    rfl

end Climbing

/-! ### Rows of factors -/

theorem Pending.compares_push {pending : Pending} {value : Node} {op : Operator}
    (hop : 2 ≤ op.priority) : (pending.push value op).compares = pending.compares := by
  have hreduce : (pending.reduce op.priority value).1.compares = pending.compares := by
    rw [← compares_reduce _ (pending.reduce op.priority value).2, reduce_reduce hop,
      compares_reduce]
  have hno : op.isComparison = false := by
    cases op <;> first | rfl | exact absurd hop (by decide)
  rw [← hreduce, push, compares, List.any_cons, hno, Bool.false_or]
  rfl

/-- Every operator binds less tightly than the operands do. -/
theorem ExprState.HasJoined.hasRead {openings : List Opening} {outer : Pending} {value : Node}
    {s : ExprState} (h : HasJoined 4 openings outer value s) : HasRead openings outer value s := by
  obtain ⟨pending, last, hread, hreduce⟩ := h
  have hbelow : pending.Below 4 := fun w _ => by cases w.2 <;> decide
  rw [hbelow.reduce] at hreduce
  obtain ⟨rfl, rfl⟩ := Prod.mk.inj hreduce
  exact hread

end Parser

namespace Grammar

open Classwright.Parser Classwright.Parser.ExprState

/-- A token that stands for an operator, and the operand behind it. -/
abbrev Link := OneOf (comparisons ++ (additives ++ multiplicatives)) × Factor

/-- The operator and the tree of the operand behind it. -/
def Link.node (x : Link) : Operator × Node :=
  (operator x.1.1, x.2.node)

theorem Link.operator_cases (x : Link) : Parser.operatorOf? x.1.1.kind = some (operator x.1.1) ∧
    ((operator x.1.1).isComparison = true ∨
      (operator x.1.1).isComparison = false ∧ 2 ≤ (operator x.1.1).priority) := by
  rcases List.mem_append.1 x.1.2 with hkind | hkind
  · obtain ⟨ht, -, hcompares⟩ := operatorOf?_comparison hkind
    exact ⟨ht, Or.inl hcompares⟩
  · rcases List.mem_append.1 hkind with hkind | hkind
    · obtain ⟨ht, hpriority, hcompares⟩ := operatorOf?_additive hkind
      exact ⟨ht, Or.inr ⟨hcompares, Nat.le_of_eq hpriority.symm⟩⟩
    · obtain ⟨ht, hpriority, hcompares⟩ := operatorOf?_multiplicative hkind
      exact ⟨ht, Or.inr ⟨hcompares, by omega⟩⟩

/-- How many operators of a row compare. -/
def comparisonCount (rest : List Link) : Nat :=
  rest.countP fun x => (operator x.1.1).isComparison

/-- Behind an operand the rest of a row is read, if no comparison comes behind another one. -/
theorem reads_links {openings : List Opening} {rest : List Link} {pending : Pending} {value : Node}
    {s : ExprState} (hs : HasRead openings pending value s)
    (hcount : comparisonCount rest + pending.compares.toNat ≤ 1) :
    ∃ pending' last s', HasRead openings pending' last s' ∧
      pending'.close last = Parser.assemble pending value (rest.map Link.node) ∧
      Reads openings.length s (rest.flatMap fun x => x.1.1 :: x.2.tokens) s' := by
  induction rest generalizing pending value s with
  | nil => exact ⟨pending, value, s, hs, rfl, .nil⟩
  | cons x rest ih =>
    obtain ⟨ht, hop⟩ := Link.operator_cases x
    have hrest : comparisonCount (x :: rest) =
        comparisonCount rest + (operator x.1.1).isComparison.toNat := by
      rw [comparisonCount, List.countP_cons, comparisonCount]
      cases (operator x.1.1).isComparison <;> rfl
    rw [hrest] at hcount
    -- no comparison waits when another one comes
    have hallowed : ((operator x.1.1).isComparison && pending.compares) = false := by
      cases hc : (operator x.1.1).isComparison <;> cases hp : pending.compares <;>
        simp [hc, hp] at hcount ⊢
    -- and the count holds for the rest of the row
    have hnext : comparisonCount rest +
        (pending.push value (operator x.1.1)).compares.toNat ≤ 1 := by
      rcases hop with hc | ⟨hc, hpriority⟩
      · rw [hc] at hcount
        have hle := Bool.toNat_le (pending.push value (operator x.1.1)).compares
        simp only [Bool.toNat_true] at hcount
        omega
      · rw [Pending.compares_push hpriority]
        omega
    have hstep : s.step x.1.1 =
        .shift (.operand openings (pending.push value (operator x.1.1))) := by
      have hkind : x.1.1.kind ≠ .leftParen := by
        intro hkind
        rw [hkind] at ht
        cases ht
      rw [hs.step hkind]
      simp only [stepValue, ht, hallowed, Bool.false_eq_true, if_false]
    obtain ⟨s₁, hs₁, hreads⟩ := Expr.reads.factor x.2 openings
      (pending.push value (operator x.1.1)) (fun w _ => by cases w.2 <;> decide)
    obtain ⟨pending', last, s', hs', hclose, hreads'⟩ := ih hs₁.hasRead hnext
    refine ⟨pending', last, s', hs', hclose, ?_⟩
    rw [List.flatMap_cons, List.cons_append]
    exact .cons hs.le_openings hstep (hreads.append hreads')

end Grammar

namespace Parser

open Grammar

/-- The parser reads a row of factors, with at most one comparison between them, into its tree. -/
theorem parseExpression_row (first : Factor) {rest : List Link} (h : comparisonCount rest ≤ 1) :
    parseExpression (rowTokens Factor.tokens (first, rest)) =
      .ok (assemble [] first.node (rest.map Link.node), []) := by
  obtain ⟨s, hs, hreads⟩ := Expr.reads.factor first [] [] (List.forall_mem_nil _)
  have hcount : comparisonCount rest + (Pending.compares []).toNat ≤ 1 := h
  obtain ⟨pending, last, s', hs', hclose, hreads'⟩ := reads_links hs.hasRead hcount
  rw [← hclose]
  exact parseExpression_of_reads hs' (hreads.append hreads')

/-! ### The tree of a row -/

/-- **Precedence**: precedence climbing ends on every row of operands, with the tree that joining it
level by level gives.  Its leaves are the operands and its operators are those of the row, in their
order; tighter operators stand further down, operators of one priority associate to the left, and
an operation stands where its leftmost operand does. -/
theorem assemble_by_precedence (first : Node) {rest : Tail Node}
    (h : ∀ x ∈ rest, x.1 ≠ .assign) :
    climbRow first rest = some (assemble [] first rest) ∧
    joinStrata operation first rest = (assemble [] first rest, []) ∧
    ∃ t : OperandTree, t.node = assemble [] first rest ∧ t.operands = first :: rest.map Prod.snd ∧
      t.operators = rest.map Prod.fst ∧ t.Layered ∧ t.LeftAssociative :=
  ⟨climbRow_eq first rest, joinStrata_eq h first, exists_operandTree h first⟩

/-- Behind `1`, a row with operators of all levels, two of them comparisons:
`- 2 - 3 * 4 / 5 < 6 + 7 == 8`. -/
def mixedRow : Tail Node :=
  [(.subtract, .literal 2 ⟨1, 5⟩), (.subtract, .literal 3 ⟨1, 9⟩), (.multiply, .literal 4 ⟨1, 13⟩),
    (.divide, .literal 5 ⟨1, 17⟩), (.less, .literal 6 ⟨1, 21⟩), (.add, .literal 7 ⟨1, 25⟩),
    (.equal, .literal 8 ⟨1, 29⟩)]

/-- Its tree, `(((1 - 2) - ((3 * 4) / 5)) < (6 + 7)) == 8`. -/
def mixedTree : Node :=
  operation
    (operation
      (operation (operation (.literal 1 ⟨1, 1⟩) .subtract (.literal 2 ⟨1, 5⟩)) .subtract
        (operation (operation (.literal 3 ⟨1, 9⟩) .multiply (.literal 4 ⟨1, 13⟩)) .divide
          (.literal 5 ⟨1, 17⟩)))
      .less (operation (.literal 6 ⟨1, 21⟩) .add (.literal 7 ⟨1, 25⟩)))
    .equal (.literal 8 ⟨1, 29⟩)

theorem assemble_by_precedence_mixed : (∀ x ∈ mixedRow, x.1 ≠ .assign) ∧
    climbRow (.literal 1 ⟨1, 1⟩) mixedRow = some mixedTree ∧
    joinStrata operation (.literal 1 ⟨1, 1⟩) mixedRow = (mixedTree, []) ∧
    ∃ t : OperandTree, t.node = mixedTree ∧
      t.operands = .literal 1 ⟨1, 1⟩ :: mixedRow.map Prod.snd ∧
      t.operators = mixedRow.map Prod.fst ∧ t.Layered ∧ t.LeftAssociative := by
  have hops : ∀ x ∈ mixedRow, x.1 ≠ .assign := by
    simp [mixedRow]
  have htree : assemble [] (.literal 1 ⟨1, 1⟩) mixedRow = mixedTree := rfl
  have hall := assemble_by_precedence (.literal 1 ⟨1, 1⟩) hops
  rw [htree] at hall
  exact ⟨hops, hall⟩

end Parser

end Classwright
