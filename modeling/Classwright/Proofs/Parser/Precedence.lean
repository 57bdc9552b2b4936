import Classwright.Proofs.Parser.Complete

/-!
# Precedence

The tree of a row of operands with operators between them (`Parser.assemble`), described in two
ways.

* It is what is left when neighbours are joined level by level, from left to right on each level:
  products and quotients first, then sums and differences, then comparisons (`joinStrata_eq`).
* It is a tree with the operands of the row as its leaves and the operators between them, both in
  their order, in which tighter operators stand further down and operators of one level associate
  to the left (`exists_operandTree`).
-/

namespace Classwright

namespace Operator

/-- Whether an operator multiplies or divides. -/
def scales (op : Operator) : Bool :=
  op == .multiply || op == .divide

/-- Whether an operator adds or subtracts. -/
def adds (op : Operator) : Bool :=
  op == .add || op == .subtract

theorem scales_iff (op : Operator) : op.scales = true ↔ op.priority = 3 := by
  cases op <;> decide

theorem adds_iff (op : Operator) : op.adds = true ↔ op.priority = 2 := by
  cases op <;> decide

theorem isComparison_iff (op : Operator) : op.isComparison = true ↔ op.priority = 1 := by
  cases op <;> decide

end Operator

namespace Parser

open Grammar (operation)

/-- Operands behind a first one, each with the operator in front of it. -/
abbrev Tail (α : Type) := List (Operator × α)

/-! ### Level by level -/

section Levels

variable {α β : Type} {chosen : Operator → Bool} {join : α → Operator → α → α}

/-- Joins neighbours at the chosen operators, from left to right.  The row that is left has the
other operators. -/
def joinAt (chosen : Operator → Bool) (join : α → Operator → α → α) (first : α) :
    Tail α → α × Tail α
  | [] => (first, [])
  | (op, operand) :: rest =>
    if chosen op then joinAt chosen join (join first op operand) rest
    else
      let row := joinAt chosen join operand rest
      (first, (op, row.1) :: row.2)

/-- Joins neighbours at `*` and `/` first, then at `+` and `-`, then at comparisons. -/
def joinStrata (join : α → Operator → α → α) (first : α) (rest : Tail α) : α × Tail α :=
  let products := joinAt Operator.scales join first rest
  let sums := joinAt Operator.adds join products.1 products.2
  joinAt Operator.isComparison join sums.1 sums.2

/-- The operators that are left are those that were not chosen. -/
theorem joinAt_operators (first : α) (rest : Tail α) :
    (joinAt chosen join first rest).2.map Prod.fst =
      (rest.map Prod.fst).filter fun op => !chosen op := by
  induction rest generalizing first with
  | nil => rfl
  | cons x rest ih =>
    obtain ⟨op, operand⟩ := x
    rw [joinAt, List.map_cons]
    by_cases hop : chosen op = true
    · rw [if_pos hop, ih, List.filter_cons_of_neg (by simp [hop])]
    · rw [if_neg hop, List.filter_cons_of_pos (by simpa using hop), List.map_cons, ih]

theorem mem_of_joinAt {first : α} {rest : Tail α} {x : Operator × α}
    (hx : x ∈ (joinAt chosen join first rest).2) :
    x.1 ∈ rest.map Prod.fst ∧ chosen x.1 = false := by
  have hmem : x.1 ∈ (joinAt chosen join first rest).2.map Prod.fst := List.mem_map_of_mem hx
  rw [joinAt_operators, List.mem_filter] at hmem
  exact ⟨hmem.1, by simpa using hmem.2⟩

/-- Joining goes along with a map of the operands that respects it. -/
theorem joinAt_map {join' : β → Operator → β → β} {f : α → β}
    (hf : ∀ left op right, f (join left op right) = join' (f left) op (f right)) (first : α)
    (rest : Tail α) : joinAt chosen join' (f first) (rest.map (Prod.map id f)) =
      Prod.map f (List.map (Prod.map id f)) (joinAt chosen join first rest) := by
  induction rest generalizing first with
  | nil => rfl
  | cons x rest ih =>
    obtain ⟨op, operand⟩ := x
    rw [List.map_cons, Prod.map_apply, id_eq, joinAt, joinAt]
    by_cases hop : chosen op = true
    · rw [if_pos hop, if_pos hop, ← hf, ih]
    · rw [if_neg hop, if_neg hop, ih]
      rfl

theorem joinStrata_map {join' : β → Operator → β → β} {f : α → β}
    (hf : ∀ left op right, f (join left op right) = join' (f left) op (f right)) (first : α)
    (rest : Tail α) : joinStrata join' (f first) (rest.map (Prod.map id f)) =
      Prod.map f (List.map (Prod.map id f)) (joinStrata join first rest) := by
  simp only [joinStrata, joinAt_map hf, Prod.map_fst, Prod.map_snd]

end Levels

/-! ### The stack joins level by level -/

namespace Pending

variable {least : Nat} {pending : Pending}

/-- Completing the same operations again changes nothing. -/
theorem reduce_reduced (pending : Pending) (value other : Node) :
    (pending.reduce least value).1.reduce least other =
      ((pending.reduce least value).1, other) := by
  induction pending generalizing value with
  | nil => rfl
  | cons w rest ih =>
    obtain ⟨left, op⟩ := w
    by_cases hop : least ≤ op.priority
    · rw [reduce, if_pos hop, ih]
    · rw [reduce, if_neg hop, reduce, if_neg hop]

/-- What still waits waited before. -/
theorem mem_of_mem_reduce {value : Node} {w : Node × Operator}
    (hw : w ∈ (pending.reduce least value).1) : w ∈ pending := by
  induction pending generalizing value with
  | nil => exact hw
  | cons x rest ih =>
    obtain ⟨left, op⟩ := x
    rw [reduce] at hw
    split at hw
    · exact List.mem_cons_of_mem _ (ih hw)
    · exact hw

/-- If everything that waits binds tightly enough, it is all completed. -/
theorem reduce_of_forall_le (h : ∀ w ∈ pending, least ≤ w.2.priority) (value : Node) :
    pending.reduce least value = ([], pending.close value) := by
  induction pending generalizing value with
  | nil => rfl
  | cons w rest ih =>
    obtain ⟨left, op⟩ := w
    rw [List.forall_mem_cons] at h
    rw [reduce, if_pos h.1, ih h.2, close, close, reduce, if_pos (Nat.zero_le _)]

/-- A looser operator at the bottom waits on while tighter ones are completed. -/
theorem reduce_append_looser {left : Node} {op : Operator} (hop : op.priority < least)
    (pending : Pending) (value : Node) : reduce least (pending ++ [(left, op)]) value =
      ((pending.reduce least value).1 ++ [(left, op)], (pending.reduce least value).2) := by
  induction pending generalizing value with
  | nil => exact if_neg (Nat.not_le.2 hop)
  | cons w rest ih =>
    obtain ⟨left', op'⟩ := w
    rw [List.cons_append, reduce]
    by_cases hop' : least ≤ op'.priority
    · rw [if_pos hop', ih, reduce, if_pos hop']
    · rw [if_neg hop', reduce, if_neg hop']
      rfl

theorem close_append_looser (pending : Pending) (left : Node) (op : Operator) (value : Node) :
    close (pending ++ [(left, op)]) value = operation left op (pending.close value) := by
  induction pending generalizing value with
  | nil => rfl
  | cons w rest ih =>
    obtain ⟨left', op'⟩ := w
    rw [List.cons_append, close, reduce, if_pos (Nat.zero_le _)]
    exact ih _

end Pending

/-- Joining the neighbours at the tightest operators of a row first does not change its tree.  What
waits has to be joined at these operators as well. -/
theorem assemble_joinAt {chosen : Operator → Bool} {level : Nat}
    (hchosen : ∀ op, chosen op = true ↔ op.priority = level) {rest : Tail Node}
    (h : ∀ x ∈ rest, x.1.priority ≤ level) (pending : Pending) (value : Node) :
    assemble (pending.reduce level value).1
        (joinAt chosen operation (pending.reduce level value).2 rest).1
        (joinAt chosen operation (pending.reduce level value).2 rest).2 =
      assemble pending value rest := by
  induction rest generalizing pending value with
  | nil =>
    rw [joinAt, assemble, assemble, Pending.close, Pending.close,
      Pending.reduce_reduce (Nat.zero_le level)]
  | cons x rest ih =>
    obtain ⟨op, operand⟩ := x
    obtain ⟨hle, hrest⟩ := List.forall_mem_cons.1 h
    rw [assemble, ← ih hrest, joinAt, Pending.push]
    by_cases hop : op.priority = level
    · -- the operator completes what waits for this level, and its right side completes it
      rw [if_pos ((hchosen op).2 hop), hop, Pending.reduce, if_pos (Nat.le_of_eq hop.symm),
        Pending.reduce_reduced]
      rfl
    · -- a looser operator waits with the operand that has been joined so far
      have hlt : op.priority < level := Nat.lt_of_le_of_ne hle hop
      rw [if_neg (fun hc => hop ((hchosen op).1 hc)), Pending.reduce, if_neg (Nat.not_le.2 hlt),
        assemble, Pending.push, Pending.reduce_reduce hle]

/-- One level is joined: the tree is the same, and the operators that are left belong to the levels
below. -/
theorem assemble_level {chosen : Operator → Bool} {level : Nat}
    (hchosen : ∀ op, chosen op = true ↔ op.priority = level + 1) {rest : Tail Node}
    (h : ∀ x ∈ rest, 0 < x.1.priority ∧ x.1.priority ≤ level + 1) (first : Node) :
    assemble [] (joinAt chosen operation first rest).1 (joinAt chosen operation first rest).2 =
        assemble [] first rest ∧
      ∀ x ∈ (joinAt chosen operation first rest).2,
        0 < x.1.priority ∧ x.1.priority ≤ level := by
  refine ⟨assemble_joinAt hchosen (fun x hx => (h x hx).2) [] first, fun x hx => ?_⟩
  obtain ⟨hmem, hnot⟩ := mem_of_joinAt hx
  obtain ⟨y, hy, hxy⟩ := List.mem_map.1 hmem
  have hpriority := h y hy
  rw [hxy] at hpriority
  have hne : x.1.priority ≠ level + 1 := fun heq => by simp [(hchosen x.1).2 heq] at hnot
  omega

/-- **Level by level**: the tree of a row is what is left when it is joined on each level. -/
theorem joinStrata_eq {rest : Tail Node} (h : ∀ x ∈ rest, x.1 ≠ .assign) (first : Node) :
    joinStrata operation first rest = (assemble [] first rest, []) := by
  have hall : ∀ x ∈ rest, 0 < x.1.priority ∧ x.1.priority ≤ 3 := by
    intro x hx
    have hop := h x hx
    revert hop
    cases x.1 <;> decide
  obtain ⟨hproducts, h₂⟩ := assemble_level Operator.scales_iff hall first
  obtain ⟨hsums, h₁⟩ := assemble_level Operator.adds_iff h₂ _
  obtain ⟨hcomparisons, h₀⟩ := assemble_level Operator.isComparison_iff h₁ _
  rw [← hproducts, ← hsums, ← hcomparisons]
  change joinStrata operation first rest =
    (assemble [] (joinStrata operation first rest).1 (joinStrata operation first rest).2, [])
  have hnone : (joinStrata operation first rest).2 = [] :=
    List.eq_nil_iff_forall_not_mem.2 fun x hx => by
      have hpriority := h₀ x hx
      omega
  exact Prod.ext (by rw [hnone]; rfl) hnone

/-! ### Trees of operands -/

/-- A tree of operands, which are taken as wholes. -/
inductive OperandTree where
  /-- A single operand. -/
  | operand (e : Node)
  /-- An operation. -/
  | join (left : OperandTree) (op : Operator) (right : OperandTree)

namespace OperandTree

/-- The operands of a tree, from left to right. -/
def operands : OperandTree → List Node
  | operand e => [e]
  | join left _ right => left.operands ++ right.operands

/-- The operators between them. -/
def operators : OperandTree → List Operator
  | operand _ => []
  | join left op right => left.operators ++ op :: right.operators

/-- The leftmost operand. -/
def leftmost : OperandTree → Node
  | operand e => e
  | join left _ _ => left.leftmost

/-- The node a tree stands for.  An operation stands where its leftmost operand does. -/
def node : OperandTree → Node
  | operand e => e
  | join left op right => .binary op left.node right.node left.leftmost.position

/-- No operator stands above one that binds less tightly. -/
def Layered : OperandTree → Prop
  | operand _ => True
  | join left op right =>
    (∀ o ∈ left.operators ++ right.operators, op.priority ≤ o.priority) ∧
      left.Layered ∧ right.Layered

/-- No operator has one of its own priority in its right side. -/
def LeftAssociative : OperandTree → Prop
  | operand _ => True
  | join left op right =>
    (∀ o ∈ right.operators, o.priority ≠ op.priority) ∧
      left.LeftAssociative ∧ right.LeftAssociative

/-- A tree with operators of some level or above, ordered as they should be. -/
structure Tight (least : Nat) (t : OperandTree) : Prop where
  /-- No operator stands above one that binds less tightly. -/
  layered : t.Layered
  /-- Operators of one priority associate to the left. -/
  leftAssociative : t.LeftAssociative
  /-- The operators belong to the level or bind more tightly. -/
  least_le : ∀ o ∈ t.operators, least ≤ o.priority

theorem Tight.mono {least least' : Nat} {t : OperandTree} (h : t.Tight least')
    (hle : least ≤ least') : t.Tight least :=
  { h with least_le := fun o ho => Nat.le_trans hle (h.least_le o ho) }

theorem tight_operand (least : Nat) (e : Node) : (operand e).Tight least :=
  ⟨trivial, trivial, List.forall_mem_nil _⟩

/-- An operation of a level, with a right side of tighter operators. -/
theorem Tight.join {op : Operator} {left right : OperandTree} (hl : left.Tight op.priority)
    (hr : right.Tight (op.priority + 1)) : (join left op right).Tight op.priority where
  layered := ⟨List.forall_mem_append.2 ⟨hl.least_le, fun o ho =>
    Nat.le_of_succ_le (hr.least_le o ho)⟩, hl.layered, hr.layered⟩
  leftAssociative := ⟨fun o ho => Nat.ne_of_gt (hr.least_le o ho), hl.leftAssociative,
    hr.leftAssociative⟩
  least_le := List.forall_mem_append.2 ⟨hl.least_le, List.forall_mem_cons.2
    ⟨Nat.le_refl _, fun o ho => Nat.le_of_succ_le (hr.least_le o ho)⟩⟩

theorem position_node (t : OperandTree) : t.node.position = t.leftmost.position := by
  cases t with
  | operand e => rfl
  | join left op right => rw [node, leftmost, Node.position]

theorem node_join (left : OperandTree) (op : Operator) (right : OperandTree) :
    (join left op right).node = operation left.node op right.node := by
  rw [node, operation, position_node]

end OperandTree

section Trees

variable {chosen : Operator → Bool}

/-- The operands of a row of trees, from left to right. -/
def rowOperands (row : OperandTree × Tail OperandTree) : List Node :=
  row.1.operands ++ row.2.flatMap fun x => x.2.operands

/-- The operators inside the trees of a row and between them. -/
def rowOperators (row : OperandTree × Tail OperandTree) : List Operator :=
  row.1.operators ++ row.2.flatMap fun x => x.1 :: x.2.operators

/-- Joining keeps the operands and the operators of a row, and their order. -/
theorem joinAt_keeps (first : OperandTree) (rest : Tail OperandTree) :
    rowOperands (joinAt chosen .join first rest) = rowOperands (first, rest) ∧
      rowOperators (joinAt chosen .join first rest) = rowOperators (first, rest) := by
  induction rest generalizing first with
  | nil => exact ⟨rfl, rfl⟩
  | cons x rest ih =>
    obtain ⟨op, operand⟩ := x
    rw [joinAt]
    by_cases hop : chosen op = true
    · rw [if_pos hop]
      obtain ⟨hoperands, hoperators⟩ := ih (.join first op operand)
      refine ⟨hoperands.trans ?_, hoperators.trans ?_⟩
      · simp only [rowOperands, OperandTree.operands, List.flatMap_cons, List.append_assoc]
      · simp only [rowOperators, OperandTree.operators, List.flatMap_cons, List.append_assoc,
          List.cons_append]
    · rw [if_neg hop]
      obtain ⟨hoperands, hoperators⟩ := ih operand
      simp only [rowOperands, rowOperators] at hoperands hoperators ⊢
      simp only [List.flatMap_cons, List.cons_append, hoperands, hoperators, and_self]

/-- Joining a level leaves trees of this level. -/
theorem joinAt_tight {level : Nat} (hchosen : ∀ op, chosen op = true ↔ op.priority = level)
    {first : OperandTree} {rest : Tail OperandTree} (hfirst : first.Tight level)
    (hrest : ∀ x ∈ rest, x.2.Tight (level + 1)) :
    (joinAt chosen .join first rest).1.Tight level ∧
      ∀ x ∈ (joinAt chosen .join first rest).2, x.2.Tight level := by
  induction rest generalizing first with
  | nil => exact ⟨hfirst, List.forall_mem_nil _⟩
  | cons x rest ih =>
    obtain ⟨op, operand⟩ := x
    rw [List.forall_mem_cons] at hrest
    rw [joinAt]
    by_cases hop : chosen op = true
    · rw [if_pos hop]
      obtain rfl := (hchosen op).1 hop
      exact ih (hfirst.join hrest.1) hrest.2
    · rw [if_neg hop]
      obtain ⟨hnext, hothers⟩ := ih (hrest.1.mono (Nat.le_succ _)) hrest.2
      exact ⟨hfirst, List.forall_mem_cons.2 ⟨hnext, hothers⟩⟩

theorem joinStrata_keeps (first : OperandTree) (rest : Tail OperandTree) :
    rowOperands (joinStrata .join first rest) = rowOperands (first, rest) ∧
      rowOperators (joinStrata .join first rest) = rowOperators (first, rest) :=
  ⟨((joinAt_keeps _ _).1.trans (joinAt_keeps _ _).1).trans (joinAt_keeps _ _).1,
    ((joinAt_keeps _ _).2.trans (joinAt_keeps _ _).2).trans (joinAt_keeps _ _).2⟩

theorem joinStrata_tight {first : OperandTree} {rest : Tail OperandTree} (hfirst : first.Tight 4)
    (hrest : ∀ x ∈ rest, x.2.Tight 4) : (joinStrata .join first rest).1.Tight 1 := by
  obtain ⟨hproduct, hproducts⟩ := joinAt_tight Operator.scales_iff (hfirst.mono (by decide)) hrest
  obtain ⟨hsum, hsums⟩ := joinAt_tight Operator.adds_iff (hproduct.mono (by decide)) hproducts
  exact (joinAt_tight Operator.isComparison_iff (hsum.mono (by decide)) hsums).1

end Trees

/-- A row of single operands. -/
def leaves (rest : Tail Node) : Tail OperandTree :=
  rest.map (Prod.map id .operand)

theorem map_node_leaves (rest : Tail Node) :
    (leaves rest).map (Prod.map id OperandTree.node) = rest := by
  rw [leaves, List.map_map]
  exact List.map_id _

theorem rowOperands_leaves (first : Node) (rest : Tail Node) :
    rowOperands (.operand first, leaves rest) = first :: rest.map Prod.snd := by
  induction rest with
  | nil => rfl
  | cons x rest ih => exact congrArg (first :: x.2 :: ·) (List.cons.inj ih).2

theorem rowOperators_leaves (first : Node) (rest : Tail Node) :
    rowOperators (.operand first, leaves rest) = rest.map Prod.fst := by
  induction rest with
  | nil => rfl
  | cons x rest ih => exact congrArg (x.1 :: ·) ih

/-- **Shape**: the tree of a row has its operands as leaves and its operators between them, ordered
by their priorities. -/
theorem exists_operandTree {rest : Tail Node} (h : ∀ x ∈ rest, x.1 ≠ .assign) (first : Node) :
    ∃ t : OperandTree, t.node = assemble [] first rest ∧ t.operands = first :: rest.map Prod.snd ∧
      t.operators = rest.map Prod.fst ∧ t.Layered ∧ t.LeftAssociative := by
  have htight : ∀ x ∈ leaves rest, x.2.Tight 4 := by
    intro x hx
    obtain ⟨y, -, rfl⟩ := List.mem_map.1 hx
    exact OperandTree.tight_operand 4 y.2
  have htree := joinStrata_tight (OperandTree.tight_operand 4 first) htight
  obtain ⟨hoperands, hoperators⟩ := joinStrata_keeps (.operand first) (leaves rest)
  -- the nodes of the trees are joined in the same way, so one tree is left
  have hnode := joinStrata_map OperandTree.node_join (.operand first) (leaves rest)
  rw [map_node_leaves, OperandTree.node, joinStrata_eq h] at hnode
  rw [rowOperands_leaves] at hoperands
  rw [rowOperators_leaves] at hoperators
  generalize joinStrata OperandTree.join (.operand first) (leaves rest) = row at *
  obtain ⟨t, others⟩ := row
  obtain ⟨ht, hothers⟩ := Prod.mk.inj hnode
  obtain rfl : others = [] := List.map_eq_nil_iff.1 hothers.symm
  rw [rowOperands, List.flatMap_nil, List.append_nil] at hoperands
  rw [rowOperators, List.flatMap_nil, List.append_nil] at hoperators
  exact ⟨t, ht.symm, hoperands, hoperators, htree.layered, htree.leftAssociative⟩

end Parser

end Classwright
