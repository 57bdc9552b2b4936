import Classwright.Tree.Node

/-!
# The nodes of a tree

Visiting a tree puts its nodes in front of what is already there
(`Node.visitOnto_eq_append`), so the nodes of a tree are its root and the nodes of its parts.
-/

namespace Classwright

namespace Node

mutual

/-- The nodes of a tree are put in front of what is already there. -/
theorem visitOnto_eq_append (enter : Node → Bool) (node : Node) (rest : List Node) :
    visitOnto enter node rest = node.visit enter ++ rest := by
  cases node with
  | absent | literal | name => rfl
  | binary op left right place =>
    simp only [visit, visitOnto]
    -- a child is put in front of what comes behind it, on both sides
    split
    · rw [visitOnto_eq_append enter left, visitOnto_eq_append enter left (visitOnto _ _ _),
        visitOnto_eq_append enter right, visitOnto_eq_append enter right []]
      simp
    · rfl
  | exit value place =>
    simp only [visit, visitOnto]
    split
    · rw [visitOnto_eq_append enter value, visitOnto_eq_append enter value []]
      simp
    · rfl
  | call callee arguments link place =>
    simp only [visit, visitOnto]
    split
    · rw [visitAllOnto_eq_append enter arguments, visitAllOnto_eq_append enter arguments []]
      simp
    · rfl
  | branch condition thenBlock elseBlock place =>
    simp only [visit, visitOnto]
    split
    · rw [visitOnto_eq_append enter condition, visitOnto_eq_append enter thenBlock,
        visitOnto_eq_append enter elseBlock,
        visitOnto_eq_append enter condition (visitOnto _ _ (visitOnto _ _ [])),
        visitOnto_eq_append enter thenBlock (visitOnto _ _ []),
        visitOnto_eq_append enter elseBlock []]
      simp
    · rfl
  | loop condition body place =>
    simp only [visit, visitOnto]
    split
    · rw [visitOnto_eq_append enter condition, visitOnto_eq_append enter body,
        visitOnto_eq_append enter condition (visitOnto _ _ []), visitOnto_eq_append enter body []]
      simp
    · rfl
  | block statements place =>
    simp only [visit, visitOnto]
    split
    · rw [visitAllOnto_eq_append enter statements, visitAllOnto_eq_append enter statements []]
      simp
    · rfl

/-- So are the nodes of several trees. -/
theorem visitAllOnto_eq_append (enter : Node → Bool) (nodes rest : List Node) :
    visitAllOnto enter nodes rest = nodes.flatMap (visit enter) ++ rest := by
  cases nodes with
  | nil => rfl
  | cons node others =>
    rw [visitAllOnto, visitOnto_eq_append enter node, visitAllOnto_eq_append enter others,
      List.flatMap_cons, List.append_assoc]

end

theorem nodes_binary (op : Operator) (left right : Node) (place : Position) :
    (binary op left right place).nodes =
      binary op left right place :: (left.nodes ++ right.nodes) := by
  rw [nodes, visit, visitOnto]
  simp only [if_true]
  rw [visitOnto_eq_append]
  rfl

theorem nodes_call (callee : Text) (arguments : List Node) (link : Option DeclId)
    (place : Position) : (call callee arguments link place).nodes =
      call callee arguments link place :: arguments.flatMap nodes := by
  rw [nodes, visit, visitOnto]
  simp only [if_true]
  rw [visitAllOnto_eq_append, List.append_nil]
  rfl

theorem nodes_exit (value : Node) (place : Position) :
    (exit value place).nodes = exit value place :: value.nodes := rfl

theorem nodes_branch (condition thenBlock elseBlock : Node) (place : Position) :
    (branch condition thenBlock elseBlock place).nodes =
      branch condition thenBlock elseBlock place ::
        (condition.nodes ++ (thenBlock.nodes ++ elseBlock.nodes)) := by
  rw [nodes, visit, visitOnto]
  simp only [if_true]
  rw [visitOnto_eq_append, visitOnto_eq_append]
  rfl

theorem nodes_loop (condition body : Node) (place : Position) :
    (loop condition body place).nodes =
      loop condition body place :: (condition.nodes ++ body.nodes) := by
  rw [nodes, visit, visitOnto]
  simp only [if_true]
  rw [visitOnto_eq_append]
  rfl

theorem nodes_block (statements : List Node) (place : Position) :
    (block statements place).nodes = block statements place :: statements.flatMap nodes := by
  rw [nodes, visit, visitOnto]
  simp only [if_true]
  rw [visitAllOnto_eq_append, List.append_nil]
  rfl

end Node

end Classwright
