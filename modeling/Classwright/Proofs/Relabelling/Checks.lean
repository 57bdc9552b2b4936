import Classwright.Check.Analysis
import Classwright.Check.Resolution
import Classwright.Proofs.Except
import Classwright.Proofs.Relabelling.Basic
import Classwright.Proofs.Tree.Nodes

/-!
# Checks of relabelled programs

Programs that are the same under a relabelling pass the same checks: the reachability check
(`Relabelling.Identifies.checkReachability`) and, once their names are linked, the others
(`Relabelling.Identifies.analyze`).  Errors are the same under the relabelling.

Linking itself looks at names.  A relabelled tree is linked as the tree is if its names, as they are
relabelled, stand for the same declarations (`Node.resolve_relabel`).

The lemmas about trees compare a tree with the relabelled one, so that they follow the recursion of
the checks; two trees that are the same under a relabelling are compared by way of it.
-/

namespace Classwright

/-! ### Resolution -/

namespace Node

/-- The names of a tree, as they are relabelled, stand in `q` for what they stand for in `p`, and so
do all calls. -/
structure LinksAlike (ρ : Relabelling) (q p : Program) (table : Option TableId) (node : Node) :
    Prop where
  /-- Names stand for the same. -/
  value : ∀ x link place, name x link place ∈ node.nodes →
    q.lookupValue table (ρ.name x) = p.lookupValue table x
  /-- Calls stand for the same. -/
  procedure : ∀ callee arity,
    q.lookupProcedure table callee arity = p.lookupProcedure table callee arity

section

variable {ρ : Relabelling} {q p : Program} {table : Option TableId}

theorem LinksAlike.part {node part : Node} (h : node.LinksAlike ρ q p table)
    (hpart : part.nodes ⊆ node.nodes) : part.LinksAlike ρ q p table :=
  ⟨fun x link place hx => h.value x link place (hpart hx), h.procedure⟩

mutual

/-- **Relabelling and linking commute** on a tree whose names stand for the same declarations,
whether or not all of them are found. -/
theorem resolve_relabel (node : Node) (h : node.LinksAlike ρ q p table) :
    (node.relabel ρ).resolve q table =
      (node.resolve p table).map (relabel ρ) (Option.map ρ.error) := by
  cases node with
  | absent | literal => rfl
  | name x link place =>
    rw [relabel, resolve, resolve, h.value x link place List.mem_cons_self]
    cases p.lookupValue table x <;> rfl
  | binary op left right place =>
    have hleft := resolve_relabel left (h.part fun n hn => by simp [nodes_binary, hn])
    have hright := resolve_relabel right (h.part fun n hn => by simp [nodes_binary, hn])
    rw [relabel, resolve, resolve, hleft, hright]
    obtain ⟨left', _ | e⟩ := left.resolve p table <;> rfl
  | exit value place =>
    have hvalue := resolve_relabel value (h.part fun n hn => by simp [nodes_exit, hn])
    rw [relabel, resolve, resolve, hvalue]
    rfl
  | call callee arguments link place =>
    have harguments := resolveAll_relabelAll arguments fun a ha => h.part fun n hn => by
      simpa [nodes_call] using Or.inr ⟨a, ha, hn⟩
    rw [relabel, resolve, resolve, harguments]
    obtain ⟨arguments', _ | e⟩ := resolveAll p table arguments
    · -- the call is looked up only behind its arguments, by its name and their number
      simp only [Prod.map, Option.map_none, relabelAll_eq_map, List.length_map, h.procedure]
      cases p.lookupProcedure table callee arguments'.length <;>
        simp [relabel, relabelAll_eq_map, Relabelling.error, Cause.relabel]
    · rfl
  | branch condition thenBlock elseBlock place =>
    have hcondition := resolve_relabel condition (h.part fun n hn => by simp [nodes_branch, hn])
    have hthen := resolve_relabel thenBlock (h.part fun n hn => by simp [nodes_branch, hn])
    have helse := resolve_relabel elseBlock (h.part fun n hn => by simp [nodes_branch, hn])
    rw [relabel, resolve, resolve, hcondition, hthen, helse]
    -- the first error stops linking and leaves the parts behind it as they are
    obtain ⟨condition', _ | e⟩ := condition.resolve p table
    · obtain ⟨thenBlock', _ | e⟩ := thenBlock.resolve p table <;> rfl
    · rfl
  | loop condition body place =>
    have hcondition := resolve_relabel condition (h.part fun n hn => by simp [nodes_loop, hn])
    have hbody := resolve_relabel body (h.part fun n hn => by simp [nodes_loop, hn])
    rw [relabel, resolve, resolve, hcondition, hbody]
    obtain ⟨condition', _ | e⟩ := condition.resolve p table <;> rfl
  | block statements place =>
    have hstatements := resolveAll_relabelAll statements fun s hs => h.part fun n hn => by
      simpa [nodes_block] using Or.inr ⟨s, hs, hn⟩
    rw [relabel, resolve, resolve, hstatements]
    rfl

theorem resolveAll_relabelAll (nodes : List Node)
    (h : ∀ node ∈ nodes, node.LinksAlike ρ q p table) :
    resolveAll q table (relabelAll ρ nodes) =
      (resolveAll p table nodes).map (relabelAll ρ) (Option.map ρ.error) := by
  cases nodes with
  | nil => rfl
  | cons node rest =>
    rw [List.forall_mem_cons] at h
    rw [relabelAll, resolveAll, resolveAll, resolve_relabel node h.1,
      resolveAll_relabelAll rest h.2]
    obtain ⟨node', _ | e⟩ := node.resolve p table <;> rfl

end

end

/-! ### Control flow -/

variable (ρ : Relabelling)

mutual

@[simp] theorem terminates_relabel (node : Node) :
    (node.relabel ρ).terminates = node.terminates := by
  cases node with
  | branch condition thenBlock elseBlock place =>
    rw [relabel, terminates, terminates, terminates_relabel thenBlock,
      terminates_relabel elseBlock]
  | loop condition body place => rw [relabel, terminates, terminates, terminates_relabel body]
  | block statements place =>
    rw [relabel, terminates, terminates, anyTerminates_relabelAll statements]
  | _ => rfl

theorem anyTerminates_relabelAll (nodes : List Node) :
    anyTerminates (relabelAll ρ nodes) = anyTerminates nodes := by
  cases nodes with
  | nil => rfl
  | cons s rest =>
    rw [relabelAll, anyTerminates, anyTerminates, terminates_relabel s,
      anyTerminates_relabelAll rest]

end

mutual

theorem checkReachable_relabel (node : Node) :
    (node.relabel ρ).checkReachable.mapError ρ.error =
      node.checkReachable.mapError ρ.error := by
  cases node with
  | branch condition thenBlock elseBlock place =>
    simp only [relabel, checkReachable, mapError_bind, checkReachableIn_relabel thenBlock,
      checkReachableIn_relabel elseBlock]
  | loop condition body place =>
    rw [relabel, checkReachable, checkReachable, checkReachableIn_relabel body]
  | _ => rfl

theorem checkReachableIn_relabel (node : Node) :
    (node.relabel ρ).checkReachableIn.mapError ρ.error =
      node.checkReachableIn.mapError ρ.error := by
  cases node with
  | block statements place =>
    rw [relabel, checkReachableIn, checkReachableIn, checkReachableAll_relabelAll statements]
  | _ => rfl

theorem checkReachableAll_relabelAll (nodes : List Node) :
    (checkReachableAll (relabelAll ρ nodes)).mapError ρ.error =
      (checkReachableAll nodes).mapError ρ.error := by
  -- the check looks at the statement behind the one that terminates
  match nodes with
  | [] => rfl
  | [s] => simp only [relabelAll, checkReachableAll, mapError_bind, checkReachable_relabel s]
  | s :: next :: others =>
    have hrest := checkReachableAll_relabelAll (next :: others)
    rw [relabelAll] at hrest
    rw [relabelAll, relabelAll, checkReachableAll, checkReachableAll, mapError_bind, mapError_bind,
      checkReachable_relabel s]
    simp only [terminates_relabel]
    refine bind_congr fun _ => ?_
    split
    · simp [Relabelling.error]
    · exact hrest

end

/-- Blocks that are the same under a relabelling pass the check for unreachable statements alike. -/
theorem checkReachableIn_congr {ρ : Relabelling} {b' b : Node} (h : b'.relabel ρ = b.relabel ρ) :
    b'.checkReachableIn.mapError ρ.error = b.checkReachableIn.mapError ρ.error := by
  rw [← checkReachableIn_relabel, h, checkReachableIn_relabel]

mutual

theorem visitOnto_relabel (node : Node) (rest : List Node) :
    visitOnto (fun _ => true) (node.relabel ρ) (relabelAll ρ rest) =
      relabelAll ρ (visitOnto (fun _ => true) node rest) := by
  cases node with
  | absent | literal | name => rfl
  | binary op left right place =>
    simp only [relabel, visitOnto, if_true, relabelAll, visitOnto_relabel right,
      visitOnto_relabel left]
  | exit value place => simp only [relabel, visitOnto, if_true, relabelAll, visitOnto_relabel value]
  | call callee arguments link place =>
    simp only [relabel, visitOnto, if_true, relabelAll, visitAllOnto_relabelAll arguments]
  | branch condition thenBlock elseBlock place =>
    simp only [relabel, visitOnto, if_true, relabelAll, visitOnto_relabel condition,
      visitOnto_relabel thenBlock, visitOnto_relabel elseBlock]
  | loop condition body place =>
    simp only [relabel, visitOnto, if_true, relabelAll, visitOnto_relabel condition,
      visitOnto_relabel body]
  | block statements place =>
    simp only [relabel, visitOnto, if_true, relabelAll, visitAllOnto_relabelAll statements]

theorem visitAllOnto_relabelAll (nodes rest : List Node) :
    visitAllOnto (fun _ => true) (relabelAll ρ nodes) (relabelAll ρ rest) =
      relabelAll ρ (visitAllOnto (fun _ => true) nodes rest) := by
  cases nodes with
  | nil => rfl
  | cons node others =>
    rw [relabelAll, visitAllOnto, visitAllOnto, visitAllOnto_relabelAll others,
      visitOnto_relabel node]

end

/-- The nodes of a relabelled tree. -/
theorem nodes_relabel (node : Node) : (node.relabel ρ).nodes = node.nodes.map (relabel ρ) := by
  rw [← relabelAll_eq_map]
  exact visitOnto_relabel ρ node []

end Node

namespace Relabelling.Identifies

variable {ρ : Relabelling} {p q : Program}

/-! ### Values -/

theorem yieldsValue (h : ρ.Identifies q p) (node : Node) :
    q.yieldsValue (node.relabel ρ) = p.yieldsValue node := by
  cases node with
  | call callee arguments link place => exact h.returnsValue link
  | _ => rfl

theorem requireValue (h : ρ.Identifies q p) (node : Node) (cause : Cause) :
    (q.requireValue (node.relabel ρ) cause).mapError ρ.error =
      (p.requireValue node cause).mapError ρ.error := by
  rw [Program.requireValue, Program.requireValue, h.yieldsValue]
  split
  · rfl
  · simp [error]

mutual

theorem checkExpression (h : ρ.Identifies q p) (node : Node) :
    (q.checkExpression (node.relabel ρ)).mapError ρ.error =
      (p.checkExpression node).mapError ρ.error := by
  cases node with
  | binary op left right place =>
    have hleft := checkExpression h left
    have hright := checkExpression h right
    cases op with
    | assign => simp [Node.relabel, Program.checkExpression, error]
    | _ =>
      simp only [Node.relabel, Program.checkExpression, mapError_bind, hleft, hright,
        h.requireValue]
  | call callee arguments link place =>
    rw [Node.relabel, Program.checkExpression, Program.checkExpression,
      checkArguments h callee arguments]
  | exit value place => simp [Node.relabel, Program.checkExpression, error]
  | _ => rfl

theorem checkArguments (h : ρ.Identifies q p) (callee : Text) (nodes : List Node) :
    (q.checkArguments callee (Node.relabelAll ρ nodes)).mapError ρ.error =
      (p.checkArguments callee nodes).mapError ρ.error := by
  cases nodes with
  | nil => rfl
  | cons e rest =>
    simp only [Node.relabelAll, Program.checkArguments, mapError_bind, checkExpression h e,
      h.requireValue, checkArguments h callee rest]

end

theorem checkAssignment (h : ρ.Identifies q p) (target value : Node) (place : Position) :
    (q.checkAssignment (target.relabel ρ) (value.relabel ρ) (ρ.place place)).mapError ρ.error =
      (p.checkAssignment target value place).mapError ρ.error := by
  simp only [Program.checkAssignment, mapError_bind, h.checkExpression, h.requireValue]
  refine bind_congr fun _ => bind_congr fun _ => ?_
  cases target with
  | name id link spot =>
    cases link with
    | none => simp [Node.relabel, error]
    | some link =>
      simp only [Node.relabel, h.hasKind]
      split <;> simp [error, Cause.relabel]
  | _ => simp [Node.relabel, error]

theorem checkCondition (h : ρ.Identifies q p) (condition : Node) :
    (q.checkCondition (condition.relabel ρ)).mapError ρ.error =
      (p.checkCondition condition).mapError ρ.error := by
  simp only [Program.checkCondition, mapError_bind, h.checkExpression, h.requireValue]

variable {d' d : Declaration}

theorem checkExit (h : ρ.Identifies q p) (hd : d'.relabel ρ = d.relabel ρ) (value : Node)
    (place : Position) :
    (q.checkExit d' (value.relabel ρ) (ρ.place place)).mapError ρ.error =
      (p.checkExit d value place).mapError ρ.error := by
  have htype : d'.type = d.type := (congrArg Declaration.type hd :)
  have hname : ρ.name d'.name = ρ.name d.name := congrArg Declaration.name hd
  simp only [Program.checkExit, mapError_bind, h.checkExpression, htype]
  refine bind_congr fun _ => ?_
  cases d.type with
  | void =>
    simp only [Node.isPresent_relabel]
    split <;> simp [error, Cause.relabel, hname]
  | int =>
    simp only [h.yieldsValue]
    split <;> simp [error, Cause.relabel, hname]

mutual

theorem checkStatement (h : ρ.Identifies q p) (hd : d'.relabel ρ = d.relabel ρ) (node : Node) :
    (q.checkStatement d' (node.relabel ρ)).mapError ρ.error =
      (p.checkStatement d node).mapError ρ.error := by
  cases node with
  | binary op left right place =>
    cases op with
    | assign => exact h.checkAssignment left right place
    | _ => exact h.checkExpression (.binary _ left right place)
  | exit value place => exact h.checkExit hd value place
  | branch condition thenBlock elseBlock place =>
    simp only [Node.relabel, Program.checkStatement, mapError_bind, h.checkCondition,
      checkStatement h hd thenBlock, checkStatement h hd elseBlock]
  | loop condition body place =>
    simp only [Node.relabel, Program.checkStatement, mapError_bind, h.checkCondition,
      checkStatement h hd body]
  | block statements place =>
    rw [Node.relabel, Program.checkStatement, Program.checkStatement,
      checkStatements h hd statements]
  | call callee arguments link place => exact h.checkExpression (.call callee arguments link place)
  | absent | literal | name => rfl

theorem checkStatements (h : ρ.Identifies q p) (hd : d'.relabel ρ = d.relabel ρ)
    (nodes : List Node) :
    (q.checkStatements d' (Node.relabelAll ρ nodes)).mapError ρ.error =
      (p.checkStatements d nodes).mapError ρ.error := by
  cases nodes with
  | nil => rfl
  | cons s rest =>
    simp only [Node.relabelAll, Program.checkStatements, mapError_bind, checkStatement h hd s,
      checkStatements h hd rest]

end

/-! ### Definite assignment -/

theorem unassignedRead? (h : ρ.Identifies q p) (assigned : AssignedSet) (node : Node) :
    (q.unassignedRead? assigned (node.relabel ρ)).map ρ.error =
      (p.unassignedRead? assigned node).map ρ.error := by
  cases node with
  | name id link place =>
    cases link with
    | none => rfl
    | some link =>
      simp only [Node.relabel, Program.unassignedRead?, h.isLocalVariable]
      split <;> simp [error, Cause.relabel, ρ.name_name, ρ.place_place]
  | _ => rfl

theorem checkReads (h : ρ.Identifies q p) (assigned : AssignedSet) (node : Node) :
    (q.checkReads assigned (node.relabel ρ)).mapError ρ.error =
      (p.checkReads assigned node).mapError ρ.error := by
  have hfind : ((node.relabel ρ).nodes.findSome? (q.unassignedRead? assigned)).map ρ.error =
      (node.nodes.findSome? (p.unassignedRead? assigned)).map ρ.error := by
    rw [Node.nodes_relabel, List.findSome?_map, List.map_findSome?, List.map_findSome?]
    congr 1
    funext node
    exact h.unassignedRead? assigned node
  rw [Program.checkReads, Program.checkReads]
  generalize (node.relabel ρ).nodes.findSome? _ = found', node.nodes.findSome? _ = found at hfind ⊢
  cases found' with
  | none =>
    cases found with
    | none => rfl
    | some e => cases hfind
  | some e' =>
    cases found with
    | none => cases hfind
    | some e => exact congrArg Except.error (Option.some.inj hfind)

mutual

theorem assign (h : ρ.Identifies q p) (assigned : AssignedSet) (node : Node) :
    (q.assign assigned (node.relabel ρ)).mapError ρ.error =
      (p.assign assigned node).mapError ρ.error := by
  have hreads (node : Node) : (do
      q.checkReads assigned (node.relabel ρ)
      return assigned : Except CompileError AssignedSet).mapError ρ.error = (do
      p.checkReads assigned node
      return assigned : Except CompileError AssignedSet).mapError ρ.error := by
    rw [mapError_bind, mapError_bind, h.checkReads]
  cases node with
  | binary op left right place =>
    -- an assignment to a name does not read it, everything else is read on both sides
    by_cases hname : ∃ id link spot, op = .assign ∧ left = .name id link spot
    · obtain ⟨id, link, spot, rfl, rfl⟩ := hname
      simp only [Node.relabel, Program.assign, mapError_bind, h.checkReads]
    · have hleft : ∀ id link spot, op = .assign → left = .name id link spot → False :=
        fun id link spot hop hleft => hname ⟨id, link, spot, hop, hleft⟩
      have hrelabelled : ∀ id link spot, op = .assign → left.relabel ρ = .name id link spot →
          False := by
        intro id link spot hop hrelabel
        cases left with
        | name id' link' spot' => exact hleft id' link' spot' hop rfl
        | _ => simp [Node.relabel] at hrelabel
      rw [Node.relabel, Program.assign.eq_3 _ _ _ _ _ _ hleft,
        Program.assign.eq_3 _ _ _ _ _ _ hrelabelled]
      simp only [mapError_bind, h.checkReads]
  | branch condition thenBlock elseBlock place =>
    simp only [Node.relabel, Program.assign, mapError_bind, h.checkReads,
      assign h assigned thenBlock, assign h assigned elseBlock]
  | loop condition body place =>
    simp only [Node.relabel, Program.assign, mapError_bind, h.checkReads, assign h assigned body]
  | block statements place =>
    rw [Node.relabel, Program.assign, Program.assign, assignAll h assigned statements]
  | absent => exact hreads .absent
  | literal value place => exact hreads (.literal value place)
  | name id link place => exact hreads (.name id link place)
  | exit value place => exact hreads (.exit value place)
  | call callee arguments link place => exact hreads (.call callee arguments link place)

theorem assignAll (h : ρ.Identifies q p) (assigned : AssignedSet) (nodes : List Node) :
    (q.assignAll assigned (Node.relabelAll ρ nodes)).mapError ρ.error =
      (p.assignAll assigned nodes).mapError ρ.error := by
  cases nodes with
  | nil => rfl
  | cons s rest =>
    simp only [Node.relabelAll, Program.assignAll, mapError_bind, assign h assigned s]
    exact bind_congr fun assigned' => assignAll h assigned' rest

end

/-! ### Procedures -/

theorem analyzeProcedure (h : ρ.Identifies q p) (hd : d'.relabel ρ = d.relabel ρ) :
    (q.analyzeProcedure d').mapError ρ.error = (p.analyzeProcedure d).mapError ρ.error := by
  have hbody : d'.body.relabel ρ = d.body.relabel ρ := congrArg Declaration.body hd
  -- each check compares the two bodies by way of the tree that both are relabelled to
  have hstatement : (q.checkStatement d' d'.body).mapError ρ.error =
      (p.checkStatement d d.body).mapError ρ.error := by
    rw [← (refl q).checkStatement rfl, hbody, h.checkStatement hd]
  have hreturns : (Program.checkReturns d').mapError ρ.error =
      (Program.checkReturns d).mapError ρ.error := by
    have htype : d'.type = d.type := (congrArg Declaration.type hd :)
    have hterminates : d'.body.terminates = d.body.terminates := by
      rw [← Node.terminates_relabel ρ, hbody, Node.terminates_relabel]
    have hname : ρ.name d'.name = ρ.name d.name := congrArg Declaration.name hd
    have hplace : ρ.place d'.position = ρ.place d.position := congrArg Declaration.position hd
    rw [Program.checkReturns, Program.checkReturns, htype, hterminates]
    split
    · simp only [mapError_error, error, Cause.relabel, hname, hplace]
    · rfl
  have hassigned : (q.checkAssigned d').mapError ρ.error =
      (p.checkAssigned d).mapError ρ.error := by
    have hparams : d'.params = d.params := (congrArg Declaration.params hd :)
    simp only [Program.checkAssigned, mapError_bind, hparams]
    rw [← (refl q).assign, hbody, h.assign]
  simp only [Program.analyzeProcedure, mapError_bind, hstatement, hreturns, hassigned,
    Node.checkReachableIn_congr hbody]

theorem forProcedures (h : ρ.Identifies q p) {check' check : Declaration → Except CompileError Unit}
    (hcheck : ∀ d' d, d'.relabel ρ = d.relabel ρ →
      (check' d').mapError ρ.error = (check d).mapError ρ.error) :
    (q.forProcedures check').mapError ρ.error = (p.forProcedures check).mapError ρ.error := by
  rw [Program.forProcedures, Program.forProcedures]
  exact mapError_forM h.forall₂_procedures fun d' d hd => hcheck d' d hd.relabel

/-- The reachability check does not look at labels. -/
theorem checkReachability (h : ρ.Identifies q p) :
    q.checkReachability.mapError ρ.error = p.checkReachability.mapError ρ.error :=
  h.forProcedures fun _ _ hd => Node.checkReachableIn_congr (congrArg Declaration.body hd)

/-- Once names are linked the analysis does not look at labels. -/
theorem analyze (h : ρ.Identifies q p) : q.analyze.mapError ρ.error = p.analyze.mapError ρ.error :=
  h.forProcedures fun _ _ hd => h.analyzeProcedure hd

end Relabelling.Identifies

end Classwright
