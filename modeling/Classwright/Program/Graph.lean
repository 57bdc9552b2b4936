import Classwright.Program.Basic
import Classwright.Text.Quoted

/-!
# Graphs of programs

A graph description for graphviz: the declarations of the class and of every procedure as clusters,
the tree of every procedure, and dashed edges from names and calls to the declarations they are
linked to.  Declarations are drawn as `d1`, `d2`, … by their numbers from 1, tree nodes as `n1`,
`n2`, … in the order they are drawn.
-/

namespace Classwright

namespace Graph

/-- A drawing in progress: how many tree nodes are drawn, and the text so far. -/
structure Canvas where
  /-- The number of tree nodes drawn. -/
  count : Nat := 0
  /-- The text so far. -/
  text : String := ""
  deriving Inhabited

namespace Canvas

/-- Adds text. -/
def write (c : Canvas) (s : String) : Canvas :=
  { c with text := c.text ++ s }

/-- Takes the next node name into use. -/
def next (c : Canvas) : Canvas :=
  { c with count := c.count + 1 }

/-- The name of the node that comes next. -/
def nextName (c : Canvas) : String :=
  s!"n{c.count + 1}"

/-- Draws a node with a label. -/
def node (c : Canvas) (name label : String) : Canvas :=
  c.write s!"\t{name} [label={label}];\n"

/-- Draws the point that stands for a block. -/
def point (c : Canvas) (name : String) : Canvas :=
  c.write s!"\t{name} [label=\"seq\", shape=point];\n"

/-- Draws an edge, with a label unless it is empty. -/
def edge (c : Canvas) (source target label : String) : Canvas :=
  c.write <|
    if label.isEmpty then s!"\t{source} -> {target};\n"
    else s!"\t{source} -> {target} [label=\"{label}\"];\n"

/-- Draws the edge to a linked declaration. -/
def link (c : Canvas) (source : String) (target : Option DeclId) : Canvas :=
  match target with
  | some id => c.write s!"\t{source} -> d{id + 1} [style=dashed];\n"
  | none => c

end Canvas

mutual

/-- Draws a tree under the next name.  Where a block must stand, a missing one is drawn like an
empty one; elsewhere a missing node only takes a name. -/
def drawNode (blockPlace : Bool) (c : Canvas) : Node → Canvas
  | .absent =>
    let name := c.nextName
    if blockPlace then c.next.point name else c.next
  | .literal value _ =>
    let name := c.nextName
    c.next.node name s!"\"{value.toInt}\""
  | .name id target _ =>
    let name := c.nextName
    (c.next.node name id.quoted).link name target
  | .binary op left right _ =>
    let name := c.nextName
    let c := c.next.node name s!"\"{op.symbol}\""
    let child := c.nextName
    let c := (drawNode false c left).edge name child ""
    let child := c.nextName
    (drawNode false c right).edge name child ""
  | .exit value _ =>
    let name := c.nextName
    let c := c.next.node name "\"return\""
    let child := c.nextName
    if value.isPresent then (drawNode false c value).edge name child "" else c
  | .call callee arguments target _ =>
    let name := c.nextName
    let c := c.next.node name (callee ++ Text.ofString "()").quoted
    (drawAll c name arguments).link name target
  | .branch condition thenBlock elseBlock _ =>
    let name := c.nextName
    let c := c.next.node name "\"if\""
    let child := c.nextName
    let c := (drawNode false c condition).edge name child "cond"
    let child := c.nextName
    let c := (drawNode true c thenBlock).edge name child "then"
    let child := c.nextName
    (drawNode true c elseBlock).edge name child "else"
  | .loop condition body _ =>
    let name := c.nextName
    let c := c.next.node name "\"while\""
    let child := c.nextName
    let c := (drawNode false c condition).edge name child "cond"
    let child := c.nextName
    (drawNode true c body).edge name child "body"
  | .block statements _ =>
    let name := c.nextName
    drawAll (c.next.point name) name statements

/-- Draws several trees and the edges to them. -/
def drawAll (c : Canvas) (parent : String) : List Node → Canvas
  | [] => c
  | node :: rest =>
    let child := c.nextName
    drawAll ((drawNode false c node).edge parent child "") parent rest

end

/-- Draws a declaration. -/
def drawDecl (p : Program) (c : Canvas) (id : DeclId) : Canvas :=
  match p.decl? id with
  | none => c
  | some d =>
    let head := Text.ofString s!"{d.kind.word} " ++ d.name
    let label :=
      match d.kind with
      | .constant => head ++ Text.ofString s!" = {d.value.toInt}"
      | .procedure => head ++ d.descriptor
      | _ => head
    c.write s!"\t\td{id + 1} [label={label.quoted}, shape=ellipse];\n"

/-- Draws a procedure: its declarations, its tree, and the edge between them. -/
def drawProcedure (p : Program) (c : Canvas) (id : DeclId) : Canvas :=
  match p.decl? id with
  | none => c
  | some d =>
    let c := c.write
      s!"\tsubgraph cluster_{id + 1} \x7b\n\t\tlabel={(d.name ++ d.descriptor).quoted};\n"
    let c := ((p.localsOf d).foldl (drawDecl p) c).write "\t\x7d\n"
    let root := c.nextName
    (drawNode true c d.body).write s!"\td{id + 1} -> {root} [label=\"body\"];\n"

end Graph

/-- The graph of a program. -/
def Program.graph (p : Program) : String :=
  let c : Graph.Canvas := {}
  let c := c.write s!"digraph {p.name.quoted} \x7b\n"
  let c := c.write "\tnode [shape=box, fontname=\"monospace\"];\n"
  let label := (Text.ofString "class " ++ p.name).quoted
  let c := c.write s!"\tsubgraph cluster_class \x7b\n\t\tlabel={label};\n"
  let c := (p.members.foldl (Graph.drawDecl p) c).write "\t\x7d\n"
  let c := p.procedures.foldl (Graph.drawProcedure p) c
  (c.write "\x7d\n").text

end Classwright
