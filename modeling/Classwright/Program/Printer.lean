import Classwright.Program.Basic
import Classwright.Tree.Printer

/-!
# Printing programs as source text

Constants and variables come first, then the procedures, each group in the order of declaration.
A constant is written with its value.
-/

namespace Classwright

namespace Program

/-- The line of a constant or variable of the class. -/
def fieldText (d : Declaration) : Text :=
  match d.kind with
  | .constant =>
    Node.line 1 (Text.ofString "final int " ++ d.name ++ Text.ofString " = " ++
      literalText d.value false ++ Text.ofString ";")
  | .var => Node.line 1 (Text.ofString "int " ++ d.name ++ Text.ofString ";")
  | _ => []

/-- The lines of a procedure. -/
def procedureText (p : Program) (d : Declaration) : Text :=
  let params := d.params.map fun id => Text.ofString "int " ++ (id.map p.nameOf).getD []
  Node.line 1 (Text.ofString s!"public {d.type.word} " ++ d.name ++ Text.ofString "(" ++
      Node.joinTexts (Text.ofString ", ") params ++ Text.ofString ") \x7b") ++
    (p.localVariables d).flatMap (fun id =>
      Node.line 2 (Text.ofString "int " ++ p.nameOf id ++ Text.ofString ";")) ++
    Node.blockOnto 2 d.body (Node.line 1 (Text.ofString "\x7d"))

/-- The source text of a program. -/
def print (p : Program) : Text :=
  Text.ofString "class " ++ p.name ++ Text.ofString " \x7b\n" ++
    (p.members.filterMap p.decl?).flatMap fieldText ++
    (p.procedures.filterMap p.decl?).flatMap p.procedureText ++
    Text.ofString "\x7d\n"

end Program

end Classwright
