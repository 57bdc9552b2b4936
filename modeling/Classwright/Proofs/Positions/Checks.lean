import Classwright.Proofs.Positions.Erase
import Classwright.Proofs.Relabelling.Emission

/-!
# Checks and emission do not depend on positions

Leaving out the positions is a relabelling (`Node.relabel_unplaced`), so programs that are equal up
to positions pass the same checks (`Program.checkReachability_congr`, `Program.analyze_congr`) and
have the same pool and class file (`Program.classFile_congr`).  Resolution links a program without
positions as it links the program itself (`Program.resolve_erase`).  The errors are the same, too,
but for the positions they name.
-/

namespace Classwright

/-- An error without its position. -/
def CompileError.erase (e : CompileError) : CompileError :=
  { e with position := .unknown }

/-- An error of the emitter without its positions. -/
def EmitError.erase : EmitError → EmitError
  | compile error => compile error.erase
  | unexpectedStatement form _ => unexpectedStatement form .unknown
  | unexpectedExpression form _ => unexpectedExpression form .unknown
  | unexpectedOperator op _ => unexpectedOperator op .unknown
  | noLiteralEntry value _ => noLiteralEntry value .unknown
  | e => e

/-! ### Erasing as relabelling -/

namespace Node

mutual

/-- Leaving out the positions is a relabelling. -/
theorem relabel_unplaced : ∀ node : Node, node.relabel .unplaced = node.erase
  | absent | literal _ _ | name _ _ _ => rfl
  | binary _ left right _ => by
    rw [relabel, erase, relabel_unplaced left, relabel_unplaced right]
    rfl
  | exit value _ => by
    rw [relabel, erase, relabel_unplaced value]
    rfl
  | call _ arguments _ _ => by
    rw [relabel, erase, relabelAll_unplaced arguments]
    rfl
  | branch condition thenBlock elseBlock _ => by
    rw [relabel, erase, relabel_unplaced condition, relabel_unplaced thenBlock,
      relabel_unplaced elseBlock]
    rfl
  | loop condition body _ => by
    rw [relabel, erase, relabel_unplaced condition, relabel_unplaced body]
    rfl
  | block statements _ => by
    rw [relabel, erase, relabelAll_unplaced statements]
    rfl

theorem relabelAll_unplaced : ∀ nodes : List Node, relabelAll .unplaced nodes = eraseAll nodes
  | [] => rfl
  | node :: rest => by
    rw [relabelAll, eraseAll, relabel_unplaced node, relabelAll_unplaced rest]

end

end Node

theorem Declaration.relabel_unplaced (d : Declaration) : d.relabel .unplaced = d.erase := by
  rw [relabel, erase, Node.relabel_unplaced]
  rfl

theorem CompileError.error_unplaced : Relabelling.unplaced.error = CompileError.erase := by
  funext e
  obtain ⟨cause, place⟩ := e
  cases cause <;> rfl

theorem EmitError.emitError_unplaced : Relabelling.unplaced.emitError = EmitError.erase := by
  funext e
  cases e with
  | compile e =>
    rw [Relabelling.emitError, erase, CompileError.error_unplaced]
  | _ => rfl

/-- Programs that are equal up to positions are the same when places are forgotten. -/
theorem Program.identifies_of_erase {p q : Program} (h : q.erase = p.erase) :
    Relabelling.unplaced.Identifies q p where
  name := (congrArg Program.name h :)
  place := rfl
  decl id := by
    rw [show Declaration.relabel .unplaced = Declaration.erase from
      funext Declaration.relabel_unplaced, ← decl?_erase, h, decl?_erase]
  listed t := by rw [← membersOf_erase, h, membersOf_erase]
  member id _ := by rw [← nameOf_erase, h, nameOf_erase]

/-! ### Resolution -/

/-- A tree is linked without positions as it is linked with them. -/
theorem Node.resolve_erase (p : Program) (table : Option TableId) (node : Node) :
    node.erase.resolve p.erase table =
      (node.resolve p table).map erase (Option.map CompileError.erase) := by
  have hlinks : node.LinksAlike .unplaced p.erase p table :=
    ⟨fun x _ _ _ => Program.lookupValue_erase p table x, Program.lookupProcedure_erase p table⟩
  have hresolve := resolve_relabel node hlinks
  rwa [relabel_unplaced, CompileError.error_unplaced, funext relabel_unplaced] at hresolve

namespace Program

theorem resolveProcedure_erase (p : Program) (id : DeclId) :
    p.erase.resolveProcedure id =
      (p.resolveProcedure id).map erase (Option.map CompileError.erase) := by
  unfold resolveProcedure
  rw [decl?_erase]
  cases p.decl? id with
  | none => rfl
  | some d =>
    have hbody : d.erase.body.resolve p.erase d.erase.locals =
        (d.body.resolve p d.locals).map Node.erase (Option.map CompileError.erase) :=
      Node.resolve_erase p d.locals d.body
    simp only [Option.map_some, hbody, Prod.map]
    rw [erase_update p id (g := fun e => { e with body := (d.body.resolve p d.locals).1.erase })
      fun _ => rfl]

theorem resolveProcedures_erase (p : Program) (ids : List DeclId) :
    p.erase.resolveProcedures ids =
      (p.resolveProcedures ids).map erase (Option.map CompileError.erase) := by
  induction ids generalizing p with
  | nil => rfl
  | cons id rest ih =>
    rw [resolveProcedures, resolveProcedures, resolveProcedure_erase]
    obtain ⟨q, _ | e⟩ := p.resolveProcedure id
    · exact ih q
    · rfl

/-- Resolution makes the same links without positions. -/
theorem resolve_erase (p : Program) :
    p.erase.resolve = p.resolve.map erase (Option.map CompileError.erase) := by
  rw [resolve, resolve, procedures_erase, resolveProcedures_erase]

end Program

/-! ### Checks and emission -/

namespace Program

variable {p q : Program} (h : q.erase = p.erase)

include h

/-- Reachability does not depend on positions. -/
theorem checkReachability_congr : q.checkReachability.mapError CompileError.erase =
    p.checkReachability.mapError CompileError.erase := by
  rw [← CompileError.error_unplaced]
  exact (identifies_of_erase h).checkReachability

/-- Nor do the other checks. -/
theorem analyze_congr :
    q.analyze.mapError CompileError.erase = p.analyze.mapError CompileError.erase := by
  rw [← CompileError.error_unplaced]
  exact (identifies_of_erase h).analyze

/-- Programs that are equal up to positions have the same class file, or fail by the same error, but
for the positions it names. -/
theorem classFile_congr :
    q.classFile.mapError EmitError.erase = p.classFile.mapError EmitError.erase := by
  rw [← EmitError.emitError_unplaced]
  exact (identifies_of_erase h).classFile

end Program

end Classwright
