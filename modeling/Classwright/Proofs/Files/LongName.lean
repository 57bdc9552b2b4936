import Classwright.Proofs.Emit.Idle
import Classwright.Proofs.Files.Compilation

/-!
# Names that no class file has room for

No check refuses a name for its length: a class with one variable is accepted whatever the variable
is called (`Build.accepts_variable`).  If its name takes more than 65535 bytes, the class file
cannot be written, and what it held before is lost (`FileTree.loses_classFile`).
-/

namespace Classwright

namespace Program

/-- The class `A` with one variable. -/
def ofVariable (name : Text) : Program :=
  { name := Text.ofString "A"
    position := .unknown
    decls := #[{ kind := .var, name }]
    tables := #[({} : SymbolTable).insert 0 { kind := .var, name }] }

variable {name : Text}

theorem built_ofVariable (h : name.IsIdentifier) :
    Built (.members .variables) (ofVariable name) := by
  have hclass : Text.IsIdentifier (Text.ofString "A") :=
    ⟨⟨0x41, [], by decide, by decide, by simp⟩, by decide⟩
  have hdeclare : (empty (Text.ofString "A") .unknown).declare classTable { kind := .var, name } =
      .ok (ofVariable name, 0) := by
    simp [Program.empty, declare, conflict?, table?, valueIn?, Declaration.isValue, ofVariable,
      classTable]
  exact .field (.start hclass) (by decide) h hdeclare

theorem members_ofVariable (name : Text) : (ofVariable name).members = [0] := by
  simp [ofVariable, members, membersOf, table?, SymbolTable.insert, classTable]

theorem idle_ofVariable (name : Text) : (ofVariable name).Idle where
  constants := by
    rw [constants, members_ofVariable]
    simp [ofVariable, hasKind, decl?]
  procedures d hd := by
    have hnone : (ofVariable name).procedures = [] := by
      rw [procedures, members_ofVariable]
      simp [ofVariable, hasKind, decl?]
    rw [procedureDecls, hnone] at hd
    cases hd

end Program

/-- Variables are accepted whatever they are called. -/
theorem Build.accepts_variable {name : Text} (h : name.IsIdentifier) : ∃ p f,
    (ofText (Program.ofVariable name).print).result = .ok (p, f) ∧
      p.erase = (Program.ofVariable name).erase :=
  accepts_idle (Program.built_ofVariable h) (Program.idle_ofVariable name)
    (by rw [Program.members_ofVariable]; decide)

namespace FileTree

/-- A name of 65536 letters. -/
def longName : Text :=
  List.replicate 0x10000 0x61

/-- A directory with the source of a class with a variable of this name, and with an earlier class
file. -/
def longTree : FileTree :=
  { directories := [["out"]]
    files := [(["a.sst"], (Program.ofVariable longName).print), (["out", "A.class"], [0xCA])] }

/-- **A failed compilation loses the class file** that was there: the name is found to be too long
when the file has been emptied already. -/
theorem loses_classFile :
    longTree.Ready "a.sst" ⟨"out", false⟩ (Program.ofVariable longName).print ["out"] ∧
      (∃ e, longTree.outcome "a.sst" ⟨"out", false⟩ = .error e) ∧
      longTree.files.lookup ["out", "A.class"] = some [0xCA] ∧
      (longTree.after "a.sst" ⟨"out", false⟩).files.lookup ["out", "A.class"] = some [] := by
  have hplace : longTree.locate "a.sst" = some ["a.sst"] := by decide
  have hready : longTree.Ready "a.sst" ⟨"out", false⟩ (Program.ofVariable longName).print
      ["out"] :=
    { source := by rw [read?_eq hplace]; rfl
      rooted := by decide
      directory := by decide }
  have hlong : Text.IsIdentifier longName := Text.isIdentifier_replicate (by decide)
  obtain ⟨p, f, hbuild, herase⟩ := Build.accepts_variable hlong
  have hfit : ¬ p.NamesFit := by
    -- The program is read back up to positions, so its variable still has the long name.
    intro hfit
    have hdecl : (p.decl? 0).map Declaration.erase =
        some (Declaration.erase { kind := .var, name := longName }) := by
      rw [← Program.decl?_erase, herase, Program.decl?_erase]
      rfl
    obtain ⟨d, hd, hderase⟩ := Option.map_eq_some_iff.1 hdecl
    have hname : d.name = longName := congrArg Declaration.name hderase
    have hle := hfit.members 0 d hd (congrArg Declaration.table hderase)
    rw [hname, longName, List.length_replicate] at hle
    omega
  obtain ⟨length, -, hencode, herror, -⟩ := hready.cutShort hbuild hfit
  refine ⟨hready, ⟨_, herror⟩, rfl, ?_⟩
  have hname : resultName p ".class" = "A.class" := by
    have hclass : p.name = Text.ofString "A" := congrArg Program.name herase
    have hplain : Text.IsPlain (Text.ofString "A") := by decide
    rw [resultName, hclass, Text.shown, hplain.characters]
    rfl
  rw [(hready.accepted hbuild).2, hname, hencode]
  exact lookup_put _ _ _

end FileTree

end Classwright
