import Classwright.Proofs.Emit.Idle
import Classwright.Proofs.Emit.Slots
import Classwright.Proofs.Program.Listed

/-!
# Procedures with more variables than slots

A procedure with any number of variables is accepted (`Build.accepts_crowded`), but the number of
its slots is written in two bytes.  With 65536 variables none is left (`Build.loses_slots`).
-/

namespace Classwright

namespace Program

/-- The procedure `f`, which takes and returns nothing. -/
def crowdedProcedure (body : Node) : Declaration :=
  { kind := .procedure, name := Text.ofString "f", type := .void, locals := some 1, body }

/-- A variable of this procedure. -/
def crowdedVariable (i : Nat) : Declaration :=
  { kind := .var, name := List.replicate (i + 7) 0x61, table := 1 }

/-- The class `A` with this procedure, which has `n` variables. -/
def crowdedWith (body : Node) (n : Nat) : Program :=
  .ofDeclarations (Text.ofString "A") .unknown
    [{}, { parent := some classTable, owner := some 0 }]
    (crowdedProcedure body :: (List.range n).map crowdedVariable)

/-- The class with nothing in the body of the procedure. -/
def crowded (n : Nat) : Program :=
  crowdedWith (.block [] .unknown) n

/-- The head of the procedure declares it. -/
theorem declareMethod_crowded :
    Parser.declareMethod (.empty (Text.ofString "A") .unknown)
      { type := .void, name := Text.ofString "f", place := .unknown } =
        .ok (crowdedWith .absent 0, 0, 1) := by
  let announced : Declaration :=
    { kind := .procedure, name := Text.ofString "f", type := .void }
  let made (tables : List SymbolTable) (ds : List Declaration) : Program :=
    .ofDeclarations (Text.ofString "A") .unknown tables ds
  have hempty : Program.empty (Text.ofString "A") .unknown = made [{}] [] := rfl
  have htidy : (made [{}] []).Tidy := Tidy.empty _ _
  have hdeclare : (made [{}] []).declare classTable announced = .ok (made [{}] [announced], 0) :=
    (declare_ofDeclarations htidy (by decide)).2 ⟨by simp, rfl, rfl⟩
  have htable : (made [{}] [announced]).addTable (some classTable) (some 0) =
      (made [{}, { parent := some classTable, owner := some 0 }] [announced], 1) :=
    addTable_ofDeclarations (by simp [announced]) _ _
  have hupdate : (made [{}, { parent := some classTable, owner := some 0 }] [announced]).update 0
      (fun d => { d with locals := some 1, params := [] }) = crowdedWith .absent 0 :=
    update_ofDeclarations (f := fun d => { d with locals := some 1, params := [] })
      (fun _ => ⟨rfl, rfl, rfl⟩) 0
  simp only [hempty, Parser.declareMethod, bind_eq_ok, pure_eq_ok]
  refine ⟨_, hdeclare, (_, []), rfl, ?_⟩
  simp only [htable, hupdate]

/-- So does the line of each variable. -/
theorem declare_crowdedVariable {n : Nat} (hp : (crowdedWith .absent n).Tidy) :
    (crowdedWith .absent n).declare 1 { kind := .var, name := List.replicate (n + 7) 0x61 } =
      .ok (crowdedWith .absent (n + 1), n + 1) := by
  refine (declare_ofDeclarations hp (by simp)).2 ⟨?_, ?_, by simp⟩
  · -- the name is longer than those of the variables that are there
    have hnew (d : Declaration) (hd : d ∈ (List.range n).map crowdedVariable) :
        d.entry ≠ (crowdedVariable n).entry := by
      obtain ⟨i, hi, rfl⟩ := List.mem_map.1 hd
      intro hentry
      have hname : (crowdedVariable i).name = (crowdedVariable n).name :=
        congrArg (fun entry : TableId × Text × Option Nat => entry.2.1) hentry
      have hlength := congrArg List.length hname
      simp only [crowdedVariable, List.length_replicate] at hlength
      have hlt := List.mem_range.1 hi
      omega
    rw [List.map_cons, List.mem_cons, not_or, List.mem_map]
    refine ⟨fun h => ?_, fun ⟨d, hd, h⟩ => hnew d hd h⟩
    have htable := congrArg Prod.fst h
    cases htable
  · rw [crowdedWith, List.range_succ, List.map_append]
    rfl

theorem built_crowdedWith (n : Nat) : Built (.method 0 1) (crowdedWith .absent n) := by
  induction n with
  | zero =>
    have hclass : Text.IsIdentifier (Text.ofString "A") :=
      ⟨⟨0x41, [], by decide, by decide, by simp⟩, by decide⟩
    have hname : Text.IsIdentifier (Text.ofString "f") :=
      ⟨⟨0x66, [], by decide, by decide, by simp⟩, by decide⟩
    exact .head (.start hclass) ⟨hname, by simp⟩ declareMethod_crowded
  | succ n ih =>
    exact .localVariable ih (Text.isIdentifier_replicate (by omega))
      (declare_crowdedVariable ih.wellFormed.1.tidy)

theorem built_crowded (n : Nat) : Built (.members .methods) (crowded n) := by
  have hupdate : (crowdedWith .absent n).update 0 (fun d => { d with body := .block [] .unknown }) =
      crowded n :=
    update_ofDeclarations (f := fun d => { d with body := .block [] .unknown })
      (fun _ => ⟨rfl, rfl, rfl⟩) 0
  rw [← hupdate]
  exact .body (built_crowdedWith n) (.intro (by simp))

/-- The procedure is the first declaration, and the variables are the others. -/
theorem decl?_crowded {n : Nat} {id : DeclId} {d : Declaration} :
    (crowded n).decl? id = some d ↔ (id = 0 ∧ d = crowdedProcedure (.block [] .unknown)) ∨
      ∃ i < n, id = i + 1 ∧ d = crowdedVariable i := by
  rw [crowded, crowdedWith, decl?_ofDeclarations]
  cases id with
  | zero => simp [eq_comm]
  | succ i =>
    simp only [List.getElem?_cons_succ, List.getElem?_map, Option.map_eq_some_iff,
      List.getElem?_eq_some_iff, List.getElem_range, List.length_range, Nat.add_one_ne_zero,
      false_and, false_or]
    constructor
    · rintro ⟨j, ⟨hj, rfl⟩, rfl⟩
      exact ⟨i, hj, rfl, rfl⟩
    · rintro ⟨j, hj, hij, rfl⟩
      obtain rfl := Nat.succ.inj hij
      exact ⟨i, ⟨hj, rfl⟩, rfl⟩

theorem length_members_crowded (n : Nat) : (crowded n).members.length ≤ 1 := by
  have hwf := (built_crowded n).wellFormed.1
  have hsubset : (crowded n).members ⊆ [0] := by
    intro id hid
    obtain ⟨d, hd, htable⟩ := hwf.mem_members.1 hid
    rcases decl?_crowded.1 hd with ⟨rfl, -⟩ | ⟨i, -, -, rfl⟩
    · exact List.mem_singleton_self 0
    · cases htable
  exact (List.subperm_of_subset (hwf.tidy.nodup_membersOf classTable) hsubset).length_le

theorem idle_crowded (n : Nat) : (crowded n).Idle where
  constants := by
    rw [constants, List.filter_eq_nil_iff]
    intro id hid hk
    obtain ⟨d, hd, htable⟩ := (built_crowded n).wellFormed.1.mem_members.1 hid
    simp only [hasKind, hd, beq_iff_eq] at hk
    rcases decl?_crowded.1 hd with ⟨-, rfl⟩ | ⟨i, -, -, rfl⟩ <;> cases hk
  procedures d hd := by
    obtain ⟨id, hd, hk⟩ := (built_crowded n).wellFormed.1.mem_procedureDecls.1 hd
    rcases decl?_crowded.1 hd with ⟨-, rfl⟩ | ⟨i, -, -, rfl⟩
    · exact ⟨rfl, _, rfl⟩
    · cases hk

theorem slotCount_erase (p : Program) (d : Declaration) :
    p.erase.slotCount d.erase = p.slotCount d := by
  rw [slotCount, localVariables_erase]
  rfl

theorem slotCount_crowded (n : Nat) :
    (crowded n).slotCount (crowdedProcedure (.block [] .unknown)) = n := by
  have hwf := (built_crowded n).wellFormed.1
  have hmem (id : DeclId) : id ∈ (crowded n).membersOf 1 ↔ id ∈ (List.range n).map (· + 1) := by
    rw [hwf.tidy.mem_membersOf, List.mem_map]
    constructor
    · rintro ⟨d, hd, htable⟩
      rcases decl?_crowded.1 hd with ⟨-, rfl⟩ | ⟨i, hi, rfl, -⟩
      · cases htable
      · exact ⟨i, List.mem_range.2 hi, rfl⟩
    · rintro ⟨i, hi, rfl⟩
      exact ⟨_, decl?_crowded.2 (Or.inr ⟨i, List.mem_range.1 hi, rfl, rfl⟩), rfl⟩
  have hnodup : ((List.range n).map (· + 1)).Nodup :=
    List.nodup_range.map fun _ _ h => Nat.succ.inj h
  have hperm := (List.perm_ext_iff_of_nodup (hwf.tidy.nodup_membersOf 1) hnodup).2 hmem
  rw [← hwf.length_localsOf (decl?_crowded.2 (Or.inl ⟨rfl, rfl⟩)) rfl]
  have hlength := hperm.length_eq
  rwa [List.length_map, List.length_range] at hlength

end Program

namespace Build

/-- **No procedure has too many variables to be accepted**, but only the last two bytes of their
number are written. -/
theorem accepts_crowded (n : Nat) :
    ∃ p f, (ofText (Program.crowded n).print).result = .ok (p, f) ∧
      ∃ d ∈ p.procedureDecls, p.slotCount d = n ∧ ∃ m ∈ f.methods, ∃ body,
        f.memberName m = .ok (d.name, d.descriptor) ∧ f.methodCode m = .ok body ∧
          body.maxLocals.toNat = n % 0x10000 := by
  have hsmall := Program.length_members_crowded n
  obtain ⟨p, f, h, herase⟩ := accepts_idle (Program.built_crowded n) (Program.idle_crowded n)
    (by rw [maxPoolEntries]; omega)
  obtain ⟨hp, hfile⟩ := checked h
  obtain ⟨pool, hf⟩ := Program.emitted_of_classFile hp.wellFormed hfile
  -- The program is read back up to positions, so it has the procedure still.
  have hdecls : p.procedureDecls.map Declaration.erase =
      (Program.crowded n).procedureDecls.map Declaration.erase := by
    rw [← Program.procedureDecls_erase, herase, Program.procedureDecls_erase]
  have hmem : Program.crowdedProcedure (.block [] .unknown) ∈ (Program.crowded n).procedureDecls :=
    (Program.built_crowded n).wellFormed.1.mem_procedureDecls.2
      ⟨0, Program.decl?_crowded.2 (Or.inl ⟨rfl, rfl⟩), rfl⟩
  obtain ⟨d, hd, hderase⟩ := List.mem_map.1 (hdecls ▸ List.mem_map_of_mem hmem)
  have hcount : p.slotCount d = n := by
    rw [← Program.slotCount_erase, herase, hderase, Program.slotCount_erase,
      Program.slotCount_crowded]
  obtain ⟨methods, constructor, hmethods, hprocedures, -⟩ := hf.methods
  obtain ⟨m, hm, body, hbody, hmethod⟩ := exists_of_forall₂ hprocedures.flip hd
  rw [← hf.pool_eq] at hmethod
  obtain ⟨id, hid, hk⟩ := hp.wellFormed.mem_procedureDecls.1 hd
  obtain ⟨hlength, -, huses⟩ := Program.usesSlots_of_procedureCode hp hid hk hbody
  refine ⟨p, f, h, d, hd, hcount, m, by simp [hmethods, hm], body,
    ClassFile.memberName_of_holds hmethod.name hmethod.descriptor,
    ClassFile.methodCode_of_methodOf hmethod (by omega), ?_⟩
  rw [huses.maxLocals_eq, hcount]

/-- **Slots are lost**: the method of a procedure with 65536 variables has none. -/
theorem loses_slots :
    ∃ p f, (ofText (Program.crowded 0x10000).print).result = .ok (p, f) ∧
      ∃ d ∈ p.procedureDecls, p.slotCount d = 0x10000 ∧ ∃ m ∈ f.methods, ∃ body,
        f.memberName m = .ok (d.name, d.descriptor) ∧ f.methodCode m = .ok body ∧
          body.maxLocals.toNat = 0 :=
  accepts_crowded 0x10000

end Build

end Classwright
