import Classwright.Proofs.Check.Scoping
import Classwright.Proofs.Emit.Room
import Classwright.Proofs.Printer.Inverse

/-!
# Programs that do nothing

A program without constants whose procedures have empty bodies (`Program.Idle`) passes all checks as
it is, for none of them looks at how many variables there are or what they are called, and it is
emitted if its members leave room in the pool.  So every such program that the parser can build is
the program of a text that is accepted (`Build.accepts_idle`).
-/

namespace Classwright

namespace Program

/-- Nothing is stored, and no procedure has a statement. -/
structure Idle (p : Program) : Prop where
  /-- There are no constants. -/
  constants : p.constants = []
  /-- The procedures return nothing, and their bodies are empty. -/
  procedures : ∀ d ∈ p.procedureDecls, d.type = .void ∧ ∃ place, d.body = .block [] place

variable {p q : Program}

theorem procedureDecls_erase (p : Program) :
    p.erase.procedureDecls = p.procedureDecls.map Declaration.erase := by
  rw [procedureDecls, procedures_erase, filterMap_decl?_erase, procedureDecls]

/-- It does not matter where the procedures stand. -/
theorem Idle.of_erase (hp : p.Idle) (h : q.erase = p.erase) : q.Idle where
  constants := by rw [← constants_erase, h, constants_erase, hp.constants]
  procedures d hd := by
    have hdecls : q.procedureDecls.map Declaration.erase =
        p.procedureDecls.map Declaration.erase := by
      rw [← procedureDecls_erase, h, procedureDecls_erase]
    obtain ⟨e, he, herase⟩ := List.mem_map.1 (hdecls ▸ List.mem_map_of_mem hd)
    obtain ⟨htype, place, hbody⟩ := hp.procedures e he
    have hnode : d.body.erase = .block [] .unknown := by
      have hsame : e.body.erase = d.body.erase := congrArg Declaration.body herase
      rw [← hsame, hbody]
      rfl
    refine ⟨(congrArg Declaration.type herase).symm.trans htype, ?_⟩
    cases hd : d.body with
    | block statements place' =>
      rw [hd] at hnode
      cases statements with
      | nil => exact ⟨place', rfl⟩
      | cons s rest => cases hnode
    | _ =>
      rw [hd] at hnode
      cases hnode

/-! ### Checks -/

/-- Names are linked in statements only. -/
theorem resolveProcedures_of_empty {ids : List DeclId}
    (h : ∀ id ∈ ids, ∀ d, p.decl? id = some d → ∃ place, d.body = .block [] place) :
    p.resolveProcedures ids = (p, none) := by
  induction ids with
  | nil => rfl
  | cons id rest ih =>
    rw [List.forall_mem_cons] at h
    cases hd : p.decl? id with
    | none => rw [resolveProcedures_cons_of_none hd, ih h.2]
    | some d =>
      obtain ⟨place, hbody⟩ := h.1 d hd
      have hsame : (p.update id fun d' => { d' with body := d.body }) = p :=
        update_eq_self fun d' hd' => by rw [Option.some.inj (hd'.symm.trans hd)]
      have hresolve : d.body.resolve p d.locals = (d.body, none) := by
        rw [hbody]
        rfl
      rw [resolveProcedures_cons hd, hresolve, hsame]
      exact ih h.2

/-- It passes all checks as it is. -/
theorem Idle.passes (hp : p.Idle) {text : Text} (h : ofText text = .ok p) :
    Build.Passes text p := by
  have hdecls (check : Declaration → Except CompileError Unit)
      (hcheck : ∀ d : Declaration, d.type = .void → (∃ place, d.body = .block [] place) →
        check d = .ok ()) : p.forProcedures check = .ok () :=
    forM_eq_ok.2 fun d hd => hcheck d (hp.procedures d hd).1 (hp.procedures d hd).2
  refine ⟨p, h, hdecls _ fun d _ hbody => ?_, ?_, hdecls _ fun d htype hbody => ?_⟩
  · obtain ⟨place, hbody⟩ := hbody
    rw [hbody]
    rfl
  · refine resolveProcedures_of_empty fun id hid d hd => ?_
    exact (hp.procedures d (List.mem_filterMap.2 ⟨id, hid, hd⟩)).2
  · obtain ⟨place, hbody⟩ := hbody
    rw [analyzeProcedure, checkReturns, checkAssigned, hbody, htype]
    rfl

/-! ### Emission -/

/-- It is emitted if its members leave room in the pool. -/
theorem Idle.exists_classFile (hidle : p.Idle) (hp : p.Checked)
    (hroom : 8 * p.members.length + 9 ≤ maxPoolEntries) : ∃ f, p.classFile = .ok f := by
  have hliterals : PoolBuilder.literalsOf p = [] := by
    rw [PoolBuilder.literalsOf, List.flatMap_eq_nil_iff]
    intro d hd
    obtain ⟨-, place, hbody⟩ := hidle.procedures d hd
    rw [hbody]
    rfl
  obtain ⟨pool, hpool⟩ := PoolBuilder.exists_of_room hp.wellFormed (by
    simpa [PoolBuilder.roomFor, hliterals] using hroom)
  have hfit : p.LayoutsFit pool := by
    constructor
    · intro d hd
      obtain ⟨htype, place, hbody⟩ := hidle.procedures d hd
      have hcode : EmitContext.procedureLayout p pool d = [{ op := .vreturn }] := by
        rw [EmitContext.procedureLayout, EmitContext.tail, hbody, htype]
        rfl
      rw [hcode]
      refine ⟨by decide, ?_⟩
      simp [Code.branchesFit_cons, Opcode.operand]
    · rw [EmitContext.constructorLayout, hidle.constants]
      have hsize : (EmitContext.initCode pool []).size = 5 := rfl
      refine ⟨by rw [EmitContext.storesLayout, hsize]; decide, ?_⟩
      simp [EmitContext.storesLayout, EmitContext.initCode, Code.branchesFit_cons, Opcode.operand]
  rcases hp.classFile_cases hpool with ⟨-, f, hf⟩ | ⟨hlimit, -⟩
  · exact ⟨f, hf⟩
  · exact absurd hfit hlimit

end Program

/-- **Programs that do nothing are accepted** however many variables they have and whatever those
are called, if their members leave room in the pool. -/
theorem Build.accepts_idle {p : Program} {group : Parser.MemberGroup}
    (hp : Program.Built (.members group) p) (hidle : p.Idle)
    (hroom : 8 * p.members.length + 9 ≤ maxPoolEntries) :
    ∃ q f, (ofText p.print).result = .ok (q, f) ∧ q.erase = p.erase := by
  obtain ⟨q, hq, herase⟩ := hp.exists_ofText_print
  have hmembers : q.members = p.members := by
    rw [← Program.members_erase, herase, Program.members_erase]
  have hidle' : q.Idle := hidle.of_erase herase
  have hpasses := hidle'.passes hq
  obtain ⟨f, hf⟩ := hidle'.exists_classFile hpasses.checked (by rwa [hmembers])
  obtain ⟨raw, hraw, hreach, hresolve, hanalyze⟩ := hpasses
  refine ⟨q, f, ?_, herase⟩
  simp only [ofText, hraw, hreach, check, hresolve, hanalyze, emit, hf]

end Classwright
