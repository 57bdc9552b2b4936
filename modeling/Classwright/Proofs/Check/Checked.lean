import Classwright.Compiler
import Classwright.Proofs.Check.Links

/-!
# Programs that pass all checks

A program that is compiled is well formed, its names are linked, and each of its procedures has
passed the analysis (`Program.Checked`, `Build.checked`).
-/

namespace Classwright

/-- What the parser, the resolution and the analysis establish. -/
structure Program.Checked (p : Program) : Prop where
  /-- The declarations are those of a class. -/
  wellFormed : p.WellFormed
  /-- The bodies are linked. -/
  linked : ∀ id d, p.decl? id = some d → d.kind = .procedure →
    ∃ t, d.locals = some t ∧ d.body.LinkedBlock p t
  /-- The procedures pass the analysis. -/
  analyzed : ∀ id d, p.decl? id = some d → d.kind = .procedure → p.analyzeProcedure d = .ok ()

namespace Build

variable {text : Text} {p : Program} {f : ClassFile}

/-- The stages that a compilation passes. -/
theorem stages (h : (ofText text).result = .ok (p, f)) :
    ∃ raw, Program.ofText text = .ok raw ∧ raw.checkReachability = .ok () ∧
      raw.resolve = (p, none) ∧ p.analyze = .ok () ∧ p.classFile = .ok f := by
  unfold ofText at h
  split at h
  · simp at h
  · rename_i raw hraw
    dsimp only at h
    split at h
    · simp at h
    · rename_i hreach
      refine ⟨raw, hraw, hreach, ?_⟩
      unfold check at h
      dsimp only at h
      split at h
      · simp at h
      · rename_i q hq
        split at h
        · simp at h
        · rename_i hanalyze
          unfold emit at h
          dsimp only at h
          split at h
          · simp at h
          · rename_i file hfile
            simp only [Except.ok.injEq, Prod.mk.injEq] at h
            obtain ⟨rfl, rfl⟩ := h
            exact ⟨hq, hanalyze, hfile⟩

end Build

theorem Program.WellFormed.forProcedures_eq_ok {p : Program} (hp : p.WellFormed)
    {check : Declaration → Except CompileError Unit} (h : p.forProcedures check = .ok ())
    {id : DeclId} {d : Declaration} (hd : p.decl? id = some d) (hk : d.kind = .procedure) :
    check d = .ok () := by
  refine forM_eq_ok.1 h d (List.mem_filterMap.2 ⟨id, ?_, hd⟩)
  exact hp.mem_procedures.2 ⟨d, hd, hk⟩

/-- A source text passes all checks in front of emission, as the program `p`. -/
def Build.Passes (text : Text) (p : Program) : Prop :=
  ∃ raw, Program.ofText text = .ok raw ∧ raw.checkReachability = .ok () ∧
    raw.resolve = (p, none) ∧ p.analyze = .ok ()

theorem Build.Passes.checked {text : Text} {p : Program} (h : Passes text p) : p.Checked := by
  obtain ⟨raw, hraw, -, hresolve, hanalyze⟩ := h
  obtain ⟨group, hbuilt⟩ := Program.built_of_ofText hraw
  obtain ⟨hwf, -, hlinked⟩ := Program.linked_resolve hbuilt.wellFormed.1
    (fun id d hd hk => hbuilt.isBlock_body hd hk) hresolve
  exact ⟨hwf, hlinked, fun id d hd hk => hwf.forProcedures_eq_ok hanalyze hd hk⟩

/-- A source text that is compiled passes all checks. -/
theorem Build.passes {text : Text} {p : Program} {f : ClassFile}
    (h : (Build.ofText text).result = .ok (p, f)) : Passes text p ∧ p.classFile = .ok f := by
  obtain ⟨raw, hraw, hreach, hresolve, hanalyze, hfile⟩ := Build.stages h
  exact ⟨⟨raw, hraw, hreach, hresolve, hanalyze⟩, hfile⟩

/-- A program that is compiled has passed all checks. -/
theorem Build.checked {text : Text} {p : Program} {f : ClassFile}
    (h : (Build.ofText text).result = .ok (p, f)) : p.Checked ∧ p.classFile = .ok f :=
  ⟨(passes h).1.checked, (passes h).2⟩

end Classwright
