import Classwright.Proofs.Parser.Accepted
import Classwright.Proofs.Program.WellFormed
import Mathlib.Data.List.Sort

/-!
# The bodies of a parsed program

The procedures of a program are its declarations of that kind, in the order they were made in
(`Program.WellFormed.filterMap_procedures`).  When the program has been parsed, their bodies are
those of the methods of the class, in the order of the source (`Program.exists_bodies`).
-/

namespace Classwright

open Grammar

namespace Program

theorem filterMap_range_getElem? {α : Type} (xs : List α) :
    (List.range xs.length).filterMap (xs[·]?) = xs := by
  induction xs with
  | nil => rfl
  | cons x xs ih =>
    rw [List.length_cons, List.range_succ_eq_map, List.filterMap_cons_some List.getElem?_cons_zero,
      List.filterMap_map]
    exact congrArg (x :: ·) ih

/-- The procedures are the declarations of that kind, in order. -/
theorem WellFormed.filterMap_procedures {p : Program} (hp : p.WellFormed) :
    p.procedures.filterMap p.decl? = p.decls.toList.filter fun d => d.kind == .procedure := by
  have hids : p.procedures = (List.range p.decls.size).filter (p.hasKind .procedure) := by
    apply List.Pairwise.eq_of_mem_iff (r := (· < ·))
    · exact (hp.tidy.sorted classTable).filter _
    · exact List.pairwise_lt_range.filter _
    · intro id
      rw [hp.mem_procedures, List.mem_filter, List.mem_range]
      constructor
      · rintro ⟨d, hd, hk⟩
        exact ⟨(Array.getElem?_eq_some_iff.1 hd).1, by simp [hasKind, hd, hk]⟩
      · rintro ⟨hlt, hk⟩
        have hd : p.decl? id = some p.decls[id] := Array.getElem?_eq_getElem hlt
        rw [hasKind, hd] at hk
        exact ⟨_, hd, by simpa using hk⟩
  have hdecls : p.decls.toList = (List.range p.decls.size).filterMap p.decl? := by
    have hrange := filterMap_range_getElem? p.decls.toList
    rw [Array.length_toList] at hrange
    rw [← hrange]
    exact List.filterMap_congr fun id _ => (Array.getElem?_toList ..)
  rw [hids, hdecls, List.filterMap_filter, List.filter_filterMap]
  refine List.filterMap_congr fun id _ => ?_
  cases hd : p.decl? id with
  | none => simp [hasKind, hd]
  | some d => simp [hasKind, hd, Option.filter]

end Program

namespace Grammar

theorem filter_allDeclarations (id : DeclId) (table : TableId) (ms : List Method) :
    ((Method.allDeclarations id table ms).filter fun d => d.kind == .procedure).map
      Declaration.body = ms.map Method.body := by
  induction ms generalizing id table with
  | nil => rfl
  | cons m ms ih =>
    have hprocedure : ((m.declaration (id + 1) table).kind == .procedure) = true := rfl
    have hvalues : (m.paramList.map (Param.declaration table) ++
        m.locals.map (Variable.declaration table)).filter (fun d => d.kind == .procedure) = [] := by
      rw [List.filter_append, List.filter_map, List.filter_map]
      simp [Function.comp_def, Param.declaration, Variable.declaration]
    rw [Method.allDeclarations, List.filter_append, List.map_append, ih, List.map_cons,
      Method.declarations, List.filter_cons, if_pos hprocedure, hvalues]
    rfl

/-- The procedures among the declarations of a class have the bodies of its methods. -/
theorem Class.filter_declarations (c : Class) :
    (c.declarations.filter fun d => d.kind == .procedure).map Declaration.body =
      c.methods.map Method.body := by
  have hfields : (c.constants.map Constant.declaration ++
      c.fields.map (Variable.declaration Program.classTable)).filter
        (fun d => d.kind == .procedure) = [] := by
    rw [List.filter_append, List.filter_map, List.filter_map]
    simp [Function.comp_def, Constant.declaration, Variable.declaration]
  rw [Class.declarations, List.filter_append, hfields, List.nil_append, filter_allDeclarations]

theorem Class.decls_program (c : Class) : c.program.decls.toList = c.declarations := rfl

end Grammar

namespace Program

variable {text : Text} {tokens : List Token} {p : Program}

/-- A program that has been parsed is that of a class with its tokens. -/
theorem exists_class (h : ofTokens tokens = .ok p) :
    ∃ c : Grammar.Class, c.tokens = tokens ∧ p = c.program := by
  obtain ⟨c, hc, hdeclare⟩ := accepts_class.1 h
  exact ⟨c, hc, (Class.declare_eq_ok.1 hdeclare).2.2⟩

/-- The bodies of its procedures are those of the methods. -/
theorem exists_bodies (h : ofText text = .ok p) :
    ∃ (tokens : List Token) (c : Grammar.Class), Token.ofText text = .ok tokens ∧
      c.tokens = tokens ∧ p = c.program ∧
        (p.procedures.filterMap p.decl?).map Declaration.body = c.methods.map Method.body := by
  obtain ⟨group, hbuilt⟩ := built_of_ofText h
  obtain ⟨tokens, htokens, hp⟩ := bind_eq_ok.1 h
  obtain ⟨c, hc, rfl⟩ := exists_class hp
  refine ⟨tokens, c, htokens, hc, rfl, ?_⟩
  rw [hbuilt.wellFormed.1.filterMap_procedures, c.decls_program, c.filter_declarations]

end Program

end Classwright
