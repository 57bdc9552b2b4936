import Classwright.Parser.Program
import Classwright.Proofs.Except
import Classwright.Proofs.Parser.Trees

/-!
# The programs the parser builds

`Program.Built` describes how a program comes about: constants, then variables, then procedures
are declared one after the other, each procedure with its parameters, its variables and its body.
Every program that is parsed comes about in this way (`Program.built_of_ofText`), so what holds of
all built programs is proved by induction over this relation and not over the states of the parser.
-/

namespace Classwright

open Classwright.Parser

namespace Program

/-- How far a program is built. -/
inductive Stage where
  /-- A member of the group or a later one can be declared. -/
  | members (group : MemberGroup)
  /-- A procedure with its table has been declared, and its body is not yet there. -/
  | method (procedure : DeclId) (table : TableId)

/-- The names in the head of a method are identifiers. -/
structure HeadSound (head : MethodHead) : Prop where
  /-- The name of the method is one. -/
  name : head.name.IsIdentifier
  /-- The names of the parameters are. -/
  params : ∀ param ∈ head.params, param.1.IsIdentifier

/-- The programs that declarations in the order of the language build. -/
inductive Built : Stage → Program → Prop
  | start {name : Text} {place : Position} (h : name.IsIdentifier) :
      Built (.members .constants) (.empty name place)
  | constant {p q : Program} {name : Text} {value : Int32} {position : Position} {id : DeclId}
      (hp : Built (.members .constants) p) (h : name.IsIdentifier)
      (hq : p.declare classTable { kind := .constant, name, value, position } = .ok (q, id)) :
      Built (.members .constants) q
  | field {p q : Program} {group : MemberGroup} {name : Text} {position : Position} {id : DeclId}
      (hp : Built (.members group) p) (hg : group ≠ .methods) (h : name.IsIdentifier)
      (hq : p.declare classTable { kind := .var, name, position } = .ok (q, id)) :
      Built (.members .variables) q
  | head {p q : Program} {group : MemberGroup} {head : MethodHead} {procedure : DeclId}
      {table : TableId} (hp : Built (.members group) p) (h : HeadSound head)
      (hq : declareMethod p head = .ok (q, procedure, table)) :
      Built (.method procedure table) q
  | localVariable {p q : Program} {procedure : DeclId} {table : TableId} {name : Text}
      {position : Position} {id : DeclId} (hp : Built (.method procedure table) p)
      (h : name.IsIdentifier)
      (hq : p.declare table { kind := .var, name, position } = .ok (q, id)) :
      Built (.method procedure table) q
  | body {p : Program} {procedure : DeclId} {table : TableId} {body : Node}
      (hp : Built (.method procedure table) p) (h : body.IsBlock) :
      Built (.members .methods) (p.update procedure fun d => { d with body })

end Program

namespace Parser

namespace ClassState

open Program (Built HeadSound)

/-- Where a variable is declared the program is ready for it. -/
def Home (p : Program) : Option MethodBody → Prop
  | none => ∃ group, group ≠ .methods ∧ Built (.members group) p
  | some home => Built (.method home.procedure home.table) p

/-- The program of a state is built as far as the state says. -/
def Sound : ClassState → Prop
  | .classWord | .className => True
  | .classBrace p | .constantInt p | .constantName p => Built (.members .constants) p
  | .members p group => Built (.members group) p
  | .constantAssign p name _ | .constantValue p name _ _ =>
    Built (.members .constants) p ∧ name.IsIdentifier
  | .variableName p home => Home p home
  | .variableEnd p home name _ => Home p home ∧ name.IsIdentifier
  | .methodType p | .closed p => ∃ group, Built (.members group) p
  | .methodName p _ => ∃ group, Built (.members group) p
  | .methodParen p head | .firstParam p head | .nextParam p head | .paramName p head
  | .paramEnd p head => (∃ group, Built (.members group) p) ∧ HeadSound head
  | .methodBrace p procedure table => Built (.method procedure table) p
  | .locals p home => Built (.method home.procedure home.table) p
  | .body p procedure s => ∃ table, Built (.method procedure table) p ∧ s.Sound

theorem sound_stepConstant {ending place : Position} {p : Program} {name : Text} {e : ExprState}
    {t : Token} {next : ClassState} (hp : Built (.members .constants) p) (hn : name.IsIdentifier)
    (h : stepConstant ending p name place e t = .ok next) : next.Sound := by
  unfold stepConstant at h
  split at h
  · obtain rfl := Except.ok.inj h
    exact ⟨hp, hn⟩
  · simp at h
  · split at h
    · simp only [declareConstant, bind_eq_ok, pure_eq_ok] at h
      obtain ⟨q, ⟨value, -, ⟨q', id⟩, hd, rfl⟩, rfl⟩ := h
      exact .constant hp hn hd
    · simp at h

theorem sound_declareVariable {place : Position} {p : Program} {home : Option MethodBody}
    {name : Text} {next : ClassState} (hp : Home p home) (hn : name.IsIdentifier)
    (h : declareVariable p home name place = .ok next) : next.Sound := by
  unfold declareVariable at h
  cases home with
  | none =>
    obtain ⟨group, hg, hp⟩ := hp
    simp only [bind_eq_ok, pure_eq_ok] at h
    obtain ⟨⟨q, id⟩, hd, rfl⟩ := h
    exact .field hp hg hn hd
  | some home =>
    simp only [bind_eq_ok, pure_eq_ok] at h
    obtain ⟨⟨q, id⟩, hd, rfl⟩ := h
    exact .localVariable hp hn hd

theorem sound_stepParamsEnd {p : Program} {head : MethodHead} {next : ClassState}
    (hp : ∃ group, Built (.members group) p) (hh : HeadSound head)
    (h : stepParamsEnd p head = .ok next) : next.Sound := by
  obtain ⟨group, hp⟩ := hp
  simp only [stepParamsEnd, bind_eq_ok, pure_eq_ok] at h
  obtain ⟨⟨q, procedure, table⟩, hd, rfl⟩ := h
  exact .head hp hh hd

theorem sound_stepBody {ending : Position} {p : Program} {procedure : DeclId} {table : TableId}
    {s : StmtState} {t : Token} {next : ClassState} (hp : Built (.method procedure table) p)
    (hs : s.Sound) (ht : t.Genuine) (h : stepBody ending p procedure s t = .ok next) :
    next.Sound := by
  unfold stepBody at h
  split at h
  · rename_i s' hs'
    obtain rfl := Except.ok.inj h
    have hnext := StmtState.sound_step hs ht hs'
    unfold bodyState
    split
    · exact .body hp hnext
    · exact ⟨table, hp, hnext⟩
  · simp at h
  · simp at h

/-- A token keeps a state sound. -/
theorem sound_step {ending : Position} {s next : ClassState} {t : Token} (hs : s.Sound)
    (ht : t.Genuine) (h : s.step ending t = .ok next) : next.Sound := by
  unfold step at h
  split at h
  all_goals try obtain rfl := Except.ok.inj h
  · trivial
  · rename_i hk
    exact .start (ht.identifier hk)
  · exact hs
  · exact hs
  · exact ⟨_, by simp, hs⟩
  · exact ⟨_, by simp, hs⟩
  · exact ⟨_, hs⟩
  · exact ⟨_, hs⟩
  · exact hs
  · rename_i hk
    exact ⟨hs, ht.identifier hk⟩
  · exact hs
  · exact sound_stepConstant hs.1 hs.2 h
  · rename_i hk
    exact ⟨hs, ht.identifier hk⟩
  · exact sound_declareVariable hs.1 hs.2 h
  · exact hs
  · exact hs
  · rename_i hk
    exact ⟨hs, ht.identifier hk, by simp⟩
  · exact hs
  · exact hs
  · exact sound_stepParamsEnd hs.1 hs.2 h
  · exact hs
  · rename_i hk
    exact ⟨hs.1, hs.2.name, List.forall_mem_cons.2 ⟨ht.identifier hk, hs.2.params⟩⟩
  · exact hs
  · exact sound_stepParamsEnd hs.1 hs.2 h
  · exact hs
  · exact hs
  · exact sound_stepBody (s := .start _) hs (OpenBlocks.goal (by simp)) ht h
  · obtain ⟨table, hp, hs⟩ := hs
    exact sound_stepBody hp hs ht h
  · simp at h

theorem sound_foldlM {ending : Position} {tokens : List Token} {s next : ClassState} (hs : s.Sound)
    (ht : ∀ t ∈ tokens, t.Genuine) (h : tokens.foldlM (step ending) s = .ok next) :
    next.Sound := by
  induction tokens generalizing s with
  | nil =>
    rw [List.foldlM_nil, pure_eq_ok] at h
    exact h ▸ hs
  | cons t rest ih =>
    rw [List.forall_mem_cons] at ht
    rw [List.foldlM_cons, bind_eq_ok] at h
    obtain ⟨s', hs', h⟩ := h
    exact ih (sound_step hs ht.1 hs') ht.2 h

end ClassState

end Parser

namespace Program

/-- Every program that is parsed is built by declarations in the order of the language. -/
theorem built_of_ofText {text : Text} {p : Program} (h : ofText text = .ok p) :
    ∃ group, Built (.members group) p := by
  simp only [ofText, ofTokens, bind_eq_ok] at h
  obtain ⟨tokens, htok, s, hs, h⟩ := h
  have hsound := ClassState.sound_foldlM (s := .classWord) trivial
    (Token.genuine_of_ofText htok) hs
  unfold ClassState.finish at h
  dsimp only at h
  split at h
  · obtain rfl := Except.ok.inj h
    exact hsound
  all_goals (repeat' split at h) <;> simp at h

end Program

end Classwright
