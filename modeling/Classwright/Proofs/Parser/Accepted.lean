import Classwright.Proofs.Parser.Derived
import Classwright.Proofs.Parser.Meaning
import Classwright.Proofs.Parser.Unambiguous

/-!
# What the parser accepts

A state of the parser accepts the tokens that lead from it to a program (`ClassState.Accepts`).
The state in front of a phrase accepts the tokens of the phrase, if what it declares can be
declared, with tokens behind them that the state behind the phrase accepts:

* `Grammar.accepts_constant`, `Grammar.accepts_field`, `Grammar.accepts_local` and
  `Grammar.accepts_method` say so for one phrase that may be repeated, and
  `ClassState.accepts_repeated` for any number of them;
* `Grammar.accepts_initializer` and `Grammar.accepts_statements` take what is known of expressions
  and statements into a class, in one direction from what reads them and in the other from what
  is derived when they have been read;
* `Grammar.accepts_class`: what is accepted from the start is a class.
-/

namespace Classwright

namespace Parser

open Grammar

namespace ClassState

variable {ending : Position} {s s' : ClassState} {t : Token} {ts rest : List Token}
  {p q : Program}

/-- The state accepts some tokens, as the end of a program. -/
def Accepts (ending : Position) (s : ClassState) (tokens : List Token) (q : Program) : Prop :=
  (tokens.foldlM (step ending) s >>= finish ending) = .ok q

theorem accepts_nil : Accepts ending s [] q ↔ s = .closed q := by
  have hfinish : Accepts ending s [] q ↔ s.finish ending = .ok q := Iff.rfl
  rw [hfinish]
  cases s with
  | closed p => simp [finish]
  | constantValue p name place e =>
    simp only [finish]
    split <;> simp
  | body p procedure s =>
    simp only [finish]
    split <;> simp
  | _ => simp [finish]

theorem accepts_cons :
    Accepts ending s (t :: ts) q ↔ ∃ s', s.step ending t = .ok s' ∧ Accepts ending s' ts q := by
  simp only [Accepts, List.foldlM_cons, bind_eq_ok]
  constructor
  · rintro ⟨s'', ⟨s', hs', hs''⟩, hq⟩
    exact ⟨s', hs', s'', hs'', hq⟩
  · rintro ⟨s', hs', s'', hs'', hq⟩
    exact ⟨s'', ⟨s', hs', hs''⟩, hq⟩

/-- Nothing may come behind a class. -/
theorem accepts_closed : Accepts ending (.closed p) ts q ↔ ts = [] ∧ p = q := by
  cases ts with
  | nil => simp [accepts_nil]
  | cons t ts => simp [accepts_cons, step_closed, refuse]

/-- What has been read is accepted with what is accepted behind it. -/
theorem Reads.accepts (h : Reads ending s ts s') (hrest : Accepts ending s' rest q) :
    Accepts ending s (ts ++ rest) q := by
  rw [Accepts, List.foldlM_append, show ts.foldlM (step ending) s = .ok s' from h]
  exact hrest

/-- What accepts some tokens passes a state that accepts the rest of them. -/
theorem exists_of_accepts_append (h : Accepts ending s (ts ++ rest) q) :
    ∃ s', Reads ending s ts s' ∧ Accepts ending s' rest q := by
  rw [Accepts, List.foldlM_append, bind_assoc] at h
  exact bind_eq_ok.1 h

/-- Where one token must come. -/
theorem accepts_token {P : Token → Prop} {next : Token → Except CompileError ClassState}
    (hclosed : ∀ q, s ≠ .closed q)
    (hstep : ∀ t s', s.step ending t = .ok s' ↔ P t ∧ next t = .ok s') :
    Accepts ending s ts q ↔ ∃ (t : { t : Token // P t }) (rest : List Token) (s' : ClassState),
      ts = t.1 :: rest ∧ next t.1 = .ok s' ∧ Accepts ending s' rest q := by
  cases ts with
  | nil =>
    rw [accepts_nil]
    simp [hclosed q]
  | cons t ts =>
    simp only [accepts_cons, hstep]
    constructor
    · rintro ⟨s', ⟨ht, hs'⟩, hrest⟩
      exact ⟨⟨t, ht⟩, ts, s', rfl, hs', hrest⟩
    · rintro ⟨⟨t, ht⟩, rest, s', hts, hs', hrest⟩
      obtain ⟨rfl, rfl⟩ := List.cons.inj hts
      exact ⟨s', ⟨ht, hs'⟩, hrest⟩

/-- Where one token must come and nothing is declared. -/
theorem accepts_wanted (s : ClassState) {k : TokenKind} {next : Token → ClassState}
    (h : s.wanted? = some (k, next)) :
    Accepts ending s ts q ↔ ∃ (t : Terminal k) (rest : List Token),
      ts = t.1 :: rest ∧ Accepts ending (next t.1) rest q := by
  have hclosed : ∀ q, s ≠ .closed q := by
    rintro q rfl
    cases h
  have hstep : ∀ t s', s.step ending t = .ok s' ↔
      t.kind = k ∧ (.ok (next t) : Except CompileError ClassState) = .ok s' := by
    intro t s'
    rw [step_wanted h]
    split <;> simp [refuse, *]
  rw [accepts_token hclosed hstep]
  simp

/-- Where one of two tokens must come. -/
theorem accepts_either {k k' : TokenKind} {next : ClassState}
    {next' : Except CompileError ClassState} (hclosed : ∀ q, s ≠ .closed q)
    (hstep : ∀ t s', s.step ending t = .ok s' ↔
      t.kind = k ∧ next = s' ∨ t.kind = k' ∧ next' = .ok s') :
    Accepts ending s ts q ↔
      (∃ (t : Terminal k) (rest : List Token), ts = t.1 :: rest ∧ Accepts ending next rest q) ∨
      ∃ (t : Terminal k') (rest : List Token) (s' : ClassState),
        ts = t.1 :: rest ∧ next' = .ok s' ∧ Accepts ending s' rest q := by
  cases ts with
  | nil =>
    rw [accepts_nil]
    simp [hclosed q]
  | cons t ts =>
    simp only [accepts_cons, hstep]
    constructor
    · rintro ⟨s', ⟨ht, rfl⟩ | ⟨ht, hs'⟩, hrest⟩
      · exact Or.inl ⟨⟨t, ht⟩, ts, rfl, hrest⟩
      · exact Or.inr ⟨⟨t, ht⟩, ts, s', rfl, hs', hrest⟩
    · rintro (⟨⟨t, ht⟩, rest, hts, hrest⟩ | ⟨⟨t, ht⟩, rest, s', hts, hs', hrest⟩)
      · obtain ⟨rfl, rfl⟩ := List.cons.inj hts
        exact ⟨next, Or.inl ⟨ht, rfl⟩, hrest⟩
      · obtain ⟨rfl, rfl⟩ := List.cons.inj hts
        exact ⟨s', Or.inr ⟨ht, hs'⟩, hrest⟩

/-- Where a phrase that starts with a token of one kind may come or be left out. -/
theorem accepts_optional (s₀ next : ClassState) (k : TokenKind) (hclosed : ∀ q, s ≠ .closed q)
    (hclosed₀ : ∀ q, s₀ ≠ .closed q)
    (hkind : ∀ t, t.kind = k → s.step ending t = .ok next)
    (hother : ∀ t, t.kind ≠ k → s.step ending t = s₀.step ending t)
    (hrefused : ∀ t s', t.kind = k → s₀.step ending t ≠ .ok s') :
    Accepts ending s ts q ↔
      (∃ (t : Terminal k) (rest : List Token), ts = t.1 :: rest ∧ Accepts ending next rest q) ∨
        Accepts ending s₀ ts q := by
  cases ts with
  | nil =>
    rw [accepts_nil, accepts_nil]
    simp [hclosed q, hclosed₀ q]
  | cons t ts =>
    rw [accepts_cons, accepts_cons]
    by_cases ht : t.kind = k
    · rw [hkind t ht]
      constructor
      · rintro ⟨s', hs', hrest⟩
        obtain rfl := Except.ok.inj hs'
        exact Or.inl ⟨⟨t, ht⟩, ts, rfl, hrest⟩
      · rintro (⟨t', rest, hts, hrest⟩ | ⟨s', hs', -⟩)
        · obtain ⟨-, rfl⟩ := List.cons.inj hts
          exact ⟨next, rfl, hrest⟩
        · exact absurd hs' (hrefused t s' ht)
    · rw [hother t ht]
      refine ⟨Or.inr, ?_⟩
      rintro (⟨t', rest, hts, -⟩ | h)
      · obtain ⟨rfl, -⟩ := List.cons.inj hts
        exact absurd t'.2 ht
      · exact h

/-- Where a phrase may be repeated, any number of them may come. -/
theorem accepts_repeated {α σ : Type} {state : σ → ClassState} {tokens : α → List Token}
    {declare : σ → α → Except CompileError σ} {behind : σ → List Token → Prop}
    (hne : ∀ a, tokens a ≠ [])
    (h : ∀ x ts, Accepts ending (state x) ts q ↔
      (∃ a rest y, ts = tokens a ++ rest ∧ declare x a = .ok y ∧ Accepts ending (state y) rest q) ∨
        behind x ts) {x : σ} :
    Accepts ending (state x) ts q ↔
      ∃ (as : List α) (rest : List Token) (y : σ), ts = as.flatMap tokens ++ rest ∧
        as.foldlM declare x = .ok y ∧ behind y rest := by
  constructor
  · intro hts
    induction hn : ts.length using Nat.strongRecOn generalizing ts x with
    | ind n ih =>
      rcases (h x ts).1 hts with ⟨a, rest, y, rfl, hy, hrest⟩ | hbehind
      · have hpos := List.length_pos_of_ne_nil (hne a)
        have hlt : rest.length < n := by
          rw [← hn, List.length_append]
          omega
        obtain ⟨as, rest', z, rfl, hz, hbehind⟩ := ih _ hlt hrest rfl
        refine ⟨a :: as, rest', z, ?_, ?_, hbehind⟩
        · rw [List.flatMap_cons, List.append_assoc]
        · rw [List.foldlM_cons, hy]
          exact hz
      · exact ⟨[], ts, x, rfl, rfl, hbehind⟩
  · rintro ⟨as, rest, y, rfl, hy, hbehind⟩
    induction as generalizing x with
    | nil =>
      obtain rfl := pure_eq_ok.1 hy
      exact (h _ _).2 (Or.inr hbehind)
    | cons a as ih =>
      obtain ⟨z, hz, hy⟩ := bind_eq_ok.1 hy
      refine (h _ _).2 (Or.inl ⟨a, _, z, ?_, hz, ih hy⟩)
      rw [List.flatMap_cons, List.append_assoc]

end ClassState

end Parser

namespace Grammar

open Classwright.Parser Classwright.Parser.ClassState

variable {ending : Position} {ts : List Token} {p q : Program}

/-! ### Constants -/

/-- An initializer of which some has been read. -/
theorem accepts_reading {name : Text} {place : Position} {r : Reading}
    (h : Accepts ending (.constantValue p name place r.state) ts q) :
    ∃ (e : Expr) (semicolon : Terminal .semicolon) (read rest : List Token) (p' : Program),
      ts = read ++ semicolon.1 :: rest ∧ e.tokens = r.tokens ++ read ∧
        declareConstant p name place e.node = .ok p' ∧
          Accepts ending (.members p' .constants) rest q := by
  induction ts generalizing r with
  | nil => cases accepts_nil.1 h
  | cons t ts ih =>
    obtain ⟨s', hs', hts⟩ := accepts_cons.1 h
    rw [step_constantValue, stepConstant] at hs'
    split at hs'
    · rename_i next hnext
      obtain rfl := Except.ok.inj hs'
      obtain ⟨r', rfl, htokens, -⟩ := Reading.step_shift hnext
      obtain ⟨e, semicolon, read, rest, p', rfl, he, hp', hrest⟩ := ih hts
      exact ⟨e, semicolon, t :: read, rest, p', rfl, by rw [he, htokens, List.append_assoc]; rfl,
        hp', hrest⟩
    · cases hs'
    · rename_i value hvalue
      split at hs'
      · rename_i ht
        obtain ⟨p', hp', hs'⟩ := bind_eq_ok.1 hs'
        obtain rfl := pure_eq_ok.1 hs'
        obtain ⟨⟨e, rfl, he⟩, -⟩ := Reading.step_done hvalue
        exact ⟨e, ⟨t, ht⟩, [], ts, p', rfl, by rw [he, List.append_nil], hp', hts⟩
      · cases hs'

theorem accepts_initializer {name : Text} {place : Position} :
    Accepts ending (.constantValue p name place .start) ts q ↔
      ∃ (e : Expr) (semicolon : Terminal .semicolon) (rest : List Token) (p' : Program),
        ts = e.tokens ++ semicolon.1 :: rest ∧ declareConstant p name place e.node = .ok p' ∧
          Accepts ending (.members p' .constants) rest q := by
  constructor
  · intro h
    have hstart : ExprState.start = (Reading.operand [] {}).state := rfl
    rw [hstart] at h
    obtain ⟨e, semicolon, read, rest, p', rfl, he, hp', hrest⟩ := accepts_reading h
    exact ⟨e, semicolon, rest, p', by rw [he]; rfl, hp', hrest⟩
  · rintro ⟨e, semicolon, rest, p', rfl, hp', hrest⟩
    obtain ⟨pending, last, s, hread, hclose, hreads⟩ := e.exists_reads
    refine (reads_initializer hreads).accepts (accepts_cons.2 ⟨_, ?_, hrest⟩)
    rw [step_constantValue, stepConstant, hread.step_done (Or.inl semicolon.2), hclose]
    dsimp only
    rw [if_pos semicolon.2, hp']
    rfl

/-- A constant may come first. -/
theorem accepts_constant (p : Program) (ts : List Token) :
    Accepts ending (.members p .constants) ts q ↔
      (∃ (c : Constant) (rest : List Token) (p' : Program), ts = c.tokens ++ rest ∧
        c.declare p = .ok p' ∧ Accepts ending (.members p' .constants) rest q) ∨
      Accepts ending (.members p .variables) ts q := by
  rw [accepts_optional (.members p .variables) (.constantInt p) .finalWord (by simp) (by simp)]
  · refine or_congr_left ?_
    constructor
    · rintro ⟨finalWord, _, rfl, hint⟩
      obtain ⟨intWord, _, rfl, hname⟩ := (accepts_wanted (.constantInt p) rfl).1 hint
      obtain ⟨name, _, rfl, hsign⟩ := (accepts_wanted (.constantName p) rfl).1 hname
      obtain ⟨sign, _, rfl, hvalue⟩ := (accepts_wanted (.constantAssign p _ _) rfl).1 hsign
      obtain ⟨e, semicolon, rest, p', rfl, hp', hrest⟩ := accepts_initializer.1 hvalue
      refine ⟨⟨finalWord, intWord, name, sign, e, semicolon⟩, rest, p', ?_, hp', hrest⟩
      simp [Constant.tokens]
    · rintro ⟨c, rest, p', rfl, hp', hrest⟩
      refine ⟨c.finalWord, _, rfl, (accepts_wanted (.constantInt p) rfl).2 ⟨c.intWord, _, rfl, ?_⟩⟩
      refine (accepts_wanted (.constantName p) rfl).2 ⟨c.name, _, rfl, ?_⟩
      refine (accepts_wanted (.constantAssign p _ _) rfl).2 ⟨c.sign, _, rfl, ?_⟩
      refine accepts_initializer.2 ⟨c.value, c.semicolon, rest, p', ?_, hp', hrest⟩
      simp
  · intro t ht
    rw [step_constants, if_pos ht]
  · intro t ht
    rw [step_constants, if_neg ht]
  · intro t s' ht
    simp [step_variables, step_methods, refuse, ht]

/-! ### Variables -/

theorem accepts_variableEnd {home : Option MethodBody} {name : Text} {place : Position} :
    Accepts ending (.variableEnd p home name place) ts q ↔
      ∃ (semicolon : Terminal .semicolon) (rest : List Token) (s' : ClassState),
        ts = semicolon.1 :: rest ∧ declareVariable p home name place = .ok s' ∧
          Accepts ending s' rest q := by
  have hstep : ∀ t s', (ClassState.variableEnd p home name place).step ending t = .ok s' ↔
      t.kind = .semicolon ∧ declareVariable p home name place = .ok s' := by
    intro t s'
    rw [step_variableEnd]
    split <;> simp [refuse, *]
  exact accepts_token (by simp) hstep

/-- A variable, declared in a table and then followed by what a state accepts. -/
theorem accepts_variable {home : Option MethodBody} {table : TableId} {state : Program → ClassState}
    (hdeclare : ∀ (v : Variable) s',
      declareVariable p home v.name.1.content v.name.1.position = .ok s' ↔
        ∃ p', v.declare table p = .ok p' ∧ state p' = s') :
    (∃ (intWord : Terminal .intWord) (rest : List Token), ts = intWord.1 :: rest ∧
        Accepts ending (.variableName p home) rest q) ↔
      ∃ (v : Variable) (rest : List Token) (p' : Program), ts = v.tokens ++ rest ∧
        v.declare table p = .ok p' ∧ Accepts ending (state p') rest q := by
  constructor
  · rintro ⟨intWord, _, rfl, hname⟩
    obtain ⟨name, _, rfl, hend⟩ := (accepts_wanted (.variableName p home) rfl).1 hname
    obtain ⟨semicolon, rest, s', rfl, hs', hrest⟩ := accepts_variableEnd.1 hend
    obtain ⟨p', hp', rfl⟩ := (hdeclare ⟨intWord, name, semicolon⟩ s').1 hs'
    exact ⟨⟨intWord, name, semicolon⟩, rest, p', rfl, hp', hrest⟩
  · rintro ⟨v, rest, p', rfl, hp', hrest⟩
    refine ⟨v.intWord, _, rfl, (accepts_wanted (.variableName p home) rfl).2 ⟨v.name, _, rfl, ?_⟩⟩
    exact accepts_variableEnd.2 ⟨v.semicolon, rest, state p', rfl,
      (hdeclare v (state p')).2 ⟨p', hp', rfl⟩, hrest⟩

/-- A variable of the class may come first. -/
theorem accepts_field (p : Program) (ts : List Token) :
    Accepts ending (.members p .variables) ts q ↔
      (∃ (v : Variable) (rest : List Token) (p' : Program), ts = v.tokens ++ rest ∧
        v.declare Program.classTable p = .ok p' ∧
          Accepts ending (.members p' .variables) rest q) ∨
      Accepts ending (.members p .methods) ts q := by
  rw [accepts_optional (.members p .methods) (.variableName p none) .intWord (by simp) (by simp)]
  · refine or_congr_left (accepts_variable fun v s' => ?_)
    simp only [declareVariable, Variable.declare, bind_eq_ok, pure_eq_ok]
    simp
  · intro t ht
    rw [step_variables, if_pos ht]
  · intro t ht
    rw [step_variables, if_neg ht]
  · intro t s' ht
    simp [step_methods, refuse, ht]

/-- A variable of a method may come first. -/
theorem accepts_local (home : MethodBody) (p : Program) (ts : List Token) :
    Accepts ending (.locals p home) ts q ↔
      (∃ (v : Variable) (rest : List Token) (p' : Program), ts = v.tokens ++ rest ∧
        v.declare home.table p = .ok p' ∧ Accepts ending (.locals p' home) rest q) ∨
      Accepts ending
        (.body p home.procedure (.start [{ owner := .goal, brace := home.brace }])) ts q := by
  rw [accepts_optional (.body p home.procedure (.start [{ owner := .goal, brace := home.brace }]))
    (.variableName p (some home)) .intWord (by simp) (by simp)]
  · refine or_congr_left (accepts_variable fun v s' => ?_)
    simp only [declareVariable, Variable.declare, bind_eq_ok, pure_eq_ok]
    simp
  · intro t ht
    rw [step_locals, if_pos ht]
  · intro t ht
    rw [step_locals, if_neg ht]
    rfl
  · intro t s' ht
    simp [step_body, stepBody, StmtState.step, StmtState.stepStart, ht]

/-! ### Statements -/

/-- Statements of which some have been read. -/
theorem accepts_spells {brace : Position} {procedure : DeclId} {s : StmtState}
    {before : List Token} (hs : Spells brace s before)
    (h : Accepts ending (bodyState p procedure s) ts q) :
    ∃ (statements : List Stmt) (rightBrace : Terminal .rightBrace) (read rest : List Token),
      ts = read ++ rest ∧ Stmt.allTokens statements ++ [rightBrace.1] = before ++ read ∧
        Accepts ending (.members (p.update procedure fun d =>
          { d with body := .block (Stmt.nodes statements) brace }) .methods) rest q := by
  induction ts generalizing s before with
  | nil =>
    have hclosed := accepts_nil.1 h
    cases s <;> cases hclosed
  | cons t ts ih =>
    by_cases hfinished : ∃ node, s = .finished node
    · obtain ⟨node, rfl⟩ := hfinished
      cases hs with
      | finished statements rightBrace =>
        exact ⟨statements, rightBrace, [], t :: ts, rfl, (List.append_nil _).symm, h⟩
    · have hbody : bodyState p procedure s = .body p procedure s := by
        cases s with
        | finished node => exact absurd ⟨node, rfl⟩ hfinished
        | _ => rfl
      rw [hbody, accepts_cons] at h
      obtain ⟨s', hs', hts⟩ := h
      rw [step_body, stepBody] at hs'
      split at hs'
      · rename_i next hnext
        obtain rfl := Except.ok.inj hs'
        obtain ⟨statements, rightBrace, read, rest, rfl, htokens, hrest⟩ := ih (hs.step hnext) hts
        refine ⟨statements, rightBrace, t :: read, rest, rfl, ?_, hrest⟩
        rw [htokens, List.append_assoc, List.singleton_append]
      · cases hs'
      · cases hs'

theorem accepts_statements {brace : Position} {procedure : DeclId} :
    Accepts ending (.body p procedure (.start [{ owner := .goal, brace }])) ts q ↔
      ∃ (statements : List Stmt) (rightBrace : Terminal .rightBrace) (rest : List Token),
        ts = Stmt.allTokens statements ++ rightBrace.1 :: rest ∧
          Accepts ending (.members (p.update procedure fun d =>
            { d with body := .block (Stmt.nodes statements) brace }) .methods) rest q := by
  constructor
  · intro h
    have hstart : Spells brace (.start [{ owner := .goal, brace }]) [] := .start (.goal [])
    obtain ⟨statements, rightBrace, read, rest, rfl, hread, hrest⟩ := accepts_spells hstart h
    refine ⟨statements, rightBrace, rest, ?_, hrest⟩
    rw [List.append_cons, hread, List.nil_append]
  · rintro ⟨statements, rightBrace, rest, rfl, hrest⟩
    have hreads := Stmt.reads_close (Stmt.reads.statements statements) rightBrace .goal brace []
    rw [List.append_cons]
    refine (reads_bodyState hreads).accepts ?_
    simpa [StmtState.closeBlock, bodyState] using hrest

/-! ### Methods -/

/-- The head of a method with one more parameter. -/
def withParam (head : MethodHead) (x : Param) : MethodHead :=
  { head with params := (x.name.1.content, x.name.1.position) :: head.params }

theorem foldl_withParam (head : MethodHead) (xs : List Param) :
    xs.foldl withParam head =
      { head with
        params :=
          (xs.map fun x => (x.name.1.content, x.name.1.position)).reverse ++ head.params } := by
  induction xs generalizing head with
  | nil => rfl
  | cons x xs ih =>
    rw [List.foldl_cons, ih]
    simp [withParam]

theorem Method.head_eq (m : Method) : m.head = m.paramList.foldl withParam
    { type := resultOf m.type.1, name := m.name.1.content, place := m.name.1.position } := by
  rw [foldl_withParam, List.append_nil]
  rfl

theorem Method.declare_eq_ok {m : Method} : m.declare p = .ok q ↔ ∃ p₁ procedure table p₂,
    declareMethod p m.head = .ok (p₁, procedure, table) ∧
      m.locals.foldlM (Variable.declare table) p₁ = .ok p₂ ∧
        p₂.update procedure (fun d => { d with body := m.body }) = q := by
  simp only [Method.declare, bind_eq_ok, pure_eq_ok]
  constructor
  · rintro ⟨⟨p₁, procedure, table⟩, hhead, p₂, hlocals, rfl⟩
    exact ⟨p₁, procedure, table, p₂, hhead, hlocals, rfl⟩
  · rintro ⟨p₁, procedure, table, p₂, hhead, hlocals, rfl⟩
    exact ⟨(p₁, procedure, table), hhead, p₂, hlocals, rfl⟩

/-- The parenthesis behind the parameters, and what is accepted behind it. -/
def AcceptsHead (ending : Position) (p : Program) (head : MethodHead) (ts : List Token)
    (q : Program) : Prop :=
  ∃ (rightParen : Terminal .rightParen) (rest : List Token) (s' : ClassState),
    ts = rightParen.1 :: rest ∧ stepParamsEnd p head = .ok s' ∧ Accepts ending s' rest q

/-- More parameters, each behind a comma. -/
theorem accepts_paramEnd {head : MethodHead} :
    Accepts ending (.paramEnd p head) ts q ↔
      ∃ (others : List (Terminal .comma × Param)) (rest : List Token),
        ts = (others.flatMap fun x => x.1.1 :: x.2.tokens) ++ rest ∧
          AcceptsHead ending p ((others.map Prod.snd).foldl withParam head) rest q := by
  have hstep (head : MethodHead) : ∀ t s', (ClassState.paramEnd p head).step ending t = .ok s' ↔
      t.kind = .comma ∧ .nextParam p head = s' ∨
        t.kind = .rightParen ∧ stepParamsEnd p head = .ok s' := by
    intro t s'
    rw [step_paramEnd]
    repeat' split
    all_goals simp [refuse, *]
  have hnext (head : MethodHead) (ts : List Token) : Accepts ending (.paramEnd p head) ts q ↔
      (∃ (x : Terminal .comma × Param) (rest : List Token) (head' : MethodHead),
        ts = (x.1.1 :: x.2.tokens) ++ rest ∧
          (.ok (withParam head x.2) : Except CompileError MethodHead) = .ok head' ∧
            Accepts ending (.paramEnd p head') rest q) ∨ AcceptsHead ending p head ts q := by
    rw [accepts_either (by simp) (hstep head)]
    refine or_congr_left ?_
    constructor
    · rintro ⟨comma, _, rfl, hint⟩
      obtain ⟨intWord, _, rfl, hname⟩ := (accepts_wanted (.nextParam p head) rfl).1 hint
      obtain ⟨name, rest, rfl, hrest⟩ := (accepts_wanted (.paramName p head) rfl).1 hname
      exact ⟨(comma, ⟨intWord, name⟩), rest, _, rfl, rfl, hrest⟩
    · rintro ⟨⟨comma, x⟩, rest, head', rfl, hhead, hrest⟩
      obtain rfl := Except.ok.inj hhead
      refine ⟨comma, _, rfl, (accepts_wanted (.nextParam p head) rfl).2 ⟨x.intWord, _, rfl, ?_⟩⟩
      exact (accepts_wanted (.paramName p head) rfl).2 ⟨x.name, rest, rfl, hrest⟩
  have hfold (others : List (Terminal .comma × Param)) : others.foldlM (fun head x =>
      (.ok (withParam head x.2) : Except CompileError MethodHead)) head =
        .ok ((others.map Prod.snd).foldl withParam head) := by
    rw [List.foldl_map]
    exact List.foldlM_pure
  rw [accepts_repeated (fun _ => by simp) hnext]
  simp [hfold]

/-- The parameters and the parenthesis behind them. -/
theorem accepts_params {head : MethodHead} :
    Accepts ending (.firstParam p head) ts q ↔
      ∃ (params : Option (Param × List (Terminal .comma × Param))) (rest : List Token),
        ts = Method.paramTokens params ++ rest ∧
          AcceptsHead ending p ((Param.listOf params).foldl withParam head) rest q := by
  have hstep : ∀ t s', (ClassState.firstParam p head).step ending t = .ok s' ↔
      t.kind = .intWord ∧ .paramName p head = s' ∨
        t.kind = .rightParen ∧ stepParamsEnd p head = .ok s' := by
    intro t s'
    rw [step_firstParam]
    repeat' split
    all_goals simp [refuse, *]
  rw [accepts_either (by simp) hstep]
  constructor
  · rintro (⟨intWord, _, rfl, hname⟩ | hend)
    · obtain ⟨name, _, rfl, hothers⟩ := (accepts_wanted (.paramName p head) rfl).1 hname
      obtain ⟨others, rest, rfl, hrest⟩ := accepts_paramEnd.1 hothers
      exact ⟨some (⟨intWord, name⟩, others), rest, rfl, hrest⟩
    · exact ⟨none, ts, rfl, hend⟩
  · rintro ⟨_ | ⟨first, others⟩, rest, rfl, hrest⟩
    · exact Or.inr hrest
    · refine Or.inl ⟨first.intWord, _, rfl, ?_⟩
      refine (accepts_wanted (.paramName p head) rfl).2 ⟨first.name, _, rfl, ?_⟩
      exact accepts_paramEnd.2 ⟨others, rest, rfl, hrest⟩

/-- The block of a method. -/
theorem accepts_methodBrace {procedure : DeclId} {table : TableId} :
    Accepts ending (.methodBrace p procedure table) ts q ↔
      ∃ (leftBrace : Terminal .leftBrace) (locals : List Variable) (statements : List Stmt)
        (rightBrace : Terminal .rightBrace) (rest : List Token) (p' : Program),
        ts = leftBrace.1 :: (locals.flatMap Variable.tokens ++
          (Stmt.allTokens statements ++ rightBrace.1 :: rest)) ∧
        locals.foldlM (Variable.declare table) p = .ok p' ∧
        Accepts ending (.members (p'.update procedure fun d =>
          { d with body := .block (Stmt.nodes statements) leftBrace.1.position }) .methods)
          rest q := by
  rw [accepts_wanted (.methodBrace p procedure table) rfl]
  constructor
  · rintro ⟨leftBrace, _, rfl, hlocals⟩
    rw [accepts_repeated (fun _ => by simp [Variable.tokens]) (accepts_local _)] at hlocals
    obtain ⟨locals, _, p', rfl, hp', hbody⟩ := hlocals
    obtain ⟨statements, rightBrace, rest, rfl, hrest⟩ := accepts_statements.1 hbody
    exact ⟨leftBrace, locals, statements, rightBrace, rest, p', rfl, hp', hrest⟩
  · rintro ⟨leftBrace, locals, statements, rightBrace, rest, p', rfl, hp', hrest⟩
    refine ⟨leftBrace, _, rfl, ?_⟩
    rw [accepts_repeated (fun _ => by simp [Variable.tokens]) (accepts_local _)]
    exact ⟨locals, _, p', rfl, hp', accepts_statements.2 ⟨statements, rightBrace, rest, rfl, hrest⟩⟩

/-- The type of a method. -/
theorem accepts_methodType :
    Accepts ending (.methodType p) ts q ↔
      ∃ (type : OneOf [.voidWord, .intWord]) (rest : List Token), ts = type.1 :: rest ∧
        Accepts ending (.methodName p (resultOf type.1)) rest q := by
  have hstep : ∀ t s', (ClassState.methodType p).step ending t = .ok s' ↔
      t.kind ∈ [.voidWord, .intWord] ∧
        (.ok (.methodName p (resultOf t)) : Except CompileError ClassState) = .ok s' := by
    intro t s'
    rw [step_methodType]
    repeat' split
    all_goals simp [refuse, resultOf, *]
  rw [accepts_token (by simp) hstep]
  simp

/-- A method may come first, or the class end. -/
theorem accepts_method (p : Program) (ts : List Token) :
    Accepts ending (.members p .methods) ts q ↔
      (∃ (m : Method) (rest : List Token) (p' : Program), ts = m.tokens ++ rest ∧
        m.declare p = .ok p' ∧ Accepts ending (.members p' .methods) rest q) ∨
      ∃ rightBrace : Terminal .rightBrace, ts = [rightBrace.1] ∧ p = q := by
  have hstep : ∀ t s', (ClassState.members p .methods).step ending t = .ok s' ↔
      t.kind = .publicWord ∧ .methodType p = s' ∨
        t.kind = .rightBrace ∧ (.ok (.closed p) : Except CompileError ClassState) = .ok s' := by
    intro t s'
    rw [step_methods]
    repeat' split
    all_goals simp [refuse, *]
  rw [accepts_either (by simp) hstep]
  refine or_congr ⟨?_, ?_⟩ ⟨?_, ?_⟩
  -- the tokens of a method one behind the other, and back
  · rintro ⟨publicWord, _, rfl, htype⟩
    obtain ⟨type, _, rfl, hname⟩ := accepts_methodType.1 htype
    obtain ⟨name, _, rfl, hparen⟩ := (accepts_wanted (.methodName p _) rfl).1 hname
    obtain ⟨leftParen, _, rfl, hparams⟩ := (accepts_wanted (.methodParen p _) rfl).1 hparen
    obtain ⟨params, _, rfl, rightParen, _, s', rfl, hs', hbrace⟩ := accepts_params.1 hparams
    obtain ⟨⟨p₁, procedure, table⟩, hhead, hs'⟩ := bind_eq_ok.1 hs'
    obtain rfl := pure_eq_ok.1 hs'
    obtain ⟨leftBrace, locals, statements, rightBrace, rest, p₂, rfl, hlocals, hrest⟩ :=
      accepts_methodBrace.1 hbrace
    let m : Method := ⟨publicWord, type, name, leftParen, params, rightParen, leftBrace, locals,
      statements, rightBrace⟩
    refine ⟨m, rest, _, ?_, m.declare_eq_ok.2 ⟨p₁, procedure, table, p₂, ?_, hlocals, rfl⟩, hrest⟩
    · simp [m, Method.tokens]
    · rw [m.head_eq]
      exact hhead
  · rintro ⟨m, rest, p', rfl, hp', hrest⟩
    obtain ⟨p₁, procedure, table, p₂, hhead, hlocals, rfl⟩ := m.declare_eq_ok.1 hp'
    rw [m.head_eq] at hhead
    refine ⟨m.publicWord, _, rfl, accepts_methodType.2 ⟨m.type, _, rfl, ?_⟩⟩
    refine (accepts_wanted (.methodName p _) rfl).2 ⟨m.name, _, rfl, ?_⟩
    refine (accepts_wanted (.methodParen p _) rfl).2 ⟨m.leftParen, _, rfl, ?_⟩
    refine accepts_params.2 ⟨m.params, _, List.append_assoc _ _ _, m.rightParen, _,
      .methodBrace p₁ procedure table, rfl, ?_, ?_⟩
    · exact bind_eq_ok.2 ⟨_, hhead, rfl⟩
    · refine accepts_methodBrace.2 ⟨m.leftBrace, m.locals, m.statements, m.rightBrace, rest, p₂, ?_,
        hlocals, hrest⟩
      simp
  -- the brace that ends the class
  · rintro ⟨rightBrace, rest, s', rfl, hs', hrest⟩
    obtain rfl := Except.ok.inj hs'
    obtain ⟨rfl, rfl⟩ := accepts_closed.1 hrest
    exact ⟨rightBrace, rfl, rfl⟩
  · rintro ⟨rightBrace, rfl, rfl⟩
    exact ⟨rightBrace, [], .closed p, rfl, rfl, accepts_closed.2 ⟨rfl, rfl⟩⟩

/-! ### Classes -/

/-- The tokens of a class that can be declared are accepted, and no others. -/
theorem accepts_class :
    Accepts ending .classWord ts q ↔ ∃ c : Class, c.tokens = ts ∧ c.declare = .ok q := by
  rw [accepts_wanted .classWord rfl]
  constructor
  · rintro ⟨classWord, _, rfl, hname⟩
    obtain ⟨name, _, rfl, hbrace⟩ := (accepts_wanted .className rfl).1 hname
    obtain ⟨leftBrace, _, rfl, hmembers⟩ := (accepts_wanted (.classBrace _) rfl).1 hbrace
    rw [accepts_repeated (fun _ => by simp [Constant.tokens]) accepts_constant] at hmembers
    obtain ⟨constants, _, p₁, rfl, hconstants, hfields⟩ := hmembers
    rw [accepts_repeated (fun _ => by simp [Variable.tokens]) accepts_field] at hfields
    obtain ⟨fields, _, p₂, rfl, hvariables, hmethods⟩ := hfields
    rw [accepts_repeated (fun _ => by simp [Method.tokens]) accepts_method] at hmethods
    obtain ⟨methods, _, p₃, rfl, hdeclare, rightBrace, rfl, rfl⟩ := hmethods
    refine ⟨⟨classWord, name, leftBrace, constants, fields, methods, rightBrace⟩, rfl, ?_⟩
    exact bind_eq_ok.2 ⟨p₁, hconstants, bind_eq_ok.2 ⟨p₂, hvariables, hdeclare⟩⟩
  · rintro ⟨c, rfl, hdeclare⟩
    obtain ⟨p₁, hconstants, hdeclare⟩ := bind_eq_ok.1 hdeclare
    obtain ⟨p₂, hfields, hmethods⟩ := bind_eq_ok.1 hdeclare
    refine ⟨c.classWord, _, rfl, (accepts_wanted .className rfl).2 ⟨c.name, _, rfl, ?_⟩⟩
    refine (accepts_wanted (.classBrace _) rfl).2 ⟨c.leftBrace, _, rfl, ?_⟩
    rw [accepts_repeated (fun _ => by simp [Constant.tokens]) accepts_constant]
    refine ⟨c.constants, _, p₁, rfl, hconstants, ?_⟩
    rw [accepts_repeated (fun _ => by simp [Variable.tokens]) accepts_field]
    refine ⟨c.fields, _, p₂, rfl, hfields, ?_⟩
    rw [accepts_repeated (fun _ => by simp [Method.tokens]) accepts_method]
    exact ⟨c.methods, _, q, rfl, hmethods, c.rightBrace, rfl, rfl⟩

end Grammar

namespace Program

open Grammar

/-- **The parser accepts exactly the grammar.**  Tokens make up a program if and only if they are
those of a class in which every initializer has a value and no two declarations of a table have the
same entry.  The program is then that of the class, and no other class has these tokens. -/
theorem ofTokens_eq_ok_iff_derived (tokens : List Token) :
    (∀ p, ofTokens tokens = .ok p ↔ ∃ c : Grammar.Class, c.tokens = tokens ∧
      (∀ k ∈ c.constants, ∃ v, k.value.node.constantValue = .ok v) ∧
        (c.declarations.map Declaration.entry).Nodup ∧ p = c.program) ∧
      ∀ c c' : Grammar.Class, c.tokens = tokens → c'.tokens = tokens → c = c' := by
  constructor
  · intro p
    have haccepts : ofTokens tokens = .ok p ↔
        Parser.ClassState.Accepts (Parser.endOfTokens tokens) .classWord tokens p := Iff.rfl
    rw [haccepts, accepts_class]
    simp only [Class.declare_eq_ok, Constant.Evaluates]
  · intro c c' hc hc'
    exact Class.eq_of_tokens (hc.trans hc'.symm)

end Program

end Classwright
