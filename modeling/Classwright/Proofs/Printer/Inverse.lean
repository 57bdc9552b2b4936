import Classwright.Proofs.Check.Checked
import Classwright.Proofs.Positions.Compilation
import Classwright.Proofs.Printer.Members
import Classwright.Proofs.Printer.Reading
import Mathlib

/-!
# Printing and parsing are inverse

The lexemes of a built program lead the parser through the declarations that have built it, so it
builds the program again, up to positions (`Program.Built.reads`).  Hence the text of a program that
was parsed is parsed into an equal program, which is linked, checked and compiled in the same way
(`Program.print_inverse`).
-/

namespace Classwright

open TokenKind (leftBrace rightBrace leftParen rightParen comma semicolon)

/-! ### The same declarations -/

namespace Program

variable {p p' q : Program}

/-- Changes that do the same up to positions. -/
theorem erase_update_congr {f f' : Declaration → Declaration} (hp : p'.erase = p.erase)
    (id : DeclId) (h : ∀ d d', Declaration.erase d' = d.erase → (f' d').erase = (f d).erase) :
    (p'.update id f').erase = (p.update id f).erase := by
  have hdecls : p'.decls.map Declaration.erase = p.decls.map Declaration.erase :=
    congrArg Program.decls hp
  have hmodify : (p'.decls.modify id f').map Declaration.erase =
      (p.decls.modify id f).map Declaration.erase := by
    apply Array.ext_getElem?
    intro j
    have hj : (p'.decls[j]?).map Declaration.erase = (p.decls[j]?).map Declaration.erase := by
      rw [← Array.getElem?_map, ← Array.getElem?_map, hdecls]
    simp only [Array.getElem?_map, Array.getElem?_modify]
    split
    · cases hd : p.decls[j]? with
      | none => simpa [hd] using hj
      | some d =>
        rw [hd, Option.map_some, Option.map_eq_some_iff] at hj
        obtain ⟨d', hd', herase⟩ := hj
        simp only [hd', Option.map_some, h d d' herase]
    · exact hj
  have hname : p'.erase.name = p.erase.name := congrArg Program.name hp
  have htables : p'.erase.tables = p.erase.tables := congrArg Program.tables hp
  simp only [erase] at hname htables
  simp only [erase, update, hmodify, hname, htables]

/-- Methods with the same head can be declared in programs that are equal up to positions. -/
theorem exists_declareMethod {head head' : Parser.MethodHead} {procedure : DeclId}
    {table : TableId} (hp : p'.erase = p.erase) (hname : head'.name = head.name)
    (htype : head'.type = head.type)
    (hparams : head'.params.reverse.map Prod.fst = head.params.reverse.map Prod.fst)
    (h : Parser.declareMethod p head = .ok (q, procedure, table)) :
    ∃ q', Parser.declareMethod p' head' = .ok (q', procedure, table) ∧ q'.erase = q.erase := by
  have hplaces : (fun param : Text × Position => (param.1, Position.unknown)) =
      (fun name => (name, Position.unknown)) ∘ Prod.fst := rfl
  have hhead : head'.erase = head.erase := by
    rw [List.map_reverse, List.map_reverse, List.reverse_inj] at hparams
    simp only [Parser.MethodHead.erase, hname, htype, hplaces, ← List.map_map, hparams]
  have houtline : CompileError.outline (Prod.map erase id) (Parser.declareMethod p' head') =
      CompileError.outline (Prod.map erase id) (Parser.declareMethod p head) := by
    rw [← Parser.declareMethod_erase, ← Parser.declareMethod_erase, hp, hhead]
  obtain ⟨⟨q', ids⟩, hq', heq⟩ := CompileError.exists_of_outline houtline h
  simp only [Prod.map_apply, Prod.mk.injEq, id] at heq
  obtain ⟨herase, rfl⟩ := heq
  exact ⟨q', hq', herase⟩

end Program

/-! ### Reading declarations -/

namespace Parser

open ExprState (HasRead)

namespace ClassState

variable {ending : Position}

variable {p p' q : Program}

/-- The line of a constant declares it. -/
theorem reads_constant {name : Text} {value : Int32} {position : Position} {id : DeclId}
    (hp : p'.erase = p.erase)
    (h : p.declare Program.classTable { kind := .constant, name, value, position } = .ok (q, id))
    {tokens : List Token} (htokens : tokens.map Token.lexeme =
      Declaration.fieldLexemes { kind := .constant, name, value, position }) :
    ∃ q', q'.erase = q.erase ∧
      Reads ending (.members p' .constants) tokens (.members q' .constants) := by
  obtain ⟨t₁, rest, rfl, h₁, hrest⟩ := exists_cons_of_lexemes htokens
  obtain ⟨t₂, rest, rfl, h₂, hrest⟩ := exists_cons_of_lexemes hrest
  obtain ⟨t₃, rest, rfl, h₃, hrest⟩ := exists_cons_of_lexemes hrest
  obtain ⟨t₄, rest, rfl, h₄, hrest⟩ := exists_cons_of_lexemes hrest
  obtain ⟨ts, t₅, rfl, hts, h₅⟩ := exists_concat_of_lexemes hrest
  obtain ⟨hkind, rfl⟩ := Token.identifier_of_lexeme h₃
  obtain ⟨pending, tree, s, ⟨-, hvalue⟩, hread, hreads⟩ := reads_value value ts hts []
  have hd : Declaration.erase
        { kind := .constant, name := t₃.content, value, position := t₃.position } =
      Declaration.erase { kind := .constant, name := t₃.content, value, position } := rfl
  obtain ⟨q', hq', herase⟩ := Program.exists_declare hp hd h
  have hend := Token.kind_of_lexeme h₅
  have hdeclare : (ClassState.constantValue p' t₃.content t₃.position s).step ending t₅ =
      .ok (.members q' .constants) := by
    simp only [step, stepConstant, hread.step_done (Or.inl hend), hend, if_true, declareConstant,
      hvalue, ok_bind, hq']
    rfl
  have hfinal : (ClassState.members p' .constants).step ending t₁ = .ok (.constantInt p') := by
    simp only [step, Token.kind_of_lexeme h₁]
  have hint : (ClassState.constantInt p').step ending t₂ = .ok (.constantName p') := by
    simp only [step, Token.kind_of_lexeme h₂]
  have hname : (ClassState.constantName p').step ending t₃ =
      .ok (.constantAssign p' t₃.content t₃.position) := by
    simp only [step, hkind]
  have hassign : (ClassState.constantAssign p' t₃.content t₃.position).step ending t₄ =
      .ok (.constantValue p' t₃.content t₃.position .start) := by
    simp only [step, Token.kind_of_lexeme h₄, Operator.token]
  exact ⟨q', herase, .cons hfinal (.cons hint (.cons hname (.cons hassign
    ((reads_initializer hreads).append (.single hdeclare)))))⟩

/-- The line of a variable declares it, in the class or in a procedure. -/
theorem reads_variable {home : Option MethodBody} {table : TableId} {s : ClassState} {name : Text}
    {position : Position} {id : DeclId} (hp : p'.erase = p.erase)
    (htable : table = (home.map MethodBody.table).getD Program.classTable)
    (hs : ∀ t : Token, t.kind = .intWord → s.step ending t = .ok (.variableName p' home))
    (h : p.declare table { kind := .var, name, position } = .ok (q, id))
    {tokens : List Token} (htokens : tokens.map Token.lexeme = variableLexemes name) :
    ∃ q', q'.erase = q.erase ∧ Reads ending s tokens
      (match home with | none => .members q' .variables | some home => .locals q' home) := by
  obtain ⟨t₁, rest, rfl, h₁, hrest⟩ := exists_cons_of_lexemes htokens
  obtain ⟨t₂, rest, rfl, h₂, hrest⟩ := exists_cons_of_lexemes hrest
  obtain ⟨t₃, rest, rfl, h₃, hrest⟩ := exists_cons_of_lexemes hrest
  obtain rfl := List.map_eq_nil_iff.1 hrest
  obtain ⟨hkind, rfl⟩ := Token.identifier_of_lexeme h₂
  have hd : Declaration.erase { kind := .var, name := t₂.content, position := t₂.position } =
      Declaration.erase { kind := .var, name := t₂.content, position } := rfl
  obtain ⟨q', hq', herase⟩ := Program.exists_declare hp hd h
  have hname : (ClassState.variableName p' home).step ending t₂ =
      .ok (.variableEnd p' home t₂.content t₂.position) := by
    simp only [step, hkind]
  refine ⟨q', herase, .cons (hs t₁ (Token.kind_of_lexeme h₁)) (.cons hname (.single ?_))⟩
  subst htable
  simp only [step, Token.kind_of_lexeme h₃]
  cases home with
  | none => exact congrArg (· >>= fun x => pure (ClassState.members x.1 .variables)) hq'
  | some home => exact congrArg (· >>= fun x => pure (ClassState.locals x.1 home)) hq'

/-- The parameters of a method up to the parenthesis that closes them. -/
theorem reads_params {names : List Text} (hnames : names ≠ []) {tokens : List Token}
    (htokens : tokens.map Token.lexeme = paramLexemes names ++ [rightParen.lexeme])
    (p : Program) (head : MethodHead) {s : ClassState}
    (hs : ∀ t : Token, t.kind = .intWord → s.step ending t = .ok (.paramName p head)) :
    ∃ params : List (Text × Position), params.map Prod.fst = names ∧
      ∀ s', stepParamsEnd p { head with params := params.reverse ++ head.params } = .ok s' →
        Reads ending s tokens s' := by
  induction names generalizing tokens head s with
  | nil => exact absurd rfl hnames
  | cons name others ih =>
    cases others with
    | nil =>
      -- `int`, the name and the closing parenthesis
      obtain ⟨t₁, rest, rfl, h₁, hrest⟩ := exists_cons_of_lexemes htokens
      obtain ⟨t₂, rest, rfl, h₂, hrest⟩ := exists_cons_of_lexemes hrest
      obtain ⟨t₃, rest, rfl, h₃, hrest⟩ := exists_cons_of_lexemes hrest
      obtain rfl := List.map_eq_nil_iff.1 hrest
      obtain ⟨hkind, rfl⟩ := Token.identifier_of_lexeme h₂
      have hname : (ClassState.paramName p head).step ending t₂ =
          .ok (.paramEnd p { head with params := (t₂.content, t₂.position) :: head.params }) := by
        simp only [step, hkind]
      refine ⟨[(t₂.content, t₂.position)], rfl, fun s' hs' => ?_⟩
      refine .cons (hs t₁ (Token.kind_of_lexeme h₁)) (.cons hname (.single ?_))
      simp only [step, Token.kind_of_lexeme h₃]
      exact hs'
    | cons name' others =>
      obtain ⟨t₁, rest, rfl, h₁, hrest⟩ := exists_cons_of_lexemes htokens
      obtain ⟨t₂, rest, rfl, h₂, hrest⟩ := exists_cons_of_lexemes hrest
      obtain ⟨t₃, rest, rfl, h₃, hmore⟩ := exists_cons_of_lexemes hrest
      obtain ⟨hkind, rfl⟩ := Token.identifier_of_lexeme h₂
      have hname : (ClassState.paramName p head).step ending t₂ =
          .ok (.paramEnd p { head with params := (t₂.content, t₂.position) :: head.params }) := by
        simp only [step, hkind]
      -- a comma, and the next parameter
      have hcomma : (ClassState.paramEnd p
          { head with params := (t₂.content, t₂.position) :: head.params }).step ending t₃ =
          .ok (.nextParam p { head with params := (t₂.content, t₂.position) :: head.params }) := by
        simp only [step, Token.kind_of_lexeme h₃]
      have hnext (t : Token) (ht : t.kind = .intWord) : (ClassState.nextParam p
          { head with params := (t₂.content, t₂.position) :: head.params }).step ending t =
          .ok (.paramName p { head with params := (t₂.content, t₂.position) :: head.params }) := by
        simp only [step, ht]
      obtain ⟨params, hparams, hreads⟩ := ih (by simp) hmore _ hnext
      refine ⟨(t₂.content, t₂.position) :: params, by rw [List.map_cons, hparams], fun s' hs' => ?_⟩
      refine .cons (hs t₁ (Token.kind_of_lexeme h₁)) (.cons hname (.cons hcomma (hreads s' ?_)))
      -- the parameters are put aside in reverse order
      rw [List.reverse_cons, List.append_assoc] at hs'
      exact hs'

/-- The parameters of a method, if there are any, and the parenthesis that closes them. -/
theorem reads_firstParam {names : List Text} {tokens : List Token}
    (htokens : tokens.map Token.lexeme = paramLexemes names ++ [rightParen.lexeme])
    (p : Program) (head : MethodHead) :
    ∃ params : List (Text × Position), params.map Prod.fst = names ∧
      ∀ s', stepParamsEnd p { head with params := params.reverse ++ head.params } = .ok s' →
        Reads ending (.firstParam p head) tokens s' := by
  cases names with
  | nil =>
    obtain ⟨t, rest, rfl, ht, hrest⟩ := exists_cons_of_lexemes htokens
    obtain rfl := List.map_eq_nil_iff.1 hrest
    refine ⟨[], rfl, fun s' hs' => .single ?_⟩
    simp only [step, Token.kind_of_lexeme ht]
    exact hs'
  | cons name others =>
    refine reads_params (by simp) htokens p head fun t ht => ?_
    simp only [step, ht]

/-- The head of a method declares it. -/
theorem reads_head {group : MemberGroup} {head : MethodHead} {procedure : DeclId} {table : TableId}
    {d : Declaration} (hp : p'.erase = p.erase)
    (h : declareMethod p head = .ok (q, procedure, table)) (hname : d.name = head.name)
    (htype : d.type = head.type) (hparams : q.paramNames d = head.params.reverse.map Prod.fst)
    {tokens : List Token} (htokens : tokens.map Token.lexeme = q.headLexemes d) :
    ∃ q' brace, q'.erase = q.erase ∧
      Reads ending (.members p' group) tokens (.locals q' ⟨procedure, table, brace⟩) := by
  rw [Program.headLexemes, hparams, hname, htype] at htokens
  obtain ⟨t₁, rest, rfl, h₁, hrest⟩ := exists_cons_of_lexemes htokens
  obtain ⟨t₂, rest, rfl, h₂, hrest⟩ := exists_cons_of_lexemes hrest
  obtain ⟨t₃, rest, rfl, h₃, hrest⟩ := exists_cons_of_lexemes hrest
  obtain ⟨t₄, rest, rfl, h₄, hrest⟩ := exists_cons_of_lexemes hrest
  rw [← List.singleton_append, ← List.append_assoc] at hrest
  obtain ⟨ts, t₅, rfl, hts, h₅⟩ := exists_concat_of_lexemes hrest
  obtain ⟨hkind, hcontent⟩ := Token.identifier_of_lexeme h₃
  -- one step for each token in front of the parameters
  have hpublic : (ClassState.members p' group).step ending t₁ = .ok (.methodType p') := by
    cases group <;> simp only [step, Token.kind_of_lexeme h₁]
  have hresult : (ClassState.methodType p').step ending t₂ = .ok (.methodName p' head.type) := by
    have hword := Token.kind_of_lexeme h₂
    cases hres : head.type <;> rw [hres] at hword <;> simp only [step, hword, ValueType.token]
  have hmethod : (ClassState.methodName p' head.type).step ending t₃ =
      .ok (.methodParen p' ⟨head.type, head.name, t₃.position, []⟩) := by
    simp only [step, hkind, hcontent]
  have hparen : (ClassState.methodParen p' ⟨head.type, head.name, t₃.position, []⟩).step ending t₄ =
      .ok (.firstParam p' ⟨head.type, head.name, t₃.position, []⟩) := by
    simp only [step, Token.kind_of_lexeme h₄]
  obtain ⟨params, hnames, hreads⟩ :=
    reads_firstParam hts p' ⟨head.type, head.name, t₃.position, []⟩
  -- the parser keeps the parameters in reverse
  have hreverse : (params.reverse ++ []).reverse.map Prod.fst =
      head.params.reverse.map Prod.fst := by
    rw [List.append_nil, List.reverse_reverse, hnames]
  obtain ⟨q', hq', herase⟩ := @Program.exists_declareMethod p p' q head
    ⟨head.type, head.name, t₃.position, params.reverse ++ []⟩ _ _ hp rfl rfl hreverse h
  -- behind them the method is declared as before
  have hend := hreads (.methodBrace q' procedure table) (by rw [stepParamsEnd, hq']; rfl)
  have hbrace : (ClassState.methodBrace q' procedure table).step ending t₅ =
      .ok (.locals q' ⟨procedure, table, t₅.position⟩) := by
    simp only [step, Token.kind_of_lexeme h₅]
  exact ⟨q', t₅.position, herase, .cons hpublic (.cons hresult (.cons hmethod (.cons hparen
    (hend.append (.single hbrace)))))⟩

/-- The statements of a method give it its body. -/
theorem reads_body {home : MethodBody} {body : Node} (hp : p'.erase = p.erase)
    (hbody : body.IsBlock) {tokens : List Token}
    (htokens : tokens.map Token.lexeme = body.blockLexemes ++ [rightBrace.lexeme]) :
    ∃ q', q'.erase = (p.update home.procedure fun d => { d with body }).erase ∧
      Reads ending (.locals p' home) tokens (.members q' .methods) := by
  cases hbody with
  | @intro statements place hstatements =>
    obtain ⟨ts, t, rfl, hts, ht⟩ := exists_concat_of_lexemes htokens
    obtain ⟨values, hvalues, hreads⟩ := reads_block
      (fun s hs => readsStatement_of_isStatement (hstatements s hs)) hts ht .goal home.brace []
    refine ⟨p'.update home.procedure fun d => { d with body := .block values home.brace }, ?_, ?_⟩
    · refine Program.erase_update_congr hp home.procedure fun d d' hd => ?_
      have herase : (Node.block values home.brace).erase = (Node.block statements place).erase := by
        rw [Node.erase, Node.erase, hvalues]
      have hsame : ({ d' with body := Node.block values home.brace } : Declaration).erase =
          { d'.erase with body := (Node.block statements place).erase } := by
        rw [← herase]
        rfl
      rw [hsame, hd]
      rfl
    · -- a statement does not start with the keyword of a variable
      cases hcons : ts ++ [t] with
      | nil => simp at hcons
      | cons u rest =>
        rw [hcons] at hreads
        cases hreads with
        | cons _ hu hrest =>
          have hkind : u.kind ≠ .intWord := by
            intro hk
            simp [StmtState.step, StmtState.stepStart, hk] at hu
          have hall := @reads_bodyState ending p' home.procedure _ _ _ hrest
          rw [StmtState.closeBlock, List.reverse_reverse] at hall
          refine .cons ?_ hall
          rw [step_locals, if_neg hkind, stepBody, hu]

end ClassState

end Parser

/-! ### Reading programs -/

namespace Program

open Classwright.Parser (ClassState)

/-- The lexemes in front of the members of a class. -/
def openingLexemes (name : Text) : List Lexeme :=
  [TokenKind.classWord.lexeme, .identifier name, leftBrace.lexeme]

namespace Stage

/-- The state of the parser in which a program is built up to a stage. -/
def state (p : Program) (brace : Position) : Stage → ClassState
  | .members group => .members p group
  | .method procedure table => .locals p ⟨procedure, table, brace⟩

/-- The lexemes of what is built up to a stage. -/
def Spelled (p : Program) (ls : List Lexeme) : Stage → Prop
  | .members _ => ls = p.memberLexemes
  | .method procedure _ => ∃ older d, p.procedures = older ++ [procedure] ∧
      p.decl? procedure = some d ∧ ls = p.openLexemes older d

/-- These lexemes lead the parser to the stage. -/
def Reads (p : Program) (ls : List Lexeme) (stage : Stage) : Prop :=
  ∀ ending tokens, tokens.map Token.lexeme = openingLexemes p.name ++ ls →
    ∃ p' brace, p'.erase = p.erase ∧
      ClassState.Reads ending .classWord tokens (stage.state p' brace)

/-- More lexemes lead it on. -/
theorem Reads.append {p q : Program} {ls more : List Lexeme} {stage next : Stage}
    (h : stage.Reads p ls) (hname : q.name = p.name)
    (hmore : ∀ ending p' brace tokens, p'.erase = p.erase → tokens.map Token.lexeme = more →
      ∃ q' brace', q'.erase = q.erase ∧
        ClassState.Reads ending (stage.state p' brace) tokens (next.state q' brace')) :
    next.Reads q (ls ++ more) := by
  intro ending tokens htokens
  rw [hname, ← List.append_assoc] at htokens
  obtain ⟨ts, rest, rfl, hts, hrest⟩ := exists_append_of_lexemes htokens
  obtain ⟨p', brace, hp, hreads⟩ := h ending ts hts
  obtain ⟨q', brace', hq, hreads'⟩ := hmore ending p' brace rest hp hrest
  exact ⟨q', brace', hq, hreads.append hreads'⟩

end Stage

/-- The lexemes of what has been built lead the parser to where it is built again. -/
theorem Built.reads {p : Program} {stage : Stage} (h : Built stage p) :
    ∃ ls, stage.Spelled p ls ∧ stage.Reads p ls := by
  induction h with
  | @start name place _ =>
    refine ⟨[], ?_, fun ending tokens htokens => ?_⟩
    · simp [Stage.Spelled, memberLexemes, members, procedures, membersOf_empty]
    · obtain ⟨t₁, rest, rfl, h₁, hrest⟩ := exists_cons_of_lexemes htokens
      obtain ⟨t₂, rest, rfl, h₂, hrest⟩ := exists_cons_of_lexemes hrest
      obtain ⟨t₃, rest, rfl, h₃, hrest⟩ := exists_cons_of_lexemes hrest
      obtain rfl := List.map_eq_nil_iff.1 hrest
      obtain ⟨hkind, hcontent⟩ := Token.identifier_of_lexeme h₂
      -- `class`, the name and the brace
      have hclass : ClassState.classWord.step ending t₁ = .ok .className := by
        simp only [ClassState.step, Token.kind_of_lexeme h₁]
      have hname : ClassState.className.step ending t₂ =
          .ok (.classBrace (.empty name t₂.position)) := by
        simp only [ClassState.step, hkind, hcontent]
        rfl
      have hbrace : (ClassState.classBrace (.empty name t₂.position)).step ending t₃ =
          .ok (.members (.empty name t₂.position) .constants) := by
        simp only [ClassState.step, Token.kind_of_lexeme h₃]
      exact ⟨.empty name t₂.position, .unknown, rfl, .cons hclass (.cons hname (.single hbrace))⟩
  | @constant p q name value position id hp _ hq ih =>
    obtain ⟨ls, rfl, hreads⟩ := ih
    refine ⟨_, (memberLexemes_declare hp.wellFormed.1 (by simp) (hp.latest (by simp)) hq).symm,
      hreads.append (name_declare hq) fun ending p' brace tokens hp' htokens => ?_⟩
    -- the constant is declared in the program that was read so far
    obtain ⟨q', hq', hreads'⟩ := ClassState.reads_constant hp' hq htokens
    exact ⟨q', brace, hq', hreads'⟩
  | @field p q group name position id hp hg _ hq ih =>
    obtain ⟨ls, rfl, hreads⟩ := ih
    refine ⟨_, (memberLexemes_declare hp.wellFormed.1 (by simp) (hp.latest hg) hq).symm,
      hreads.append (name_declare hq) fun ending p' brace tokens hp' htokens => ?_⟩
    -- variables come behind constants and may begin their group
    have hint (t : Token) (ht : t.kind = .intWord) :
        (ClassState.members p' group).step ending t = .ok (.variableName p' none) := by
      cases group with
      | methods => exact absurd rfl hg
      | _ => simp only [ClassState.step, ht]
    obtain ⟨q', hq', hreads'⟩ := ClassState.reads_variable hp' rfl hint hq htokens
    exact ⟨q', brace, hq', hreads'⟩
  | @head p q group head procedure table hp hhead hq ih =>
    obtain ⟨ls, rfl, hreads⟩ := ih
    have hwf := hp.wellFormed.1
    have hwf' := (Built.head hp hhead hq).wellFormed.1
    obtain ⟨d, params, hadds, hname, htype, -⟩ := addsProcedure_declareMethod hwf.tidy hq
    refine ⟨_, ⟨p.procedures, d, hadds.procedures_eq hwf, hadds.decl?_procedure,
      (openLexemes_head hwf hwf' hadds).symm⟩,
      hreads.append hadds.name_eq fun ending p' brace tokens hp' htokens => ?_⟩
    obtain ⟨q', brace', hq', hreads'⟩ := ClassState.reads_head hp' hq hname htype
      (paramNames_declareMethod hwf.tidy hq hadds.decl?_procedure) htokens
    exact ⟨q', brace', hq', hreads'⟩
  | @localVariable p q procedure table name position id hp hid hq ih =>
    obtain ⟨ls, ⟨older, d, hprocedures, hd, rfl⟩, hreads⟩ := ih
    obtain ⟨hwf, hready⟩ := hp.wellFormed
    have hwf' := (Built.localVariable hp hid hq).wellFormed.1
    obtain ⟨hlt, hne⟩ := hwf.local_table hready
    obtain ⟨d', hd', -, hlocals⟩ := hready
    obtain rfl := Option.some.inj (hd'.symm.trans hd)
    -- the variable belongs to the latest procedure, so only its lexemes grow
    obtain ⟨older', hprocedures', holder⟩ := hp.latest
    obtain rfl := List.append_cancel_right (hprocedures'.symm.trans hprocedures)
    have hext := extends_declare hlt hq
    have hsame := hwf.procedures_congr (members_declare_local hlt hne hq) hext.decl?_old
    refine ⟨_, ⟨older', d', hsame.trans hprocedures, hext.decl?_old _ _ hd,
      (openLexemes_declare hwf hwf' hprocedures holder hd hlocals rfl hq).symm⟩,
      hreads.append (name_declare hq) fun ending p' brace tokens hp' htokens => ?_⟩
    have hint (t : Token) (ht : t.kind = .intWord) :
        (ClassState.locals p' ⟨procedure, table, brace⟩).step ending t =
          .ok (.variableName p' (some ⟨procedure, table, brace⟩)) := by
      simp only [ClassState.step, ht]
    obtain ⟨q', hq', hreads'⟩ := ClassState.reads_variable hp' rfl hint hq htokens
    exact ⟨q', brace, hq', hreads'⟩
  | @body p procedure table body hp hbody ih =>
    obtain ⟨ls, ⟨older, d, hprocedures, hd, rfl⟩, hreads⟩ := ih
    refine ⟨_, (memberLexemes_body hp.wellFormed.1 hprocedures hd body).symm,
      hreads.append rfl fun ending p' brace tokens hp' htokens => ?_⟩
    obtain ⟨q', hq', hreads'⟩ :=
      @ClassState.reads_body ending p p' ⟨procedure, table, brace⟩ body hp' hbody tokens htokens
    exact ⟨q', brace, hq', hreads'⟩

/-- The text of a built program is parsed into the same program, up to positions. -/
theorem Built.exists_ofText_print {p : Program} {group : Parser.MemberGroup}
    (hp : Built (.members group) p) : ∃ q, ofText p.print = .ok q ∧ q.erase = p.erase := by
  have hlaid := laid_print hp.wellFormed.1 fun _ _ => hp.isBlock_body
  obtain ⟨tokens, hscan, htokens⟩ := hlaid.ofText
  obtain ⟨ls, rfl, hreads⟩ := hp.reads
  rw [lexemes, ← List.cons_append, ← List.cons_append, ← List.cons_append] at htokens
  obtain ⟨ts, t, rfl, hts, ht⟩ := exists_concat_of_lexemes htokens
  obtain ⟨q, brace, hq, hreads⟩ := hreads (Parser.endOfTokens (ts ++ [t])) ts hts
  have hclose : (ClassState.members q group).step (Parser.endOfTokens (ts ++ [t])) t =
      .ok (.closed q) := by
    cases group <;> simp only [ClassState.step, Token.kind_of_lexeme ht]
  have hall : ClassState.Reads (Parser.endOfTokens (ts ++ [t])) .classWord (ts ++ [t])
      (.closed q) := hreads.append (.single hclose)
  refine ⟨q, ?_, hq⟩
  rw [ofText, hscan, ok_bind, ofTokens, hall]
  rfl

/-- So is the text of a program that was parsed. -/
theorem exists_ofText_print {text : Text} {p : Program} (h : ofText text = .ok p) :
    ∃ q, ofText p.print = .ok q ∧ q.erase = p.erase := by
  obtain ⟨group, hp⟩ := built_of_ofText h
  exact hp.exists_ofText_print

end Program

namespace Build

variable {text : Text} {p raw : Program} {f : ClassFile}

/-- Compilation does not depend on positions. -/
theorem exists_result {text' : Text} {raw' : Program} (hraw : Program.ofText text = .ok raw)
    (hraw' : Program.ofText text' = .ok raw') (herase : raw'.erase = raw.erase)
    (h : (ofText text).result = .ok (p, f)) :
    ∃ p', (ofText text').result = .ok (p', f) ∧ p'.erase = p.erase := by
  have halike := ofText_alike hraw hraw' herase
  rw [h] at halike
  generalize (ofText text').result = x' at halike ⊢
  cases halike with
  | built hp => exact ⟨_, rfl, hp⟩

end Build

namespace Program

/-- **Printing and parsing are inverse**: the text of a class that was parsed is parsed into the
same class, up to positions, and so it is printed, linked and compiled in the same way. -/
theorem print_inverse {text : Text} {c : Program} (h : ofText text = .ok c) :
    ∃ c', ofText c.print = .ok c' ∧ c'.erase = c.erase ∧ c'.print = c.print ∧
      (c'.resolve.2 = none ↔ c.resolve.2 = none) ∧ c'.resolve.1.erase = c.resolve.1.erase ∧
      ∀ p f, (Build.ofText text).result = .ok (p, f) →
        ∃ p', (Build.ofText c.print).result = .ok (p', f) ∧ p'.erase = p.erase := by
  obtain ⟨c', hc', herase⟩ := exists_ofText_print h
  have hresolve : c'.resolve.map erase (Option.map CompileError.erase) =
      c.resolve.map erase (Option.map CompileError.erase) := by
    rw [← resolve_erase, ← resolve_erase, herase]
  refine ⟨c', hc', herase, ?_, ?_, congrArg Prod.fst hresolve, fun p f hbuild => ?_⟩
  · rw [← print_erase, herase, print_erase]
  · have herror : c'.resolve.2.map CompileError.erase = c.resolve.2.map CompileError.erase :=
      congrArg Prod.snd hresolve
    rw [← Option.map_eq_none_iff (f := CompileError.erase), herror, Option.map_eq_none_iff]
  · exact Build.exists_result h hc' herase hbuild

/-- A class with the least constant, nested operations and an `if` without `else`. -/
def ladderSource : Text :=
  Text.ofString ("class L \x7b final int m = 0-2147483647-1; int s; public int f(int x) \x7b " ++
    "int y; y = (x+m)*2-1; if (y < s) \x7b return f(y); \x7d return s; \x7d \x7d")

set_option maxRecDepth 20000 in
theorem ladderSource_parses : ∃ c, ofText ladderSource = .ok c := by
  have hcheck : (ofText ladderSource).isOk = true := by
    rw [ladderSource, Text.ofString_append, Text.ofString_ofList, Text.ofString_ofList]
    cbv
  exact exists_of_isOk hcheck

theorem print_inverse_ladder : ∃ c c', ofText ladderSource = .ok c ∧ ofText c.print = .ok c' ∧
    c'.erase = c.erase ∧ c'.print = c.print := by
  obtain ⟨c, hc⟩ := ladderSource_parses
  obtain ⟨c', hc', herase, hprint, -⟩ := print_inverse hc
  exact ⟨c, c', hc, hc', herase, hprint⟩

end Program

end Classwright
