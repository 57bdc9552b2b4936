import Classwright.Proofs.Parser.Grammar

/-!
# The grammar is unambiguous

The tokens of a phrase show which phrase it is and where it ends, given that what comes behind it
may follow such a phrase (`Grammar.Determined`).  Behind an expression there is no parenthesis that
opens, and no operator; behind a term or a factor there may be operators that bind less tightly
(`Grammar.Ends`).  Hence a row of tokens has at most one derivation (`Grammar.Class.eq_of_tokens`).
-/

namespace Classwright

namespace Grammar

open Classwright.Parser (operatorOf?)

/-- The tokens of `x` show that it is `x` and where it ends, if what is behind may follow. -/
def Determined {α : Type} (tokens : α → List Token) (Follow : List Token → Prop) (x : α) : Prop :=
  ∀ y r s, Follow r → Follow s → tokens x ++ r = tokens y ++ s → x = y ∧ r = s

/-- Phrases of which some repeat, up to something that does not start like one of them. -/
theorem Determined.flatMap {α : Type} {tokens : α → List Token} {F G : List Token → Prop}
    {xs : List α} (hxs : ∀ x ∈ xs, Determined tokens F x) (hlast : ∀ r, G r → F r)
    (hnext : ∀ x r, F (tokens x ++ r)) (hstart : ∀ x r, ¬ G (tokens x ++ r)) :
    Determined (List.flatMap tokens) G xs := by
  intro ys r s hr hs h
  induction xs generalizing ys with
  | nil =>
    cases ys with
    | nil => exact ⟨rfl, h⟩
    | cons y ys =>
      have hr' : r = tokens y ++ (ys.flatMap tokens ++ s) := by simpa using h
      exact absurd (hr' ▸ hr) (hstart y _)
  | cons x xs ih =>
    have hfollow (zs : List α) (q : List Token) (hq : G q) : F (zs.flatMap tokens ++ q) := by
      cases zs with
      | nil => exact hlast q hq
      | cons z zs =>
        rw [List.flatMap_cons, List.append_assoc]
        exact hnext z _
    rw [List.forall_mem_cons] at hxs
    cases ys with
    | nil =>
      have hs' : s = tokens x ++ (xs.flatMap tokens ++ r) := by simpa using h.symm
      exact absurd (hs' ▸ hs) (hstart x _)
    | cons y ys =>
      rw [List.flatMap_cons, List.flatMap_cons, List.append_assoc, List.append_assoc] at h
      obtain ⟨rfl, hrest⟩ := hxs.1 y _ _ (hfollow xs r hr) (hfollow ys s hs) h
      obtain ⟨rfl, hrs⟩ := ih hxs.2 ys hrest
      exact ⟨rfl, hrs⟩

/-- A row of phrases with a token between each two. -/
theorem Determined.row {α : Type} {P : Token → Prop} {tokens : α → List Token}
    {F G : List Token → Prop} {first : α} {rest : List ({ t : Token // P t } × α)}
    (hfirst : Determined tokens F first) (hrest : ∀ x ∈ rest, Determined tokens F x.2)
    (hlast : ∀ r, G r → F r) (hnext : ∀ t r, P t → F (t :: r))
    (hstart : ∀ t r, P t → ¬ G (t :: r)) :
    Determined (rowTokens (P := P) tokens) G (first, rest) := by
  have hmore : Determined (List.flatMap fun x : { t : Token // P t } × α => x.1.1 :: tokens x.2)
      G rest := by
    refine Determined.flatMap (F := F) ?_ hlast (fun x r => hnext _ _ x.1.2)
      fun x r => hstart _ _ x.1.2
    rintro ⟨t, x⟩ hx ⟨u, y⟩ r s hr hs h
    obtain ⟨htoken, h⟩ := List.cons.inj h
    obtain rfl : t = u := Subtype.ext htoken
    obtain ⟨hxy, h⟩ := hrest _ hx y r s hr hs h
    exact ⟨congrArg (t, ·) hxy, h⟩
  have hfollow (zs : List ({ t : Token // P t } × α)) (q : List Token) (hq : G q) :
      F ((zs.flatMap fun x => x.1.1 :: tokens x.2) ++ q) := by
    cases zs with
    | nil => exact hlast q hq
    | cons z zs => exact hnext _ _ z.1.2
  rintro ⟨first', rest'⟩ r s hr hs h
  rw [rowTokens, rowTokens, List.append_assoc, List.append_assoc] at h
  obtain ⟨rfl, hrest⟩ := hfirst first' _ _ (hfollow rest r hr) (hfollow rest' s hs) h
  obtain ⟨rfl, hrs⟩ := hmore rest' r s hr hs hrest
  exact ⟨rfl, hrs⟩

/-- A token of the kind comes next. -/
def Closes (k : TokenKind) (r : List Token) : Prop :=
  ∃ t ∈ r.head?, t.kind = k

theorem closes_cons {k : TokenKind} {t : Token} {r : List Token} :
    Closes k (t :: r) ↔ t.kind = k := by
  simp [Closes]

/-- No token of the kind comes next. -/
def NotNext (k : TokenKind) (r : List Token) : Prop :=
  ∀ t ∈ r.head?, t.kind ≠ k

theorem notNext_cons {k : TokenKind} {t : Token} {r : List Token} :
    NotNext k (t :: r) ↔ t.kind ≠ k := by
  simp [NotNext]

theorem notNext_flatMap {α : Type} {tokens : α → List Token} {k : TokenKind}
    (h : ∀ x r, NotNext k (tokens x ++ r)) (xs : List α) {r : List Token} (hr : NotNext k r) :
    NotNext k (xs.flatMap tokens ++ r) := by
  cases xs with
  | nil => exact hr
  | cons x xs =>
    rw [List.flatMap_cons, List.append_assoc]
    exact h x _

theorem Closes.notNext {k k' : TokenKind} {r : List Token} (h : Closes k r) (hk : k ≠ k') :
    NotNext k' r := by
  obtain ⟨t, ht, hkind⟩ := h
  intro u hu
  obtain rfl : t = u := by simpa [Option.mem_def.1 ht] using hu
  rwa [hkind]

/-! ### Expressions -/

/-- What may stand behind an operand whose operators bind at least as tightly as `least`. -/
def Ends (least : Nat) (r : List Token) : Prop :=
  ∀ t ∈ r.head?, t.kind ≠ .leftParen ∧ ∀ op, operatorOf? t.kind = some op → op.priority < least

theorem ends_cons {least : Nat} {t : Token} {r : List Token} :
    Ends least (t :: r) ↔
      t.kind ≠ .leftParen ∧ ∀ op, operatorOf? t.kind = some op → op.priority < least := by
  simp [Ends]

theorem Ends.mono {least least' : Nat} {r : List Token} (h : Ends least r) (hle : least ≤ least') :
    Ends least' r :=
  fun t ht => ⟨(h t ht).1, fun op hop => Nat.lt_of_lt_of_le ((h t ht).2 op hop) hle⟩

/-- An operator ends the operands of operators that bind more tightly. -/
theorem ends_operator {least : Nat} {t : Token} (ht : operatorOf? t.kind = some (operator t))
    (r : List Token) : Ends least (t :: r) ↔ (operator t).priority < least := by
  have hkind : t.kind ≠ .leftParen := by
    intro h
    rw [h] at ht
    cases ht
  simp [ends_cons, ht, hkind]

/-- The tokens that no operand goes on with. -/
theorem ends_closer {least : Nat} {t : Token}
    (ht : t.kind ∈ [TokenKind.rightParen, .comma, .semicolon]) (r : List Token) :
    Ends least (t :: r) := by
  simp only [List.mem_cons, List.not_mem_nil, or_false] at ht
  rw [ends_cons]
  rcases ht with ht | ht | ht <;> simp [ht, operatorOf?]

theorem Expr.determined_simple {s : Simple} (h : Determined Simple.tokens (Ends 2) s) :
    Determined Expr.tokens (Ends 1) (.simple s) := by
  intro y r q hr hq hrq
  cases y with
  | simple s' =>
    obtain ⟨rfl, hrest⟩ := h s' r q (hr.mono (by decide)) (hq.mono (by decide)) hrq
    exact ⟨rfl, hrest⟩
  | comparison left op right =>
    obtain ⟨hop, hpriority, -⟩ := operatorOf?_comparison op.2
    rw [Expr.tokens, Expr.tokens, List.append_assoc] at hrq
    obtain ⟨rfl, rfl⟩ := h left r _ (hr.mono (by decide))
      ((ends_operator hop _).2 (by rw [hpriority]; decide)) hrq
    have hless := (ends_operator hop _).1 hr
    omega

theorem Expr.determined_comparison {left right : Simple} {op : OneOf comparisons}
    (hl : Determined Simple.tokens (Ends 2) left) (hr : Determined Simple.tokens (Ends 2) right) :
    Determined Expr.tokens (Ends 1) (.comparison left op right) := by
  have hends (op : OneOf comparisons) (r : List Token) : Ends 2 (op.1 :: r) := by
    obtain ⟨hop, hpriority, -⟩ := operatorOf?_comparison op.2
    exact (ends_operator hop r).2 (by rw [hpriority]; decide)
  intro y r q hr' hq hrq
  cases y with
  | simple s =>
    rw [Expr.tokens, Expr.tokens, List.append_assoc] at hrq
    obtain ⟨rfl, rfl⟩ := hl s _ q (hends op _) (hq.mono (by decide)) hrq
    obtain ⟨hop, hpriority, -⟩ := operatorOf?_comparison op.2
    have hless := (ends_operator hop _).1 hq
    omega
  | comparison left' op' right' =>
    rw [Expr.tokens, Expr.tokens, List.append_assoc, List.append_assoc] at hrq
    obtain ⟨rfl, hrest⟩ := hl left' _ _ (hends op _) (hends op' _) hrq
    obtain ⟨hop, hright⟩ := List.cons.inj hrest
    obtain rfl : op = op' := Subtype.ext hop
    obtain ⟨rfl, hend⟩ := hr right' r q (hr'.mono (by decide)) (hq.mono (by decide)) hright
    exact ⟨rfl, hend⟩

theorem Simple.determined_row {first : Term} {rest : List (OneOf additives × Term)}
    (hfirst : Determined Term.tokens (Ends 3) first)
    (hrest : ∀ x ∈ rest, Determined Term.tokens (Ends 3) x.2) :
    Determined Simple.tokens (Ends 2) (.row first rest) := by
  have hends (least : Nat) (t : Token) (r : List Token) (ht : t.kind ∈ additives) :
      Ends least (t :: r) ↔ 2 < least := by
    obtain ⟨hop, hpriority, -⟩ := operatorOf?_additive ht
    rw [ends_operator hop, hpriority]
  have hrow := Determined.row hfirst hrest (G := Ends 2) (fun r hr => hr.mono (by decide))
    (fun t r ht => (hends 3 t r ht).2 (by decide))
    fun t r ht h => by simpa using (hends 2 t r ht).1 h
  rintro ⟨first', rest'⟩ r s hr hs h
  rw [Simple.tokens_row, Simple.tokens_row] at h
  obtain ⟨heq, hrs⟩ := hrow (first', rest') r s hr hs h
  obtain ⟨rfl, rfl⟩ := Prod.mk.inj heq
  exact ⟨rfl, hrs⟩

theorem Term.determined_row {first : Factor} {rest : List (OneOf multiplicatives × Factor)}
    (hfirst : Determined Factor.tokens (Ends 4) first)
    (hrest : ∀ x ∈ rest, Determined Factor.tokens (Ends 4) x.2) :
    Determined Term.tokens (Ends 3) (.row first rest) := by
  have hends (least : Nat) (t : Token) (r : List Token) (ht : t.kind ∈ multiplicatives) :
      Ends least (t :: r) ↔ 3 < least := by
    obtain ⟨hop, hpriority, -⟩ := operatorOf?_multiplicative ht
    rw [ends_operator hop, hpriority]
  have hrow := Determined.row hfirst hrest (G := Ends 3) (fun r hr => hr.mono (by decide))
    (fun t r ht => (hends 4 t r ht).2 (by decide))
    fun t r ht h => by simpa using (hends 3 t r ht).1 h
  rintro ⟨first', rest'⟩ r s hr hs h
  rw [Term.tokens_row, Term.tokens_row] at h
  obtain ⟨heq, hrs⟩ := hrow (first', rest') r s hr hs h
  obtain ⟨rfl, rfl⟩ := Prod.mk.inj heq
  exact ⟨rfl, hrs⟩

/-- The kind of the first token of a factor. -/
def Factor.start : Factor → TokenKind
  | .number _ => .number
  | .name _ | .call _ => .identifier
  | .group _ _ _ => .leftParen

theorem Factor.exists_tokens (f : Factor) :
    ∃ t rest, f.tokens = t :: rest ∧ t.kind = f.start := by
  cases f with
  | number t => exact ⟨t.1, [], rfl, t.2⟩
  | name t => exact ⟨t.1, [], rfl, t.2⟩
  | call c =>
    obtain ⟨name, leftParen, rest, hc⟩ := c.exists_tokens
    exact ⟨name.1, _, hc, name.2⟩
  | group leftParen e rightParen => exact ⟨leftParen.1, _, rfl, leftParen.2⟩

theorem Factor.start_eq {f f' : Factor} {r s : List Token} (h : f.tokens ++ r = f'.tokens ++ s) :
    f.start = f'.start := by
  obtain ⟨t, rest, ht, hkind⟩ := f.exists_tokens
  obtain ⟨t', rest', ht', hkind'⟩ := f'.exists_tokens
  rw [ht, ht'] at h
  rw [← hkind, ← hkind', (List.cons.inj h).1]

theorem Factor.determined_number (t : Terminal .number) :
    Determined Factor.tokens (Ends 4) (.number t) := by
  intro y r s _ _ h
  have hstart := Factor.start_eq h
  cases y with
  | number u =>
    obtain ⟨htoken, hrs⟩ := List.cons.inj h
    exact ⟨congrArg Factor.number (Subtype.ext htoken), hrs⟩
  | _ => cases hstart

/-- A name is not a call, since no parenthesis follows. -/
theorem not_ends_call {c : Call} {t : Token} {r s : List Token} (hr : Ends 4 r)
    (h : t :: r = c.tokens ++ s) : False := by
  obtain ⟨name, leftParen, rest, hc⟩ := c.exists_tokens
  rw [hc] at h
  obtain ⟨-, rfl⟩ := List.cons.inj h
  exact (ends_cons.1 hr).1 leftParen.2

theorem Factor.determined_name (t : Terminal .identifier) :
    Determined Factor.tokens (Ends 4) (.name t) := by
  intro y r s hr _ h
  have hstart := Factor.start_eq h
  cases y with
  | name u =>
    obtain ⟨htoken, hrs⟩ := List.cons.inj h
    exact ⟨congrArg Factor.name (Subtype.ext htoken), hrs⟩
  | call c => exact (not_ends_call hr h).elim
  | _ => cases hstart

theorem Factor.determined_call {c : Call} (hc : Determined Call.tokens (fun _ => True) c) :
    Determined Factor.tokens (Ends 4) (.call c) := by
  intro y r s _ hs h
  have hstart := Factor.start_eq h
  cases y with
  | name u => exact (not_ends_call hs h.symm).elim
  | call c' =>
    obtain ⟨rfl, hrs⟩ := hc c' r s trivial trivial h
    exact ⟨rfl, hrs⟩
  | _ => cases hstart

theorem Factor.determined_group {leftParen : Terminal .leftParen} {e : Expr}
    {rightParen : Terminal .rightParen} (he : Determined Expr.tokens (Ends 1) e) :
    Determined Factor.tokens (Ends 4) (.group leftParen e rightParen) := by
  intro y r s _ _ h
  have hstart := Factor.start_eq h
  have hends (t : Terminal .rightParen) (q : List Token) : Ends 1 (t.1 :: q) :=
    ends_closer (by simp [t.2]) q
  cases y with
  | group leftParen' e' rightParen' =>
    rw [Factor.tokens, Factor.tokens, List.cons_append, List.cons_append, List.append_assoc,
      List.append_assoc] at h
    obtain ⟨hleft, hrest⟩ := List.cons.inj h
    obtain ⟨rfl, hright⟩ := he e' _ _ (hends rightParen r) (hends rightParen' s) hrest
    obtain ⟨hright, hrs⟩ := List.cons.inj hright
    obtain rfl : leftParen = leftParen' := Subtype.ext hleft
    obtain rfl : rightParen = rightParen' := Subtype.ext hright
    exact ⟨rfl, hrs⟩
  | _ => cases hstart

/-- The arguments of a call, up to the parenthesis behind them. -/
theorem Call.determined_arguments {first : Expr} {rest : List (Terminal .comma × Expr)}
    (hfirst : Determined Expr.tokens (Ends 1) first)
    (hrest : ∀ x ∈ rest, Determined Expr.tokens (Ends 1) x.2) :
    Determined (rowTokens Expr.tokens) (Closes .rightParen) (first, rest) := by
  refine Determined.row hfirst hrest ?_ (fun t r ht => ends_closer (by simp [ht]) r) ?_
  · rintro r ⟨t, ht, hkind⟩
    cases r with
    | nil => cases ht
    | cons u r =>
      obtain rfl : u = t := by simpa using ht
      exact ends_closer (by simp [hkind]) r
  · intro t r ht h
    rw [closes_cons, ht] at h
    cases h

/-- An expression starts with a number, a name or a parenthesis that opens. -/
theorem Expr.exists_tokens (e : Expr) : ∃ t rest, e.tokens = t :: rest ∧
    t.kind ∈ [TokenKind.number, .identifier, .leftParen] := by
  have hfactor (f : Factor) : f.start ∈ [TokenKind.number, .identifier, .leftParen] := by
    cases f <;> simp [Factor.start]
  have hsimple (s : Simple) : ∃ t rest, s.tokens = t :: rest ∧
      t.kind ∈ [TokenKind.number, .identifier, .leftParen] := by
    obtain ⟨⟨f, _⟩, _⟩ := s
    obtain ⟨t, rest, ht, hkind⟩ := f.exists_tokens
    exact ⟨t, _, by rw [Simple.tokens, Term.tokens, ht, List.cons_append, List.cons_append],
      hkind ▸ hfactor f⟩
  cases e with
  | simple s => exact hsimple s
  | comparison left op right =>
    obtain ⟨t, rest, ht, hkind⟩ := hsimple left
    exact ⟨t, _, by rw [Expr.tokens, ht, List.cons_append], hkind⟩

/-- A call without arguments is not one with arguments. -/
theorem Call.ne_arguments {rightParen : Terminal .rightParen}
    {arguments : Expr × List (Terminal .comma × Expr)} {r s : List Token}
    (h : rightParen.1 :: r = rowTokens Expr.tokens arguments ++ s) : False := by
  obtain ⟨t, rest, ht, hkind⟩ := arguments.1.exists_tokens
  rw [rowTokens, ht] at h
  have hright := rightParen.2
  rw [(List.cons.inj h).1] at hright
  simp [hright] at hkind

theorem Call.determined_none (name : Terminal .identifier) (leftParen : Terminal .leftParen)
    (rightParen : Terminal .rightParen) :
    Determined Call.tokens (fun _ => True) (.intro name leftParen none rightParen) := by
  rintro ⟨name', leftParen', arguments, rightParen'⟩ r s _ _ h
  cases arguments with
  | none =>
    simp only [Call.tokens, List.cons_append, List.nil_append, List.cons.injEq] at h
    obtain ⟨hname, hleft, hright, hrs⟩ := h
    exact ⟨by rw [Subtype.ext hname, Subtype.ext hleft, Subtype.ext hright], hrs⟩
  | some arguments =>
    rw [Call.tokens_some, Call.tokens] at h
    simp only [List.cons_append, List.append_assoc, List.nil_append, List.cons.injEq] at h
    exact (Call.ne_arguments h.2.2).elim

theorem Call.determined_some {name : Terminal .identifier} {leftParen : Terminal .leftParen}
    {first : Expr} {rest : List (Terminal .comma × Expr)} {rightParen : Terminal .rightParen}
    (hfirst : Determined Expr.tokens (Ends 1) first)
    (hrest : ∀ x ∈ rest, Determined Expr.tokens (Ends 1) x.2) :
    Determined Call.tokens (fun _ => True)
      (.intro name leftParen (some (first, rest)) rightParen) := by
  rintro ⟨name', leftParen', arguments, rightParen'⟩ r s _ _ h
  cases arguments with
  | none =>
    rw [Call.tokens_some, Call.tokens] at h
    simp only [List.cons_append, List.append_assoc, List.nil_append, List.cons.injEq] at h
    exact (Call.ne_arguments h.2.2.symm).elim
  | some arguments =>
    rw [Call.tokens_some, Call.tokens_some] at h
    simp only [List.cons_append, List.append_assoc, List.nil_append, List.cons.injEq] at h
    obtain ⟨hname, hleft, hrow⟩ := h
    obtain ⟨rfl, hend⟩ := Call.determined_arguments hfirst hrest arguments _ _
      (closes_cons.2 rightParen.2) (closes_cons.2 rightParen'.2) hrow
    obtain ⟨hright, hrs⟩ := List.cons.inj hend
    exact ⟨by rw [Subtype.ext hname, Subtype.ext hleft, Subtype.ext hright], hrs⟩

/-- **Expressions are unambiguous.**  The tokens of an expression show how it is made up. -/
theorem Expr.unambiguous : Expr.Inherited (Determined Expr.tokens (Ends 1))
    (Determined Simple.tokens (Ends 2)) (Determined Term.tokens (Ends 3))
    (Determined Factor.tokens (Ends 4)) (Determined Call.tokens fun _ => True) where
  simple _ := Expr.determined_simple
  comparison _ _ _ := Expr.determined_comparison
  terms _ _ := Simple.determined_row
  factors _ _ := Term.determined_row
  number := Factor.determined_number
  name := Factor.determined_name
  call _ := Factor.determined_call
  group _ _ _ := Factor.determined_group
  noArguments := Call.determined_none
  arguments _ _ _ _ _ := Call.determined_some

/-- An expression in front of a token that ends it. -/
theorem Expr.eq_of_tokens {e e' : Expr} {t t' : Token} {r r' : List Token}
    (ht : t.kind ∈ [TokenKind.rightParen, .comma, .semicolon])
    (ht' : t'.kind ∈ [TokenKind.rightParen, .comma, .semicolon])
    (h : e.tokens ++ t :: r = e'.tokens ++ t' :: r') : e = e' ∧ t = t' ∧ r = r' := by
  obtain ⟨rfl, hrest⟩ :=
    Expr.unambiguous.expr e e' _ _ (ends_closer ht r) (ends_closer ht' r') h
  exact ⟨rfl, List.cons.inj hrest⟩

/-! ### Statements -/

theorem Stmt.start_eq {x y : Stmt} {r s : List Token} (h : x.tokens ++ r = y.tokens ++ s) :
    x.start = y.start := by
  obtain ⟨t, rest, ht, hkind⟩ := x.exists_tokens
  obtain ⟨t', rest', ht', hkind'⟩ := y.exists_tokens
  rw [ht, ht'] at h
  rw [← hkind, ← hkind', (List.cons.inj h).1]

theorem Stmt.notNext (x : Stmt) (r : List Token) :
    NotNext .elseWord (x.tokens ++ r) ∧ NotNext .intWord (x.tokens ++ r) := by
  obtain ⟨t, rest, ht, hkind⟩ := x.exists_tokens
  rw [ht, List.cons_append, notNext_cons, notNext_cons, hkind]
  cases x <;> simp [Stmt.start]

theorem Stmt.not_closes (x : Stmt) (r : List Token) : ¬ Closes .rightBrace (x.tokens ++ r) := by
  obtain ⟨t, rest, ht, hkind⟩ := x.exists_tokens
  rw [ht, List.cons_append, closes_cons, hkind]
  cases x <;> simp [Stmt.start]

theorem Condition.determined (c : Condition) :
    Determined Condition.tokens (fun _ => True) c := by
  obtain ⟨leftParen, value, rightParen⟩ := c
  rintro ⟨leftParen', value', rightParen'⟩ r s _ _ h
  simp only [Condition.tokens, List.cons_append, List.append_assoc, List.nil_append,
    List.cons.injEq] at h
  obtain ⟨hleft, hrest⟩ := h
  obtain ⟨rfl, hright, hrs⟩ :=
    Expr.eq_of_tokens (by simp [rightParen.2]) (by simp [rightParen'.2]) hrest
  exact ⟨by rw [Subtype.ext hleft, Subtype.ext hright], hrs⟩

theorem Stmt.determined_assign (name : Terminal .identifier) (sign : Terminal .assign)
    (value : Expr) (semicolon : Terminal .semicolon) :
    Determined Stmt.tokens (NotNext .elseWord) (.assign name sign value semicolon) := by
  intro y r s _ _ h
  have hstart := Stmt.start_eq h
  cases y with
  | assign name' sign' value' semicolon' =>
    simp only [Stmt.tokens, List.cons_append, List.append_assoc, List.nil_append,
      List.cons.injEq] at h
    obtain ⟨hname, hsign, hrest⟩ := h
    obtain ⟨rfl, hend, hrs⟩ :=
      Expr.eq_of_tokens (by simp [semicolon.2]) (by simp [semicolon'.2]) hrest
    exact ⟨by rw [Subtype.ext hname, Subtype.ext hsign, Subtype.ext hend], hrs⟩
  | call c semicolon' =>
    -- behind the name there is an equals sign and not a parenthesis
    obtain ⟨name', leftParen, rest, hc⟩ := c.exists_tokens
    simp only [Stmt.tokens, hc, List.cons_append, List.cons.injEq] at h
    have hsign := sign.2
    rw [h.2.1, leftParen.2] at hsign
    cases hsign
  | _ => cases hstart

theorem Stmt.determined_call (c : Call) (semicolon : Terminal .semicolon) :
    Determined Stmt.tokens (NotNext .elseWord) (.call c semicolon) := by
  intro y r s _ _ h
  have hstart := Stmt.start_eq h
  cases y with
  | assign name sign value semicolon' =>
    obtain ⟨name', leftParen, rest, hc⟩ := c.exists_tokens
    simp only [Stmt.tokens, hc, List.cons_append, List.cons.injEq] at h
    have hsign := sign.2
    rw [← h.2.1, leftParen.2] at hsign
    cases hsign
  | call c' semicolon' =>
    rw [Stmt.tokens, Stmt.tokens, List.append_assoc, List.append_assoc] at h
    obtain ⟨rfl, hrest⟩ := Expr.unambiguous.invocation c c' _ _ trivial trivial h
    obtain ⟨hend, hrs⟩ := List.cons.inj hrest
    exact ⟨by rw [Subtype.ext hend], hrs⟩
  | _ => cases hstart

/-- A `return` without a value is not one with a value. -/
theorem Stmt.ne_value {semicolon : Terminal .semicolon} {e : Expr} {r s : List Token}
    (h : semicolon.1 :: r = e.tokens ++ s) : False := by
  obtain ⟨t, rest, ht, hkind⟩ := e.exists_tokens
  rw [ht] at h
  have hend := semicolon.2
  rw [(List.cons.inj h).1] at hend
  simp [hend] at hkind

theorem Stmt.determined_exit (word : Terminal .returnWord) (value : Option Expr)
    (semicolon : Terminal .semicolon) :
    Determined Stmt.tokens (NotNext .elseWord) (.exit word value semicolon) := by
  intro y r s _ _ h
  have hstart := Stmt.start_eq h
  cases y with
  | exit word' value' semicolon' =>
    cases value <;> cases value' <;>
      simp only [Stmt.tokens, List.cons_append, List.append_assoc, List.nil_append,
        List.cons.injEq] at h
    · obtain ⟨hword, hend, hrs⟩ := h
      exact ⟨by rw [Subtype.ext hword, Subtype.ext hend], hrs⟩
    · exact (Stmt.ne_value h.2).elim
    · exact (Stmt.ne_value h.2.symm).elim
    · obtain ⟨hword, hrest⟩ := h
      obtain ⟨rfl, hend, hrs⟩ :=
        Expr.eq_of_tokens (by simp [semicolon.2]) (by simp [semicolon'.2]) hrest
      exact ⟨by rw [Subtype.ext hword, Subtype.ext hend], hrs⟩
  | _ => cases hstart

/-- An `if` without `else` is not one with `else`, since no `else` follows. -/
theorem NotNext.ne_cons {k : TokenKind} {t : Terminal k} {r s : List Token} (hr : NotNext k r) :
    r ≠ t.1 :: s := by
  rintro rfl
  exact hr t.1 rfl t.2

theorem Stmt.determined_branch {word : Terminal .ifWord} {condition : Condition} {thens : Block}
    (hthens : Determined Block.tokens (fun _ => True) thens) :
    Determined Stmt.tokens (NotNext .elseWord) (.branch word condition thens none) := by
  intro y r s hr _ h
  have hstart := Stmt.start_eq h
  cases y with
  | branch word' condition' thens' elses' =>
    cases elses' with
    | none =>
      simp only [Stmt.tokens, List.cons_append, List.append_assoc, List.cons.injEq] at h
      obtain ⟨hword, hrest⟩ := h
      obtain ⟨rfl, hthen⟩ := condition.determined condition' _ _ trivial trivial hrest
      obtain ⟨rfl, hrs⟩ := hthens thens' r s trivial trivial hthen
      exact ⟨by rw [Subtype.ext hword], hrs⟩
    | some elses =>
      simp only [Stmt.tokens, List.cons_append, List.append_assoc, List.cons.injEq] at h
      obtain ⟨-, hrest⟩ := condition.determined condition' _ _ trivial trivial h.2
      obtain ⟨-, hrs⟩ := hthens thens' r _ trivial trivial hrest
      exact absurd hrs hr.ne_cons
  | _ => cases hstart

theorem Stmt.determined_branchElse {word : Terminal .ifWord} {condition : Condition}
    {thens elses : Block} {elseWord : Terminal .elseWord}
    (hthens : Determined Block.tokens (fun _ => True) thens)
    (helses : Determined Block.tokens (fun _ => True) elses) :
    Determined Stmt.tokens (NotNext .elseWord)
      (.branch word condition thens (some (elseWord, elses))) := by
  intro y r s _ hs h
  have hstart := Stmt.start_eq h
  cases y with
  | branch word' condition' thens' elses' =>
    cases elses' with
    | none =>
      simp only [Stmt.tokens, List.cons_append, List.append_assoc, List.cons.injEq] at h
      obtain ⟨-, hrest⟩ := condition.determined condition' _ _ trivial trivial h.2
      obtain ⟨-, hrs⟩ := hthens thens' _ s trivial trivial hrest
      exact absurd hrs.symm hs.ne_cons
    | some elses' =>
      obtain ⟨elseWord', elses'⟩ := elses'
      simp only [Stmt.tokens, List.cons_append, List.append_assoc, List.cons.injEq] at h
      obtain ⟨hword, hrest⟩ := h
      obtain ⟨rfl, hthen⟩ := condition.determined condition' _ _ trivial trivial hrest
      obtain ⟨rfl, helse⟩ := hthens thens' _ _ trivial trivial hthen
      obtain ⟨hkeyword, hblock⟩ := List.cons.inj helse
      obtain ⟨rfl, hrs⟩ := helses elses' r s trivial trivial hblock
      exact ⟨by rw [Subtype.ext hword, Subtype.ext hkeyword], hrs⟩
  | _ => cases hstart

theorem Stmt.determined_loop {word : Terminal .whileWord} {condition : Condition} {body : Block}
    (hbody : Determined Block.tokens (fun _ => True) body) :
    Determined Stmt.tokens (NotNext .elseWord) (.loop word condition body) := by
  intro y r s _ _ h
  have hstart := Stmt.start_eq h
  cases y with
  | loop word' condition' body' =>
    simp only [Stmt.tokens, List.cons_append, List.append_assoc, List.cons.injEq] at h
    obtain ⟨hword, hrest⟩ := h
    obtain ⟨rfl, hblock⟩ := condition.determined condition' _ _ trivial trivial hrest
    obtain ⟨rfl, hrs⟩ := hbody body' r s trivial trivial hblock
    exact ⟨by rw [Subtype.ext hword], hrs⟩
  | _ => cases hstart

/-- Statements up to the brace behind them. -/
theorem Stmt.determined_all {statements : List Stmt}
    (h : ∀ s ∈ statements, Determined Stmt.tokens (NotNext .elseWord) s) :
    Determined Stmt.allTokens (Closes .rightBrace) statements := by
  have hall := Determined.flatMap h (fun _ hr => hr.notNext (by decide))
    (fun x r => (x.notNext r).1) Stmt.not_closes
  intro others r s hr hs hrs
  rw [Stmt.allTokens_eq, Stmt.allTokens_eq] at hrs
  exact hall others r s hr hs hrs

theorem Block.determined_intro {leftBrace : Terminal .leftBrace} {statements : List Stmt}
    {rightBrace : Terminal .rightBrace}
    (h : ∀ s ∈ statements, Determined Stmt.tokens (NotNext .elseWord) s) :
    Determined Block.tokens (fun _ => True) (.intro leftBrace statements rightBrace) := by
  rintro ⟨leftBrace', statements', rightBrace'⟩ r s _ _ hrs
  simp only [Block.tokens, List.cons_append, List.append_assoc, List.nil_append,
    List.cons.injEq] at hrs
  obtain ⟨hleft, hrest⟩ := hrs
  obtain ⟨rfl, hend⟩ := Stmt.determined_all h statements' _ _ (closes_cons.2 rightBrace.2)
    (closes_cons.2 rightBrace'.2) hrest
  obtain ⟨hright, hrs⟩ := List.cons.inj hend
  exact ⟨by rw [Subtype.ext hleft, Subtype.ext hright], hrs⟩

/-- **Statements are unambiguous.**  The tokens of a statement show how it is made up. -/
theorem Stmt.unambiguous :
    Stmt.Inherited (Determined Stmt.tokens (NotNext .elseWord))
      (Determined Block.tokens fun _ => True) where
  assign := Stmt.determined_assign
  call := Stmt.determined_call
  exit := Stmt.determined_exit
  branch _ _ _ := Stmt.determined_branch
  branchElse _ _ _ _ _ := Stmt.determined_branchElse
  loop _ _ _ := Stmt.determined_loop
  block _ _ _ := Block.determined_intro

/-! ### Classes -/

theorem Constant.determined (c : Constant) : Determined Constant.tokens (fun _ => True) c := by
  obtain ⟨finalWord, intWord, name, sign, value, semicolon⟩ := c
  rintro ⟨finalWord', intWord', name', sign', value', semicolon'⟩ r s _ _ h
  simp only [Constant.tokens, List.cons_append, List.append_assoc, List.nil_append,
    List.cons.injEq] at h
  obtain ⟨hfinal, hint, hname, hsign, hrest⟩ := h
  obtain ⟨rfl, hend, hrs⟩ :=
    Expr.eq_of_tokens (by simp [semicolon.2]) (by simp [semicolon'.2]) hrest
  exact ⟨by rw [Subtype.ext hfinal, Subtype.ext hint, Subtype.ext hname, Subtype.ext hsign,
    Subtype.ext hend], hrs⟩

theorem Variable.determined (v : Variable) : Determined Variable.tokens (fun _ => True) v := by
  obtain ⟨intWord, name, semicolon⟩ := v
  rintro ⟨intWord', name', semicolon'⟩ r s _ _ h
  simp only [Variable.tokens, List.cons_append, List.nil_append, List.cons.injEq] at h
  obtain ⟨hint, hname, hend, hrs⟩ := h
  exact ⟨by rw [Subtype.ext hint, Subtype.ext hname, Subtype.ext hend], hrs⟩

/-- Variables up to something that is not one. -/
theorem Variable.determined_all (vs : List Variable) :
    Determined (List.flatMap Variable.tokens) (NotNext .intWord) vs :=
  Determined.flatMap (fun v _ => v.determined) (fun _ _ => trivial) (fun _ _ => trivial)
    fun v _ h => h.ne_cons (t := v.intWord) rfl

theorem Param.determined (x : Param) : Determined Param.tokens (fun _ => True) x := by
  obtain ⟨intWord, name⟩ := x
  rintro ⟨intWord', name'⟩ r s _ _ h
  simp only [Param.tokens, List.cons_append, List.nil_append, List.cons.injEq] at h
  obtain ⟨hint, hname, hrs⟩ := h
  exact ⟨by rw [Subtype.ext hint, Subtype.ext hname], hrs⟩

/-- The parameters of a method, up to the parenthesis behind them. -/
theorem Method.determined_params (params : Option (Param × List (Terminal .comma × Param))) :
    Determined Method.paramTokens (Closes .rightParen) params := by
  intro params' r s hr hs h
  have hrow (row : Param × List (Terminal .comma × Param)) :
      Determined (rowTokens Param.tokens) (Closes .rightParen) row := by
    refine Determined.row row.1.determined (fun x _ => x.2.determined) (fun _ _ => trivial)
      (fun _ _ _ => trivial) fun t q ht hclose => ?_
    rw [closes_cons, ht] at hclose
    cases hclose
  have hstart (row : Param × List (Terminal .comma × Param)) (q : List Token) :
      ¬ Closes .rightParen (rowTokens Param.tokens row ++ q) := by
    obtain ⟨⟨intWord, name⟩, rest⟩ := row
    rw [rowTokens, Param.tokens, List.cons_append, List.cons_append, closes_cons, intWord.2]
    decide
  cases params with
  | none =>
    cases params' with
    | none => exact ⟨rfl, h⟩
    | some row =>
      obtain rfl : r = rowTokens Param.tokens row ++ s := h
      exact absurd hr (hstart row s)
  | some row =>
    cases params' with
    | none =>
      obtain rfl : s = rowTokens Param.tokens row ++ r := h.symm
      exact absurd hs (hstart row r)
    | some row' =>
      obtain ⟨rfl, hrs⟩ := hrow row row' r s hr hs h
      exact ⟨rfl, hrs⟩

theorem Method.determined (m : Method) : Determined Method.tokens (fun _ => True) m := by
  obtain ⟨publicWord, type, name, leftParen, params, rightParen, leftBrace, locals, statements,
    rightBrace⟩ := m
  rintro ⟨publicWord', type', name', leftParen', params', rightParen', leftBrace', locals',
    statements', rightBrace'⟩ r s _ _ h
  simp only [Method.tokens, List.cons_append, List.append_assoc, List.nil_append,
    List.cons.injEq] at h
  obtain ⟨hpublic, htype, hname, hleft, hparams⟩ := h
  obtain ⟨rfl, hrest⟩ := Method.determined_params params params' _ _ (closes_cons.2 rightParen.2)
    (closes_cons.2 rightParen'.2) hparams
  simp only [List.cons.injEq] at hrest
  obtain ⟨hright, hopen, hlocals⟩ := hrest
  have hfollow (ss : List Stmt) (t : Terminal .rightBrace) (q : List Token) :
      NotNext .intWord (Stmt.allTokens ss ++ t.1 :: q) := by
    rw [Stmt.allTokens_eq]
    exact notNext_flatMap (fun x r => (x.notNext r).2) ss (notNext_cons.2 (by simp [t.2]))
  obtain ⟨rfl, hbody⟩ := Variable.determined_all locals locals' _ _
    (hfollow statements rightBrace r) (hfollow statements' rightBrace' s) hlocals
  obtain ⟨rfl, hend⟩ := Stmt.determined_all (fun s _ => Stmt.unambiguous.stmt s) statements' _ _
    (closes_cons.2 rightBrace.2) (closes_cons.2 rightBrace'.2) hbody
  obtain ⟨hclose, hrs⟩ := List.cons.inj hend
  exact ⟨by rw [Subtype.ext hpublic, Subtype.ext htype, Subtype.ext hname, Subtype.ext hleft,
    Subtype.ext hright, Subtype.ext hopen, Subtype.ext hclose], hrs⟩

/-- **The grammar is unambiguous.**  A row of tokens has at most one derivation. -/
theorem Class.eq_of_tokens {c c' : Class} (h : c.tokens = c'.tokens) : c = c' := by
  obtain ⟨classWord, name, leftBrace, constants, fields, methods, rightBrace⟩ := c
  obtain ⟨classWord', name', leftBrace', constants', fields', methods', rightBrace'⟩ := c'
  have hmethod (k : TokenKind) (hk : k ≠ .publicWord) (m : Method) (r : List Token) :
      NotNext k (m.tokens ++ r) :=
    notNext_cons.2 (by rw [m.publicWord.2]; exact hk.symm)
  have hvariable (v : Variable) (r : List Token) : NotNext .finalWord (v.tokens ++ r) :=
    notNext_cons.2 (by rw [v.intWord.2]; decide)
  have hmethods (k : TokenKind) (hk : k ≠ .publicWord) (hk' : k ≠ .rightBrace) (ms : List Method)
      (t : Terminal .rightBrace) : NotNext k (ms.flatMap Method.tokens ++ [t.1]) :=
    notNext_flatMap (hmethod k hk) ms (notNext_cons.2 (by rw [t.2]; exact hk'.symm))
  have hfields (vs : List Variable) (ms : List Method) (t : Terminal .rightBrace) :
      NotNext .finalWord (vs.flatMap Variable.tokens ++ (ms.flatMap Method.tokens ++ [t.1])) :=
    notNext_flatMap hvariable vs (hmethods .finalWord (by decide) (by decide) ms t)
  simp only [Class.tokens, List.cons.injEq] at h
  obtain ⟨hclass, hname, hleft, hconstants⟩ := h
  have hrepeat : Determined (List.flatMap Constant.tokens) (NotNext .finalWord) constants :=
    Determined.flatMap (fun c _ => c.determined) (fun _ _ => trivial) (fun _ _ => trivial)
      fun c _ hr => hr.ne_cons (t := c.finalWord) rfl
  obtain ⟨rfl, hrest⟩ := hrepeat constants' _ _ (hfields fields methods rightBrace)
    (hfields fields' methods' rightBrace') hconstants
  obtain ⟨rfl, hlast⟩ := Variable.determined_all fields fields' _ _
    (hmethods .intWord (by decide) (by decide) methods rightBrace)
    (hmethods .intWord (by decide) (by decide) methods' rightBrace') hrest
  have hrepeat : Determined (List.flatMap Method.tokens) (NotNext .publicWord) methods :=
    Determined.flatMap (fun m _ => m.determined) (fun _ _ => trivial) (fun _ _ => trivial)
      fun m _ hr => hr.ne_cons (t := m.publicWord) rfl
  obtain ⟨rfl, hend⟩ := hrepeat methods' _ _ (notNext_cons.2 (by rw [rightBrace.2]; decide))
    (notNext_cons.2 (by rw [rightBrace'.2]; decide)) hlast
  rw [Subtype.ext hclass, Subtype.ext hname, Subtype.ext hleft,
    Subtype.ext (List.singleton_inj.1 hend)]

end Grammar

end Classwright
