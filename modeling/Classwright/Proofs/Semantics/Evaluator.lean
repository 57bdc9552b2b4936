import Classwright.Program.Basic
import Mathlib.Logic.Function.Basic
import Mathlib.Tactic.Common

/-!
# The meaning of programs

A big-step evaluator of resolved trees.  Operands and arguments are evaluated from left to right,
numbers wrap around at 32 bits, and the only failure is a division by zero.  Fuel bounds the calls
in progress and the rounds of each loop; an evaluation that ends does not depend on how much there
was (`Program.call_mono`).
-/

namespace Classwright

/-- The values of the static fields, by their names. -/
abbrev FieldValues := Text → Int32

/-- The values of the parameters and variables of a procedure. -/
abbrev LocalValues := DeclId → Int32

/-- The value of an operation, computed without bound and then wrapped around.  It is `none` for a
division by zero, and for an assignment, which has no value. -/
def Operator.meaning? (op : Operator) (left right : Int32) : Option Int32 :=
  match op with
  | assign => none
  | equal => some (if left.toInt = right.toInt then 1 else 0)
  | less => some (if left.toInt < right.toInt then 1 else 0)
  | lessEqual => some (if left.toInt ≤ right.toInt then 1 else 0)
  | greater => some (if left.toInt > right.toInt then 1 else 0)
  | greaterEqual => some (if left.toInt ≥ right.toInt then 1 else 0)
  | add => some (Int32.ofInt (left.toInt + right.toInt))
  | subtract => some (Int32.ofInt (left.toInt - right.toInt))
  | multiply => some (Int32.ofInt (left.toInt * right.toInt))
  | divide =>
    if right.toInt = 0 then none else some (Int32.ofInt (left.toInt.tdiv right.toInt))

/-- The 32-bit operations compute the exact values wrapped around. -/
theorem Operator.compute?_eq_meaning? (op : Operator) (left right : Int32) :
    op.compute? left right = op.meaning? left right := by
  cases op with
  | assign => rfl
  | equal => simp [compute?, meaning?, ofBool, Int32.toInt_inj]
  | less => simp [compute?, meaning?, ofBool, Int32.lt_iff_toInt_lt]
  | lessEqual => simp [compute?, meaning?, ofBool, Int32.le_iff_toInt_le]
  | greater => simp [compute?, meaning?, ofBool, Int32.lt_iff_toInt_lt]
  | greaterEqual => simp [compute?, meaning?, ofBool, Int32.le_iff_toInt_le]
  | add => simp [compute?, meaning?]
  | subtract => simp [compute?, meaning?]
  | multiply => simp [compute?, meaning?]
  | divide =>
    have hzero : right.toInt = 0 ↔ right = 0 := by
      rw [← Int32.toInt_zero, Int32.toInt_inj]
    have hquotient : Int32.ofInt (left.toInt.tdiv right.toInt) = left / right := by
      rw [Int32.ofInt_eq_iff_bmod_eq_toInt, Int32.toInt_div]
    simp only [compute?, meaning?, hzero, hquotient]

/-! ### Outcomes -/

/-- How an evaluation ends. -/
inductive EvalOutcome (α : Type) where
  /-- The fuel is used up, or the tree has no meaning. -/
  | unfinished
  /-- A number is divided by zero. -/
  | failed (fields : FieldValues)
  /-- There is a value. -/
  | done (value : α) (fields : FieldValues)

namespace EvalOutcome

variable {α β : Type}

/-- What an evaluation is followed by if it is done. -/
def andThen (r : EvalOutcome α) (f : α → FieldValues → EvalOutcome β) : EvalOutcome β :=
  match r with
  | unfinished => unfinished
  | failed fields => failed fields
  | done value fields => f value fields

theorem andThen_done (r : EvalOutcome α) : r.andThen done = r := by
  cases r <;> rfl

/-- An outcome is kept unless it is unfinished. -/
def Refines (r s : EvalOutcome α) : Prop :=
  r = unfinished ∨ r = s

theorem refines_refl (r : EvalOutcome α) : r.Refines r :=
  Or.inr rfl

theorem Refines.andThen {r s : EvalOutcome α} {f g : α → FieldValues → EvalOutcome β} (h : r.Refines s)
    (hf : ∀ value fields, (f value fields).Refines (g value fields)) :
    (r.andThen f).Refines (s.andThen g) := by
  rcases h with rfl | rfl
  · exact Or.inl rfl
  · cases r with
    | unfinished => exact Or.inl rfl
    | failed fields => exact Or.inr rfl
    | done value fields => exact hf value fields

end EvalOutcome

/-! ### Expressions -/

/-- What calls yield: the outcome for a procedure, its arguments and the fields. -/
abbrev Calls := DeclId → List Int32 → FieldValues → EvalOutcome Int32

/-- All outcomes of calls are kept unless they are unfinished. -/
def Calls.Refines (call call' : Calls) : Prop :=
  ∀ id arguments fields, (call id arguments fields).Refines (call' id arguments fields)

namespace Program

/-- The value of a name: a constant has its declared value, a variable of the class is a field, and
the others are local. -/
def read (p : Program) (locals : LocalValues) (id : DeclId) (fields : FieldValues) :
    EvalOutcome Int32 :=
  match p.decl? id with
  | none => .unfinished
  | some d =>
    if d.kind = .constant then .done d.value fields
    else if d.table = classTable then .done (fields d.name) fields
    else .done (locals id) fields

section Read

variable {p : Program} {id : DeclId} {d : Declaration} (hd : p.decl? id = some d)
  (locals : LocalValues) (fields : FieldValues)

include hd

theorem read_constant (hk : d.kind = .constant) :
    p.read locals id fields = .done d.value fields := by
  simp only [read, hd, hk, if_true]

theorem read_field (hk : d.kind ≠ .constant) (ht : d.table = classTable) :
    p.read locals id fields = .done (fields d.name) fields := by
  simp only [read, hd, hk, ht, if_true, if_false]

theorem read_local (hk : d.kind ≠ .constant) (ht : d.table ≠ classTable) :
    p.read locals id fields = .done (locals id) fields := by
  simp only [read, hd, hk, ht, if_false]

end Read

mutual

/-- Evaluates an expression. -/
def eval (p : Program) (call : Calls) (locals : LocalValues) :
    Node → FieldValues → EvalOutcome Int32
  | .literal value _, fields => .done value fields
  | .name _ (some id) _, fields => p.read locals id fields
  | .call _ arguments (some id) _, fields =>
    (evalAll p call locals arguments fields).andThen fun values fields => call id values fields
  | .binary .assign _ _ _, _ => .unfinished
  | .binary op left right _, fields =>
    (eval p call locals left fields).andThen fun x fields =>
      (eval p call locals right fields).andThen fun y fields =>
        match op.meaning? x y with
        | some value => .done value fields
        | none => .failed fields
  | _, _ => .unfinished

/-- Evaluates arguments. -/
def evalAll (p : Program) (call : Calls) (locals : LocalValues) :
    List Node → FieldValues → EvalOutcome (List Int32)
  | [], fields => .done [] fields
  | e :: rest, fields =>
    (eval p call locals e fields).andThen fun value fields =>
      (evalAll p call locals rest fields).andThen fun values fields =>
        .done (value :: values) fields

end

theorem eval_binary {p : Program} {call : Calls} {locals : LocalValues} {op : Operator}
    (hop : op ≠ .assign) (left right : Node) (place : Position) (fields : FieldValues) :
    p.eval call locals (.binary op left right place) fields =
      (p.eval call locals left fields).andThen fun x fields =>
        (p.eval call locals right fields).andThen fun y fields =>
          match op.meaning? x y with
          | some value => .done value fields
          | none => .failed fields := by
  rw [eval]
  exact fun h => hop h

/-! ### Statements -/

/-- What a statement leads to. -/
inductive Flow where
  /-- The next statement follows. -/
  | goesOn (locals : LocalValues)
  /-- The procedure returns a number, 0 if it returns nothing. -/
  | returns (value : Int32)

/-- What a statement is followed by, if anything. -/
def Flow.andThen (flow : Flow) (fields : FieldValues)
    (f : LocalValues → FieldValues → EvalOutcome Flow) : EvalOutcome Flow :=
  match flow with
  | goesOn locals => f locals fields
  | returns value => .done (returns value) fields

/-- Gives a name a value. -/
def write (p : Program) (locals : LocalValues) (id : DeclId) (value : Int32)
    (fields : FieldValues) : EvalOutcome Flow :=
  match p.decl? id with
  | none => .unfinished
  | some d =>
    if d.table = classTable then .done (.goesOn locals) (Function.update fields d.name value)
    else .done (.goesOn (Function.update locals id value)) fields

section Write

variable {p : Program} {id : DeclId} {d : Declaration} (hd : p.decl? id = some d)
  (locals : LocalValues) (value : Int32) (fields : FieldValues)

include hd

theorem write_field (ht : d.table = classTable) :
    p.write locals id value fields =
      .done (.goesOn locals) (Function.update fields d.name value) := by
  simp only [write, hd, ht, if_true]

theorem write_local (ht : d.table ≠ classTable) :
    p.write locals id value fields =
      .done (.goesOn (Function.update locals id value)) fields := by
  simp only [write, hd, ht, if_false]

end Write

/-- Runs `body` as long as `test` is not 0, at most `fuel` times. -/
def repeatWhile (test : LocalValues → FieldValues → EvalOutcome Int32)
    (body : LocalValues → FieldValues → EvalOutcome Flow) :
    (fuel : Nat) → LocalValues → FieldValues → EvalOutcome Flow
  | 0, _, _ => .unfinished
  | fuel + 1, locals, fields =>
    (test locals fields).andThen fun value fields =>
      if value = 0 then .done (.goesOn locals) fields
      else (body locals fields).andThen fun flow fields =>
        flow.andThen fields (repeatWhile test body fuel)

mutual

/-- Runs a statement; loops take at most `fuel` rounds. -/
def exec (p : Program) (call : Calls) (fuel : Nat) :
    Node → LocalValues → FieldValues → EvalOutcome Flow
  | .binary .assign (.name _ (some id) _) value _, locals, fields =>
    (p.eval call locals value fields).andThen fun value fields => p.write locals id value fields
  | .call callee arguments link place, locals, fields =>
    (p.eval call locals (.call callee arguments link place) fields).andThen fun _ fields =>
      .done (.goesOn locals) fields
  | .exit .absent _, _, fields => .done (.returns 0) fields
  | .exit value _, locals, fields =>
    (p.eval call locals value fields).andThen fun value fields => .done (.returns value) fields
  | .branch condition thenBlock elseBlock _, locals, fields =>
    (p.eval call locals condition fields).andThen fun value fields =>
      if value = 1 then exec p call fuel thenBlock locals fields
      else exec p call fuel elseBlock locals fields
  | .loop condition body _, locals, fields =>
    repeatWhile (fun locals fields => p.eval call locals condition fields)
      (exec p call fuel body) fuel locals fields
  | .block statements _, locals, fields => execAll p call fuel statements locals fields
  | _, _, _ => .unfinished

/-- Runs statements until one of them returns. -/
def execAll (p : Program) (call : Calls) (fuel : Nat) :
    List Node → LocalValues → FieldValues → EvalOutcome Flow
  | [], locals, fields => .done (.goesOn locals) fields
  | s :: rest, locals, fields =>
    (exec p call fuel s locals fields).andThen fun flow fields =>
      flow.andThen fields (execAll p call fuel rest)

end

theorem exec_exit {p : Program} {call : Calls} {fuel : Nat} {value : Node} (h : value ≠ .absent)
    (place : Position) (locals : LocalValues) (fields : FieldValues) :
    p.exec call fuel (.exit value place) locals fields =
      (p.eval call locals value fields).andThen fun value fields =>
        .done (.returns value) fields := by
  rw [exec]
  exact h

/-! ### Procedures -/

/-- The local values with which a procedure starts: its parameters have the values of the
arguments, its variables are 0. -/
def startLocals (d : Declaration) (arguments : List Int32) : LocalValues :=
  fun id => (arguments[d.params.idxOf (some id)]?).getD 0

/-- Calls a procedure.  One that runs off its end yields 0, and so does one that returns nothing. -/
def call (p : Program) : (fuel : Nat) → Calls
  | 0, _, _, _ => .unfinished
  | fuel + 1, id, arguments, fields =>
    match p.decl? id with
    | none => .unfinished
    | some d =>
      (p.exec (p.call fuel) (fuel + 1) d.body (startLocals d arguments) fields).andThen
        fun flow fields =>
          match flow with
          | .goesOn _ => .done 0 fields
          | .returns value => .done value fields

/-! ### More fuel -/

section Fuel

variable {p : Program} {call call' : Calls}

mutual

theorem eval_mono (hcall : call.Refines call') (locals : LocalValues) (e : Node)
    (fields : FieldValues) :
    (p.eval call locals e fields).Refines (p.eval call' locals e fields) := by
  match e with
  | .literal _ _ | .name _ none _ | .name _ (some _) _ | .call _ _ none _ | .absent | .exit _ _
  | .branch _ _ _ _ | .loop _ _ _ | .block _ _ => exact EvalOutcome.refines_refl _
  | .call _ arguments (some id) _ =>
    rw [eval, eval]
    exact (evalAll_mono hcall locals arguments fields).andThen (hcall id)
  | .binary op left right place =>
    by_cases hop : op = .assign
    · subst hop
      exact Or.inl rfl
    · rw [eval_binary hop, eval_binary hop]
      exact (eval_mono hcall locals left fields).andThen fun x fields =>
        (eval_mono hcall locals right fields).andThen fun y fields => EvalOutcome.refines_refl _

theorem evalAll_mono (hcall : call.Refines call') (locals : LocalValues) (es : List Node)
    (fields : FieldValues) :
    (p.evalAll call locals es fields).Refines (p.evalAll call' locals es fields) := by
  match es with
  | [] => exact EvalOutcome.refines_refl _
  | e :: rest =>
    rw [evalAll, evalAll]
    exact (eval_mono hcall locals e fields).andThen fun value fields =>
      (evalAll_mono hcall locals rest fields).andThen fun values fields => EvalOutcome.refines_refl _

end

theorem repeatWhile_mono {test test' : LocalValues → FieldValues → EvalOutcome Int32}
    {body body' : LocalValues → FieldValues → EvalOutcome Flow}
    (htest : ∀ locals fields, (test locals fields).Refines (test' locals fields))
    (hbody : ∀ locals fields, (body locals fields).Refines (body' locals fields))
    {fuel more : Nat} (h : fuel ≤ more) (locals : LocalValues) (fields : FieldValues) :
    (repeatWhile test body fuel locals fields).Refines
      (repeatWhile test' body' more locals fields) := by
  induction fuel generalizing more locals fields with
  | zero => exact Or.inl rfl
  | succ fuel ih =>
    obtain ⟨more, rfl⟩ : ∃ n, more = n + 1 := ⟨more - 1, by omega⟩
    rw [repeatWhile, repeatWhile]
    refine (htest locals fields).andThen fun value fields => ?_
    split
    · exact EvalOutcome.refines_refl _
    · refine (hbody locals fields).andThen fun flow fields => ?_
      cases flow with
      | goesOn locals => exact ih (by omega) locals fields
      | returns value => exact EvalOutcome.refines_refl _

mutual

theorem exec_mono (hcall : call.Refines call') {fuel more : Nat} (h : fuel ≤ more) (s : Node)
    (locals : LocalValues) (fields : FieldValues) :
    (p.exec call fuel s locals fields).Refines (p.exec call' more s locals fields) := by
  match s with
  | .absent | .literal _ _ | .name _ _ _ => exact Or.inl rfl
  | .call callee arguments link place =>
    rw [exec, exec]
    exact (eval_mono hcall locals _ fields).andThen fun _ fields => EvalOutcome.refines_refl _
  | .exit value place =>
    by_cases hvalue : value = .absent
    · subst hvalue
      exact EvalOutcome.refines_refl _
    · rw [exec_exit hvalue, exec_exit hvalue]
      exact (eval_mono hcall locals value fields).andThen fun _ fields => EvalOutcome.refines_refl _
  | .branch condition thenBlock elseBlock place =>
    rw [exec, exec]
    refine (eval_mono hcall locals condition fields).andThen fun value fields => ?_
    split
    · exact exec_mono hcall h thenBlock locals fields
    · exact exec_mono hcall h elseBlock locals fields
  | .loop condition body place =>
    rw [exec, exec]
    -- the fuel bounds the rounds, and the parts of each round have all of it
    exact repeatWhile_mono (fun locals fields => eval_mono hcall locals condition fields)
      (fun locals fields => exec_mono hcall h body locals fields) h locals fields
  | .block statements place =>
    rw [exec, exec]
    exact execAll_mono hcall h statements locals fields
  | .binary op left value place =>
    by_cases hassign : ∃ x id spot, op = .assign ∧ left = .name x (some id) spot
    · obtain ⟨x, id, spot, rfl, rfl⟩ := hassign
      rw [exec, exec]
      exact (eval_mono hcall locals value fields).andThen fun _ fields => EvalOutcome.refines_refl _
    -- an operator that assigns to nothing that is linked has no outcome
    · refine Or.inl ?_
      unfold exec
      split
      all_goals simp_all

theorem execAll_mono (hcall : call.Refines call') {fuel more : Nat} (h : fuel ≤ more)
    (ss : List Node) (locals : LocalValues) (fields : FieldValues) :
    (p.execAll call fuel ss locals fields).Refines (p.execAll call' more ss locals fields) := by
  match ss with
  | [] => exact EvalOutcome.refines_refl _
  | s :: rest =>
    rw [execAll, execAll]
    refine (exec_mono hcall h s locals fields).andThen fun flow fields => ?_
    cases flow with
    | goesOn locals => exact execAll_mono hcall h rest locals fields
    | returns value => exact EvalOutcome.refines_refl _

end

end Fuel

/-- An evaluation that ends ends in the same way with more fuel. -/
theorem call_mono (p : Program) {fuel more : Nat} (h : fuel ≤ more) (id : DeclId)
    (arguments : List Int32) (fields : FieldValues) :
    (p.call fuel id arguments fields).Refines (p.call more id arguments fields) := by
  induction fuel generalizing more id arguments fields with
  | zero => exact Or.inl rfl
  | succ fuel ih =>
    obtain ⟨more, rfl⟩ : ∃ n, more = n + 1 := ⟨more - 1, by omega⟩
    rw [call, call]
    split
    · exact Or.inl rfl
    · refine (exec_mono (ih (by omega)) h _ _ _).andThen fun flow fields => ?_
      cases flow <;> exact EvalOutcome.refines_refl _

/-- A call ends with a given outcome. -/
def Ends (p : Program) (id : DeclId) (arguments : List Int32) (fields : FieldValues)
    (r : EvalOutcome Int32) : Prop :=
  r ≠ .unfinished ∧ ∃ fuel, p.call fuel id arguments fields = r

/-- A call ends in one way only. -/
theorem Ends.unique {p : Program} {id : DeclId} {arguments : List Int32} {fields : FieldValues}
    {r s : EvalOutcome Int32} (hr : p.Ends id arguments fields r) (hs : p.Ends id arguments fields s) :
    r = s := by
  obtain ⟨hr, m, hm⟩ := hr
  obtain ⟨hs, n, hn⟩ := hs
  rcases Nat.le_total m n with hle | hle
  · have hmono := p.call_mono hle id arguments fields
    rw [hm, hn] at hmono
    exact hmono.resolve_left hr
  · have hmono := p.call_mono hle id arguments fields
    rw [hm, hn] at hmono
    exact (hmono.resolve_left hs).symm

end Program

end Classwright
