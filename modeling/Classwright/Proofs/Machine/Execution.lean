import Classwright.Machine.Basic
import Classwright.Proofs.Semantics.Evaluator

/-!
# Runs

A run is a row of steps (`RunContext.Leads`) that may end in a failure or in the return of the
first call.  `RunContext.Follows` says that a run does what an evaluation says: it ends where the
evaluation ends, and it goes on for as many steps as there is fuel where the evaluation does not
end.
-/

namespace Classwright

namespace RunContext

variable {c : RunContext} {s t u : RunState} {m n : Nat}

/-- What the next operation leads to. -/
def Steps (c : RunContext) (s : RunState) (t : Transition) : Prop :=
  ∃ op, s.frame.method.operations[s.frame.next]? = some op ∧ s.step c.methods c.maxDepth op = t

/-- A run of a given number of steps. -/
inductive Leads (c : RunContext) : Nat → RunState → RunState → Prop
  | refl (s : RunState) : Leads c 0 s s
  | step {n : Nat} {s t u : RunState} (h : c.Steps s (.next t)) (hr : Leads c n t u) :
      Leads c (n + 1) s u

theorem Leads.single (h : c.Steps s (.next t)) : c.Leads 1 s t :=
  .step h (.refl t)

theorem Leads.trans (h : c.Leads m s t) (h' : c.Leads n t u) : c.Leads (m + n) s u := by
  induction h with
  | refl s => rwa [Nat.zero_add]
  | @step k s t u hs _ ih =>
    rw [Nat.add_right_comm]
    exact .step hs (ih h')

/-- How many steps are allowed and whether they are traced makes no difference to them. -/
theorem Leads.with (h : c.Leads n s t) (maxSteps : Nat) (tracing : Bool) :
    ({ c with maxSteps, tracing } : RunContext).Leads n s t := by
  induction h with
  | refl s => exact .refl s
  | step hs _ ih => exact .step hs ih

/-! ### Running -/

/-- A run goes through the states that the steps lead to. -/
theorem run_of_leads (h : c.Leads n s t) (fuel steps : Nat) (trace : List String) :
    ∃ trace', c.run (n + fuel) steps trace s = c.run fuel (steps + n) trace' t := by
  induction h generalizing steps trace with
  | refl s => exact ⟨trace, by rw [Nat.zero_add, Nat.add_zero]⟩
  | @step n s t u hs _ ih =>
    obtain ⟨op, hop, hstep⟩ := hs
    obtain ⟨trace', htrace⟩ := ih (steps + 1) (if c.tracing then s.traceLine :: trace else trace)
    refine ⟨trace', ?_⟩
    rw [Nat.add_right_comm, run, hop]
    simp only [hstep]
    rw [htrace, Nat.add_assoc, Nat.add_comm 1]

/-- A run with too little fuel hits the limit. -/
theorem run_of_lt (h : c.Leads n s t) {fuel : Nat} (hfuel : fuel < n) (steps : Nat)
    (trace : List String) :
    (c.run fuel steps trace s).result = .error (.stepLimit c.maxSteps) := by
  induction h generalizing fuel steps trace with
  | refl s => omega
  | @step n s t u hs _ ih =>
    obtain ⟨op, hop, hstep⟩ := hs
    cases fuel with
    | zero => rw [run, hop]
    | succ fuel =>
      rw [run, hop]
      simp only [hstep]
      exact ih (by omega) _ _

theorem run_zero {t : Transition} (h : c.Steps s t) (steps : Nat) (trace : List String) :
    (c.run 0 steps trace s).result = .error (.stepLimit c.maxSteps) := by
  obtain ⟨op, hop, -⟩ := h
  rw [run, hop]

theorem run_of_fails {e : MachineError} {statics : Array Int32} (h : c.Steps s (.fail e statics))
    (fuel steps : Nat) (trace : List String) :
    (c.run (fuel + 1) steps trace s).result = .error e ∧
      (c.run (fuel + 1) steps trace s).statics = statics := by
  obtain ⟨op, hop, hstep⟩ := h
  rw [run, hop]
  simp [hstep]

theorem run_of_halts {v : Int32} {statics : Array Int32} (h : c.Steps s (.halt v statics))
    (fuel steps : Nat) (trace : List String) :
    (c.run (fuel + 1) steps trace s).result = .ok v ∧
      (c.run (fuel + 1) steps trace s).statics = statics := by
  obtain ⟨op, hop, hstep⟩ := h
  rw [run, hop]
  simp [hstep]

/-- A run hits the limit or comes to the last of its states with fuel left. -/
theorem run_reaches (hn : c.Leads n s t) {last : Transition} (ht : c.Steps t last)
    (fuel steps : Nat) (trace : List String) :
    (c.run fuel steps trace s).result = .error (.stepLimit c.maxSteps) ∨
      ∃ left steps' trace', c.run fuel steps trace s = c.run (left + 1) steps' trace' t := by
  rcases Nat.lt_trichotomy fuel n with hlt | rfl | hlt
  · exact Or.inl (run_of_lt hn hlt steps trace)
  · obtain ⟨trace', hrun⟩ := run_of_leads hn 0 steps trace
    rw [Nat.add_zero] at hrun
    rw [hrun]
    exact Or.inl (run_zero ht _ _)
  · obtain ⟨left, rfl⟩ : ∃ left, fuel = n + (left + 1) := ⟨fuel - n - 1, by omega⟩
    obtain ⟨trace', hrun⟩ := run_of_leads hn (left + 1) steps trace
    exact Or.inr ⟨left, _, trace', hrun⟩

/-! ### Fields -/

end RunContext

/-- The values of the fields behind an operation. -/
def Transition.statics : Transition → Array Int32
  | .next s => s.statics
  | .halt _ statics => statics
  | .fail _ statics => statics

namespace RunState

variable {s : RunState}

theorem statics_pushing (stack : OperandStack) (v : Int32) :
    (s.pushing stack v).statics = s.statics := by
  unfold pushing
  split <;> rfl

theorem size_popping {stack : OperandStack} {f : Int32 → OperandStack → Transition}
    (h : ∀ v rest, (f v rest).statics.size = s.statics.size) :
    (s.popping stack f).statics.size = s.statics.size := by
  unfold popping
  split
  · rfl
  · exact h _ _

theorem statics_goingTo (stack : OperandStack) (target : Except MachineError Nat) :
    (s.goingTo stack target).statics = s.statics := by
  unfold goingTo
  split <;> rfl

theorem statics_returning (v : Int32) : (s.returning v).statics = s.statics := by
  unfold returning
  split
  · rfl
  · simp only
    split
    · split <;> rfl
    · rfl

theorem statics_calling (maxDepth : Nat) (callee : Method) (name : Text) :
    (s.calling maxDepth callee name).statics = s.statics := by
  unfold calling
  split
  · rfl
  · simp only
    split
    · rfl
    · split <;> rfl

/-- Operations neither add nor remove fields. -/
theorem size_step (methods : Array Method) (maxDepth : Nat) (op : Operation) :
    (s.step methods maxDepth op).statics.size = s.statics.size := by
  cases op with
  | push v => rw [step, statics_pushing]
  | load slot =>
    simp only [step]
    split
    · rw [statics_pushing]
    · rfl
  | store slot =>
    refine size_popping fun v rest => ?_
    split <;> rfl
  | pop => exact size_popping fun v rest => rfl
  | arithmetic op =>
    refine size_popping fun x rest => size_popping fun y rest => ?_
    split
    · rw [statics_pushing]
    · rfl
  | branch test target =>
    refine size_popping fun x rest => size_popping fun y rest => ?_
    split
    · rw [statics_goingTo]
    · rfl
  | jump target => rw [step, statics_goingTo]
  | returnValue => exact size_popping fun v rest => by rw [statics_returning]
  | returnNothing => rw [step, statics_returning]
  | getField field =>
    simp only [step]
    split <;> rw [statics_pushing]
  | putField field => exact size_popping fun v rest => Array.size_setIfInBounds
  | callSuper => exact size_popping fun v rest => rfl
  | call n name =>
    simp only [step]
    split
    · rw [statics_calling]
    · rfl
  | fail e => rfl

end RunState

namespace RunContext

variable {c : RunContext} {s t u : RunState} {m n : Nat}

/-- Runs neither add nor remove fields. -/
theorem size_run (c : RunContext) (fuel steps : Nat) (trace : List String) (s : RunState) :
    (c.run fuel steps trace s).statics.size = s.statics.size := by
  induction fuel generalizing steps trace s with
  | zero =>
    rw [run]
    split <;> rfl
  | succ fuel ih =>
    rw [run]
    split
    · rfl
    · rename_i op hop
      have hsize := s.size_step c.methods c.maxDepth op
      simp only
      split
      · rename_i t ht
        rw [ih]
        rwa [ht] at hsize
      · rename_i v statics ht
        rwa [ht] at hsize
      · rename_i e statics ht
        rwa [ht] at hsize

/-! ### Following an evaluation -/

/-- A run from `s` does what an evaluation with the outcome `r` says.  Where the evaluation is done,
it comes to a state of which `post` holds; where it fails, a number is divided by zero; and where
it is unfinished, the run takes at least `fuel` steps.  If calls may not be `bound` deep, it may
instead come to a call that is too deep. -/
def Follows {α : Type} (c : RunContext) (statics : FieldValues → Array Int32) (bound fuel : Nat)
    (s : RunState) (r : EvalOutcome α) (post : α → FieldValues → RunState → Prop) : Prop :=
  (c.maxDepth < bound ∧ ∃ n t depth values, c.Leads n s t ∧
    c.Steps t (.fail (.callDepth depth) values)) ∨
  match r with
  | .unfinished => ∃ n t, fuel ≤ n ∧ c.Leads n s t
  | .failed fields => ∃ n t, c.Leads n s t ∧ c.Steps t (.fail .divisionByZero (statics fields))
  | .done value fields => ∃ n t, c.Leads n s t ∧ post value fields t

section Follows

variable {α β : Type} {statics : FieldValues → Array Int32} {bound fuel : Nat} {r : EvalOutcome α}
  {post : α → FieldValues → RunState → Prop}

theorem Follows.done {value : α} {fields : FieldValues} (h : post value fields s) :
    c.Follows statics bound fuel s (.done value fields) post :=
  Or.inr ⟨0, s, .refl s, h⟩

theorem Follows.failed {fields : FieldValues}
    (h : c.Steps s (.fail .divisionByZero (statics fields))) :
    c.Follows statics bound fuel s (.failed fields) post :=
  Or.inr ⟨0, s, .refl s, h⟩

theorem Follows.unfinished (s : RunState) : c.Follows statics bound 0 s .unfinished post :=
  Or.inr ⟨0, s, Nat.le_refl 0, .refl s⟩

theorem Follows.tooDeep {depth : Nat} {values : Array Int32} (hbound : c.maxDepth < bound)
    (h : c.Steps s (.fail (.callDepth depth) values)) : c.Follows statics bound fuel s r post :=
  Or.inl ⟨hbound, 0, s, depth, values, .refl s, h⟩

/-- Steps in front of a run that follows an evaluation count as fuel. -/
theorem Follows.behind (h : c.Follows statics bound fuel t r post) (hn : c.Leads n s t) :
    c.Follows statics bound (n + fuel) s r post := by
  rcases h with ⟨hbound, m, u, depth, values, hm, hfail⟩ | h
  · exact Or.inl ⟨hbound, n + m, u, depth, values, hn.trans hm, hfail⟩
  · refine Or.inr ?_
    cases r with
    | unfinished =>
      obtain ⟨m, u, hfuel, hm⟩ := h
      exact ⟨n + m, u, by omega, hn.trans hm⟩
    | failed fields =>
      obtain ⟨m, u, hm, hfail⟩ := h
      exact ⟨n + m, u, hn.trans hm, hfail⟩
    | done value fields =>
      obtain ⟨m, u, hm, hpost⟩ := h
      exact ⟨n + m, u, hn.trans hm, hpost⟩

theorem Follows.mono (h : c.Follows statics bound fuel s r post) {less : Nat}
    (hless : less ≤ fuel) :
    c.Follows statics bound less s r post := by
  refine h.imp id fun h => ?_
  cases r with
  | unfinished =>
    obtain ⟨m, u, hfuel, hm⟩ := h
    exact ⟨m, u, Nat.le_trans hless hfuel, hm⟩
  | failed fields => exact h
  | done value fields => exact h

/-- A step in front of a run that follows an evaluation. -/
theorem Follows.step (h : c.Steps s (.next t)) (hr : c.Follows statics bound fuel t r post) :
    c.Follows statics bound fuel s r post :=
  (hr.behind (.single h)).mono (by omega)

/-- What an evaluation is followed by is followed by what it leads to. -/
theorem Follows.andThen {f : α → FieldValues → EvalOutcome β}
    {post' : β → FieldValues → RunState → Prop}
    (h : c.Follows statics bound fuel s r post)
    (hf : ∀ value fields t, post value fields t →
      c.Follows statics bound fuel t (f value fields) post') :
    c.Follows statics bound fuel s (r.andThen f) post' := by
  rcases h with hdeep | h
  · exact Or.inl hdeep
  · cases r with
    | unfinished => exact Or.inr h
    | failed fields => exact Or.inr h
    | done value fields =>
      obtain ⟨n, t, hn, hpost⟩ := h
      exact ((hf value fields t hpost).behind hn).mono (by omega)

/-- The steps behind an evaluation. -/
theorem Follows.extend {post' : α → FieldValues → RunState → Prop}
    (h : c.Follows statics bound fuel s r post)
    (hpost : ∀ value fields t, post value fields t →
      c.Follows statics bound fuel t (.done value fields) post') :
    c.Follows statics bound fuel s r post' := by
  have hdone := h.andThen hpost
  rwa [EvalOutcome.andThen_done] at hdone

/-- A run of at most `n` steps comes to a value and to the state that `next` gives for it; if there
is no value, it divides a number by zero. -/
def Yields (c : RunContext) (n : Nat) (values : Array Int32) (s : RunState) (r : Option Int32)
    (next : Int32 → RunState) : Prop :=
  ∃ k t, k ≤ n ∧ c.Leads k s t ∧
    match r with
    | some value => t = next value
    | none => c.Steps t (.fail .divisionByZero values)

theorem Yields.andThen {n' : Nat} {values : Array Int32} {r : Option Int32}
    {f : Int32 → Option Int32} {next next' : Int32 → RunState} (h : c.Yields n values s r next)
    (hf : ∀ value, c.Yields n' values (next value) (f value) next') :
    c.Yields (n + n') values s (r.bind f) next' := by
  obtain ⟨k, t, hk, hleads, ht⟩ := h
  cases r with
  | none => exact ⟨k, t, Nat.le_add_right_of_le hk, hleads, ht⟩
  | some value =>
    obtain rfl : t = next value := ht
    obtain ⟨k', t', hk', hleads', ht'⟩ := hf value
    exact ⟨k + k', t', Nat.add_le_add hk hk', hleads.trans hleads', ht'⟩

/-- What yields a value follows the evaluation to that value. -/
theorem Yields.follows {post : Int32 → FieldValues → RunState → Prop} {r : Option Int32}
    {next : Int32 → RunState} {fields : FieldValues} (h : c.Yields n (statics fields) s r next)
    (hpost : ∀ value, post value fields (next value)) :
    c.Follows statics bound fuel s
      (match r with
        | some value => .done value fields
        | none => .failed fields) post := by
  obtain ⟨k, t, -, hleads, ht⟩ := h
  cases r with
  | none => exact ((Follows.failed ht).behind hleads).mono (Nat.le_add_left fuel k)
  | some value =>
    obtain rfl : t = next value := ht
    exact ((Follows.done (hpost value)).behind hleads).mono (Nat.le_add_left fuel k)

/-- A run agrees with an outcome. -/
def Agrees (statics : FieldValues → Array Int32) (result : RunResult) : EvalOutcome Int32 → Prop
  | .unfinished => False
  | .failed fields => result.result = .error .divisionByZero ∧ result.statics = statics fields
  | .done value fields => result.result = .ok value ∧ result.statics = statics fields

/-- What a whole run comes to: a limit, or what the evaluation says. -/
theorem run_of_follows {r : EvalOutcome Int32}
    (h : c.Follows statics bound (fuel + 1) s r
      (fun value fields t => c.Steps t (.halt value (statics fields))))
    (steps : Nat) (trace : List String) :
    (c.run fuel steps trace s).result = .error (.stepLimit c.maxSteps) ∨
      (∃ depth, (c.run fuel steps trace s).result = .error (.callDepth depth)) ∨
      Agrees statics (c.run fuel steps trace s) r := by
  rcases h with ⟨-, n, t, depth, values, hn, hfail⟩ | h
  · refine (run_reaches hn hfail fuel steps trace).imp id ?_
    rintro ⟨left, steps', trace', hrun⟩
    rw [hrun]
    exact Or.inl ⟨depth, (run_of_fails hfail left steps' trace').1⟩
  · cases r with
    | unfinished =>
      obtain ⟨n, t, hfuel, hn⟩ := h
      exact Or.inl (run_of_lt hn (by omega) steps trace)
    | failed fields =>
      obtain ⟨n, t, hn, hfail⟩ := h
      refine (run_reaches hn hfail fuel steps trace).imp id ?_
      rintro ⟨left, steps', trace', hrun⟩
      rw [hrun]
      exact Or.inr (run_of_fails hfail left steps' trace')
    | done value fields =>
      obtain ⟨n, t, hn, hhalt⟩ := h
      refine (run_reaches hn hhalt fuel steps trace).imp id ?_
      rintro ⟨left, steps', trace', hrun⟩
      rw [hrun]
      exact Or.inr (run_of_halts hhalt left steps' trace')

/-- A run with enough fuel and room for its calls agrees with an evaluation that ends. -/
theorem exists_run_of_follows {r : EvalOutcome Int32} (hr : r ≠ .unfinished)
    (hbound : bound ≤ c.maxDepth)
    (h : c.Follows statics bound fuel s r
      (fun value fields t => c.Steps t (.halt value (statics fields)))) :
    ∃ n, ∀ maxSteps tracing more steps trace, Agrees statics
      (({ c with maxSteps, tracing } : RunContext).run (n + more) steps trace s) r := by
  rcases h with ⟨hdeep, -⟩ | h
  · omega
  · cases r with
    | unfinished => exact absurd rfl hr
    | failed fields =>
      obtain ⟨n, t, hn, hfail⟩ := h
      refine ⟨n + 1, fun maxSteps tracing more steps trace => ?_⟩
      obtain ⟨trace', hrun⟩ := run_of_leads (hn.with maxSteps tracing) (more + 1) steps trace
      rw [Nat.add_assoc, Nat.add_comm 1 more, hrun]
      exact run_of_fails (c := { c with maxSteps, tracing }) hfail more _ _
    | done value fields =>
      obtain ⟨n, t, hn, hhalt⟩ := h
      refine ⟨n + 1, fun maxSteps tracing more steps trace => ?_⟩
      obtain ⟨trace', hrun⟩ := run_of_leads (hn.with maxSteps tracing) (more + 1) steps trace
      rw [Nat.add_assoc, Nat.add_comm 1 more, hrun]
      exact run_of_halts (c := { c with maxSteps, tracing }) hhalt more _ _

end Follows

end RunContext

end Classwright
