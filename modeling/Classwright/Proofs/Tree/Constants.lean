import Classwright.Proofs.Except
import Classwright.Tree.Constant

/-!
# Trees of numbers and operators

A tree of numbers and of operators other than assignment has a value as a constant expression,
unless a number is divided by zero in it (`Node.IsArithmetic.kind_eq`).
-/

namespace Classwright

namespace Node

/-- A tree of numbers and of operators other than assignment. -/
inductive IsArithmetic : Node → Prop
  | literal (value : Int32) (place : Position) : IsArithmetic (.literal value place)
  | binary {op : Operator} {left right : Node} (hop : op ≠ .assign) (hl : IsArithmetic left)
      (hr : IsArithmetic right) (place : Position) : IsArithmetic (.binary op left right place)

variable {e : Node}

theorem constantValue_binary {op : Operator} (hop : op ≠ .assign) (left right : Node)
    (place : Position) :
    (binary op left right place).constantValue = (do
      let x ← left.constantValue
      let y ← right.constantValue
      match op.compute? x y with
      | some value => .ok value
      | none => .error ⟨.dividingInitializer, place⟩) :=
  constantValue.eq_3 op left right place hop

/-- Without names, only a division by zero keeps a tree from having a value. -/
theorem IsArithmetic.kind_eq (h : e.IsArithmetic) {err : CompileError}
    (herr : e.constantValue = .error err) : err.kind = .constantDivisionByZero := by
  induction h with
  | literal => simp [constantValue] at herr
  | @binary op left right hop _ _ place ihl ihr =>
    rw [constantValue_binary hop] at herr
    rcases bind_eq_error.1 herr with hleft | ⟨x, -, herr⟩
    · exact ihl hleft
    · rcases bind_eq_error.1 herr with hright | ⟨y, -, herr⟩
      · exact ihr hright
      · cases hvalue : op.compute? x y with
        | some value => simp [hvalue] at herr
        | none =>
          rw [hvalue] at herr
          obtain rfl := Except.error.inj herr
          rfl

/-- The value of a constant expression, if it has one. -/
def constant? (e : Node) : Option Int32 :=
  e.constantValue.toOption

theorem constant?_eq_some_iff {v : Int32} : e.constant? = some v ↔ e.constantValue = .ok v := by
  unfold constant?
  cases e.constantValue <;> simp [Except.toOption]

theorem constant?_eq_none_iff : e.constant? = none ↔ ∃ err, e.constantValue = .error err := by
  unfold constant?
  cases e.constantValue <;> simp [Except.toOption]

/-- The operands have to have values, the left one first. -/
theorem constant?_binary {op : Operator} (hop : op ≠ .assign) (left right : Node)
    (place : Position) :
    (binary op left right place).constant? =
      left.constant?.bind fun x => right.constant?.bind fun y => op.compute? x y := by
  simp only [constant?, constantValue_binary hop]
  cases left.constantValue with
  | error err => rfl
  | ok x =>
    cases right.constantValue with
    | error err => rfl
    | ok y =>
      simp only [ok_bind, Except.toOption, Option.bind_some]
      cases op.compute? x y <;> rfl

end Node

end Classwright
