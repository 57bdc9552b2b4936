import Classwright.Proofs.Machine.Invariant

/-!
# Code that control does not leave

`Method.Enclosed` says that each operation of a method leads to another one of the same method,
unless it returns, calls or fails, and that no operation was linked with a structural error
(`MachineError.isStructural`).  The frames of a run stay in front of operations of such methods, so
that no request is answered by a structural error (`Machine.Enclosed.invariant`).
-/

namespace Classwright

/-! ### Errors of the structure -/

/-- Whether code is wrong by its structure: control runs past the last instruction, a branch goes to
no instruction, an instruction is none that can be run, or a pool entry does not exist or is of
another kind than its place asks for. -/
def BadCode.isStructural : BadCode → Bool
  | fallsOff _ | branch _ _ _ | unsupported _ | poolIndex _ | pool _ | wrongTag _ _ _ => true
  | _ => false

namespace MachineError

/-- Whether an error comes from the structure of a class file. -/
def isStructural : MachineError → Bool
  | badCode reason => reason.isStructural
  | classFile _ => true
  | inField _ error | inMethod _ error => error.isStructural
  | _ => false

/-- Whether an error says that a field or method does not belong to the class, or that a return is
of the wrong kind.  Instructions that are otherwise sound are linked with no other error. -/
def isUnresolved : MachineError → Bool
  | badCode (.noField _ _) | badCode (.valueReturned _) | badCode (.nothingReturned _)
  | noMethod _ => true
  | _ => false

theorem isStructural_of_isUnresolved {e : MachineError} (h : e.isUnresolved = true) :
    e.isStructural = false := by
  cases e with
  | badCode reason => cases reason <;> first | rfl | cases h
  | noMethod => rfl
  | _ => cases h

theorem isStructural_of_isOrdinary {e : MachineError} (h : e.isOrdinary = true) :
    e.isStructural = false := by
  cases e with
  | badCode reason => cases reason <;> first | rfl | cases h
  | divisionByZero | stepLimit | callDepth | noMethod | noField => rfl
  | _ => cases h

end MachineError

/-! ### Enclosed methods -/

/-- A method that control leaves by a return or a failure only, in a class with the methods
`methods`. -/
structure Method.Enclosed (methods : Array Method) (m : Method) : Prop where
  /-- There is a first operation. -/
  start : 0 < m.operations.size
  /-- An operation leads to operations of the method. -/
  flow : ∀ (k : Nat) (op : Operation) (next : Nat), m.operations[k]? = some op →
    op.LeadsTo k next → next < m.operations.size
  /-- An operation that was linked with an error has none of the structure. -/
  error : ∀ (k : Nat) (op : Operation) (e : MachineError), m.operations[k]? = some op →
    op.error? = some e → e.isStructural = false
  /-- A method that is called exists. -/
  call : ∀ (k n : Nat) (name : Text), m.operations[k]? = some (.call n name) → n < methods.size

/-- A frame in front of an operation of an enclosed method. -/
structure Frame.Enclosed (methods : Array Method) (f : Frame) : Prop where
  /-- The method is enclosed. -/
  method : f.method.Enclosed methods
  /-- The next operation exists. -/
  next_lt : f.next < f.method.operations.size

theorem Method.Enclosed.enter {methods : Array Method} {m : Method} (hm : m.Enclosed methods)
    {arguments : List Int32} {f : Frame} (h : Frame.enter m arguments = .ok f) :
    f.Enclosed methods := by
  obtain ⟨-, rfl⟩ := Frame.enter_eq_ok.1 h
  exact ⟨hm, hm.start⟩

namespace Machine

/-- All methods of a machine are enclosed. -/
def Enclosed (m : Machine) : Prop :=
  ∀ method ∈ m.methods, method.Enclosed m.methods

/-- The frames of a run stay in front of operations, and no error of the structure arises. -/
def Enclosed.invariant {m : Machine} (h : m.Enclosed) : FrameInvariant m.methods where
  frame := Frame.Enclosed m.methods
  allows e := e.isStructural = false
  enter method hmethod _ _ hf := (h method hmethod).enter hf
  move _ op next _ _ hf hop hnext _ := ⟨hf.method, hf.method.flow _ op next hop hnext⟩
  restack _ _ hf := ⟨hf.method, hf.next_lt⟩
  linked _ op e hf hop he := hf.method.error _ op e hop he
  load _ _ _ _ _ := rfl
  store _ _ _ _ _ := rfl
  callee f n name hf hop hnone := by
    have hlt : n < m.methods.size := hf.method.call _ n name hop
    rw [Array.getElem?_eq_getElem hlt] at hnone
    cases hnone
  ending f hf hnone := by
    have hsome : f.current? = some _ := Array.getElem?_eq_getElem hf.next_lt
    rw [hsome] at hnone
    cases hnone
  ordinary _ := MachineError.isStructural_of_isOrdinary

end Machine

end Classwright
