import Classwright.Proofs.Bytecode.Flow
import Classwright.Proofs.Machine.Activation

/-!
# Where control goes

`Operation.LeadsTo` says at which operation of the same method control can go on behind another
one.  Linked code goes where its instructions go (`LinkContext.exists_successor`).
-/

namespace Classwright

/-- Control can go from an operation with the number `k` to that with the number `next` of the same
method. -/
def Operation.LeadsTo (op : Operation) (k next : Nat) : Prop :=
  match op with
  | .branch _ target => next = k + 1 ∨ target = .ok next
  | .jump target => target = .ok next
  | .returnValue | .returnNothing | .fail _ => False
  | _ => next = k + 1

namespace Frame

variable {m : Method} {arguments : List Int32} {f : Frame}

/-- A call is entered with its arguments in the first slots, if they fit there. -/
theorem enter_eq_ok : Frame.enter m arguments = .ok f ↔ arguments.length ≤ m.maxLocals ∧
    f = { method := m
          locals := arguments.toArray ++ Array.replicate (m.maxLocals - arguments.length) 0 } := by
  unfold Frame.enter
  split
  · rename_i hfew
    exact ⟨fun h => (by cases h), fun h => absurd h.1 (Nat.not_le.2 hfew)⟩
  · rename_i hfit
    rw [Except.ok.injEq]
    exact ⟨fun h => ⟨Nat.not_lt.1 hfit, h.symm⟩, fun h => h.2.symm⟩

/-- A call is refused only because its arguments do not fit into the slots. -/
theorem eq_of_enter_eq_error {e : MachineError} (h : Frame.enter m arguments = .error e) :
    e = .badCode (.tooFewLocals m.name arguments.length m.maxLocals) := by
  unfold Frame.enter at h
  split at h
  · exact (Except.error.inj h).symm
  · cases h

theorem method_of_enter (h : Frame.enter m arguments = .ok f) : f.method = m := by
  rw [(enter_eq_ok.1 h).2]

theorem size_locals_of_enter (h : Frame.enter m arguments = .ok f) :
    f.locals.size = m.maxLocals := by
  obtain ⟨hlength, rfl⟩ := enter_eq_ok.1 h
  simp only [Array.size_append, List.size_toArray, Array.size_replicate]
  exact Nat.add_sub_cancel' hlength

end Frame

namespace LinkContext

/-- An operation of a linked method is that of the instruction with its number. -/
theorem exists_of_operations {c : LinkContext} {m : RawMethod} {k : Nat} {op : Operation}
    (hop : (c.link m).operations[k]? = some op) :
    ∃ (pre : Code) (i : Instruction) (post : Code), m.code = pre ++ i :: post ∧ pre.length = k ∧
      op = c.operation m (startsOf (Code.locate 0 m.code)) pre.size i := by
  have hlt : k < m.code.length := by
    have hbound := (Array.getElem?_eq_some_iff.1 hop).1
    simpa only [link, List.size_toArray, List.length_map, Code.length_locate] using hbound
  obtain ⟨pre, i, post, hcode, rfl⟩ := Code.exists_split hlt
  have hget := Activation.getElem?_operations (a := ⟨c, m, [], 0⟩) hcode
  exact ⟨pre, i, post, hcode, rfl, Option.some.inj (hop.symm.trans hget)⟩

/-- A branch that is resolved goes to the instruction that starts at its target. -/
theorem exists_of_target {m : RawMethod} {pc n : Nat} {i : Instruction}
    (h : target m (startsOf (Code.locate 0 m.code)) pc i = .ok n) :
    ∃ (pre : Code) (j : Instruction) (post : Code), m.code = pre ++ j :: post ∧ pre.length = n ∧
      i.target pc = (pre.size : Int) := by
  unfold target at h
  dsimp only at h
  split at h
  · cases h
  · rename_i hneg
    split at h
    · rename_i k hk
      obtain rfl := Except.ok.inj h
      rw [startsOf_eq, getElem?_numbering _ (Code.nodup_locate 0 _)] at hk
      have hlt : k < m.code.length := by
        have hbound := (List.getElem?_eq_some_iff.1 hk).1
        rwa [List.length_map, Code.length_locate] at hbound
      obtain ⟨pre, j, post, hcode, rfl⟩ := Code.exists_split hlt
      rw [hcode, List.getElem?_map, Code.getElem?_locate, Nat.zero_add, Option.map_some,
        Option.some.injEq] at hk
      exact ⟨pre, j, post, hcode, rfl, by omega⟩
    · cases h

theorem leadsTo_orFail {α : Type} {r : Except MachineError α} {f : α → Operation} {k next : Nat}
    (h : (orFail r f).LeadsTo k next) : ∃ a, r = .ok a ∧ (f a).LeadsTo k next := by
  cases r with
  | error e => exact h.elim
  | ok a => exact ⟨a, rfl, h⟩

/-- Control goes from a linked instruction to the next one or to its target. -/
theorem leadsTo_operation {c : LinkContext} {m : RawMethod} {starts : Std.HashMap Nat Nat}
    {pc k next : Nat} {i : Instruction} (h : (c.operation m starts pc i).LeadsTo k next) :
    (next = k + 1 ∧ (pc : Int) + i.size ∈ i.successors pc) ∨
      (target m starts pc i = .ok next ∧ i.target pc ∈ i.successors pc) := by
  unfold operation at h
  unfold Instruction.successors
  cases hop : i.op with
  | iconst0 | iconst1 | bipush | sipush | aload0 | iload | iload0 | iload1 | iload2 | iload3
  | istore | istore0 | istore1 | istore2 | istore3 | pop | iadd | isub | imul | idiv =>
    simp only [hop] at h ⊢
    exact Or.inl ⟨h, List.mem_singleton_self _⟩
  | ldc | ldcW | getStatic | putStatic | invokeSpecial | invokeStatic =>
    simp only [hop] at h ⊢
    obtain ⟨a, -, h⟩ := leadsTo_orFail h
    exact Or.inl ⟨h, List.mem_singleton_self _⟩
  | ifEq | ifNe | ifLt | ifGe | ifGt | ifLe =>
    simp only [hop] at h ⊢
    exact h.imp (fun hnext => ⟨hnext, by simp⟩) (fun htarget => ⟨htarget, by simp⟩)
  | goto =>
    simp only [hop] at h ⊢
    exact Or.inr ⟨h, List.mem_singleton_self _⟩
  | ireturn | vreturn =>
    simp only [hop] at h
    split at h <;> exact h.elim
  | wide | unlisted =>
    simp only [hop] at h
    exact h.elim

/-- Control goes from an operation of a linked method to one that starts at a successor of its
instruction, or behind the last one. -/
theorem exists_successor {c : LinkContext} {m : RawMethod} {pre post : Code} {i : Instruction}
    (hcode : m.code = pre ++ i :: post) {next : Nat}
    (h : (c.operation m (startsOf (Code.locate 0 m.code)) pre.size i).LeadsTo pre.length next) :
    ∃ pre' post' : Code, m.code = pre' ++ post' ∧ pre'.length = next ∧
      (pre'.size : Int) ∈ i.successors pre.size := by
  rcases leadsTo_operation h with ⟨rfl, hmem⟩ | ⟨htarget, hmem⟩
  · refine ⟨pre ++ [i], post, by simp [hcode], by simp, ?_⟩
    simpa using hmem
  · obtain ⟨pre', j, post', hcode', hlength, hsize⟩ := exists_of_target htarget
    exact ⟨pre', j :: post', hcode', hlength, hsize ▸ hmem⟩

end LinkContext

end Classwright
