import Classwright.Proofs.ClassFile.Access

/-!
# What the verifier checks

For each check of the verifier, the condition under which it passes.  Class files that are emitted
are shown to pass by these conditions, and what is known of a class file that has passed is read off
them.
-/

namespace Classwright

/-! ### The kinds of pool entries -/

namespace Constant

variable {c : Constant}

theorem tag_eq_utf8 : c.tag = .utf8 ↔ ∃ text, c = .utf8 text := by
  cases c <;> simp [tag]

theorem tag_eq_integer : c.tag = .integer ↔ ∃ value, c = .integer value := by
  cases c <;> simp [tag]

theorem tag_eq_classRef : c.tag = .classRef ↔ ∃ name, c = .classRef name := by
  cases c <;> simp [tag]

theorem tag_eq_nameAndType :
    c.tag = .nameAndType ↔ ∃ name descriptor, c = .nameAndType name descriptor := by
  cases c <;> simp [tag]

theorem tag_eq_fieldRef : c.tag = .fieldRef ↔ ∃ owner signature, c = .fieldRef owner signature := by
  cases c <;> simp [tag]

theorem tag_eq_methodRef :
    c.tag = .methodRef ↔ ∃ owner signature, c = .methodRef owner signature := by
  cases c <;> simp [tag]

end Constant

namespace ClassFile

variable {f : ClassFile} {index : UInt16}

/-! ### The pool -/

theorem expectTag_eq_ok {tag : Tag} :
    f.expectTag index tag = .ok () ↔ ∃ c, Holds f.pool index c ∧ c.tag = tag := by
  rw [expectTag, bind_eq_ok]
  refine exists_congr fun c => ?_
  rw [constant_eq_ok]
  by_cases htag : c.tag = tag <;> simp [htag]

theorem expectTag_utf8_eq_ok :
    f.expectTag index .utf8 = .ok () ↔ ∃ text, Holds f.pool index (.utf8 text) := by
  simp [expectTag_eq_ok, Constant.tag_eq_utf8]

/-- An entry of a known kind passes if it refers to entries of the right kinds. -/
theorem verifyConstant_eq_ok {c : Constant} : f.verifyConstant c = .ok () ↔
    c.Sound f.pool ∨ ∃ tag first second value, c = .other tag first second value := by
  cases c with
  | utf8 | integer | other => simp [verifyConstant, Constant.Sound]
  | classRef | nameAndType | fieldRef | methodRef =>
    simp [verifyConstant, Constant.Sound, seq_eq_ok, expectTag_eq_ok, Constant.tag_eq_utf8,
      Constant.tag_eq_classRef, Constant.tag_eq_nameAndType]

theorem verifyConstants_eq_ok {index : Nat} {cs : List Constant} :
    f.verifyConstants index cs = .ok () ↔ ∀ c ∈ cs, f.verifyConstant c = .ok () := by
  induction cs generalizing index with
  | nil => simp [verifyConstants]
  | cons c rest ih =>
    rw [verifyConstants, List.forall_mem_cons]
    cases f.verifyConstant c with
    | error e => simp
    | ok u => simp [ih]

/-! ### Members -/

theorem verifyMember_eq_ok {m : Member} : f.verifyMember m = .ok () ↔
    (∃ name, Holds f.pool m.name (.utf8 name)) ∧
      (∃ descriptor, Holds f.pool m.descriptor (.utf8 descriptor)) ∧
      ∀ a ∈ m.attributes, ∃ name, Holds f.pool a.name (.utf8 name) := by
  simp only [verifyMember, seq_eq_ok, forM_eq_ok, expectTag_utf8_eq_ok]

/-! ### Code -/

/-- An instruction passes if its pool entry is of the right kind, its slot exists, and a branch goes
to the start of an instruction. -/
theorem verifyInstruction_eq_ok {maxLocals : UInt16} {starts : Std.HashSet Nat} {pc : Nat}
    {i : Instruction} : f.verifyInstruction maxLocals starts pc i = .ok () ↔
      (∀ tag, i.op.poolTag? = some tag →
        f.expectTag (UInt16.ofNat i.operand.toNat) tag = .ok ()) ∧
      (i.op.operand = .slot → i.operand < maxLocals.toNat) ∧
      (i.op.isBranch = true → ∃ n : Nat, i.target pc = n ∧ n ∈ starts) := by
  have hslot : (i.op.operand = .slot → i.operand < maxLocals.toNat) ↔
      ¬ (i.op.operand = .slot ∧ (maxLocals.toNat : Int) ≤ i.operand) := by
    rw [not_and, Int.not_le]
  have hbranch : (i.op.isBranch = true → ∃ n : Nat, i.target pc = n ∧ n ∈ starts) ↔
      ¬ (i.op.isBranch = true ∧ ¬ (0 ≤ i.target pc ∧ starts.contains (i.target pc).toNat = true)) := by
    rw [not_and, not_not]
    refine imp_congr_right fun _ => ⟨?_, fun ⟨hpos, hmem⟩ => ?_⟩
    · rintro ⟨n, hn, hmem⟩
      rw [hn]
      exact ⟨Int.natCast_nonneg n, by simpa using hmem⟩
    · exact ⟨_, (Int.toNat_of_nonneg hpos).symm, by simpa using hmem⟩
  rw [hslot, hbranch]
  unfold verifyInstruction
  cases hop : i.op.poolTag? with
  | none => simp [ok_bind, guard_eq_ok, refuse_eq_ok]
  | some tag =>
    dsimp only
    cases htag : f.expectTag (UInt16.ofNat i.operand.toNat) tag with
    | error e => simp [bind, Except.bind, htag]
    | ok u => simp [ok_bind, guard_eq_ok, refuse_eq_ok, htag]

/-- Code passes if it can be read, its instructions pass, and control does not run past the last
one. -/
theorem verifyCode_eq_ok {m : MethodCode} : f.verifyCode m = .ok () ↔
    ∃ code last, Code.decode m.code = .ok code ∧
      (∀ x ∈ Code.locate 0 code, f.verifyInstruction m.maxLocals
        (Std.HashSet.ofList ((Code.locate 0 code).map Prod.fst)) x.1 x.2 = .ok ()) ∧
      code.getLast? = some last ∧ endsCode last = true := by
  simp only [verifyCode, guard_eq_ok]
  constructor
  · rintro ⟨-, h⟩
    split at h
    · cases h
    · rename_i code hcode
      obtain ⟨hchecks, hlast⟩ := seq_eq_ok.1 h
      split at hlast
      · rename_i last hget
        split at hlast
        · rename_i hends
          exact ⟨code, last, hcode, forM_eq_ok.1 hchecks, hget, hends⟩
        · cases hlast
      · cases hlast
  · rintro ⟨code, last, hcode, hchecks, hget, hends⟩
    have hnonempty : ¬ m.code.isEmpty = true := by
      intro hempty
      rw [List.isEmpty_iff.1 hempty] at hcode
      obtain rfl := Except.ok.inj hcode
      cases hget
    refine ⟨hnonempty, ?_⟩
    simp only [hcode, hget, hends, if_true, seq_eq_ok, forM_eq_ok]
    exact ⟨hchecks, trivial⟩

theorem verifyMethod_eq_ok {m : Member} : f.verifyMethod m = .ok () ↔
    f.verifyMember m = .ok () ∧ ∃ code, f.methodCode m = .ok code ∧ f.verifyCode code = .ok () := by
  simp only [verifyMethod, bind_eq_ok]
  constructor
  · rintro ⟨_, hmember, code, hcode, name, -, h⟩
    refine ⟨hmember, code, hcode, ?_⟩
    split at h
    · assumption
    · cases h
  · rintro ⟨hmember, code, hcode, hchecks⟩
    obtain ⟨⟨name, hname⟩, ⟨descriptor, hdescriptor⟩, -⟩ := verifyMember_eq_ok.1 hmember
    exact ⟨(), hmember, code, hcode, _, memberName_of_holds hname hdescriptor, by rw [hchecks]⟩

/-! ### Class files -/

theorem verify_eq_ok : f.verify = .ok () ↔ (f.major = majorVersion ∧ f.minor = minorVersion) ∧
    (∀ c ∈ f.pool, f.verifyConstant c = .ok ()) ∧ f.expectTag f.this .classRef = .ok () ∧
    f.expectTag f.super .classRef = .ok () ∧ (∀ m ∈ f.fields, f.verifyField m = .ok ()) ∧
    ∀ m ∈ f.methods, f.verifyMethod m = .ok () := by
  simp only [verify, guard_eq_ok, seq_eq_ok, forM_eq_ok, verifyConstants_eq_ok,
    Array.mem_toList_iff, not_or, not_not]

end ClassFile

end Classwright
