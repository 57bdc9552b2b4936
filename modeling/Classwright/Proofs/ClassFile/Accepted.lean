import Classwright.Proofs.Bytecode.Flow
import Classwright.Proofs.ClassFile.Checks

/-!
# Class files that have passed the verifier

What is known of the code and the pool of a class file that the verifier has accepted.  Control that
is inside accepted code stays inside it (`ClassFile.Accepts.exists_of_successor`), and every chain
of pool entries that an instruction starts ends in strings (`ClassFile.exists_memberRef`).
-/

namespace Classwright

/-! ### Instructions that have been read -/

theorem Opcode.operand_of_poolTag? {op : Opcode} {tag : Tag} (h : op.poolTag? = some tag) :
    op.operand = .poolByte ∨ op.operand = .poolShort := by
  cases op <;> simp [poolTag?, operand] at h ⊢

namespace Instruction.Encodable

variable {i : Instruction}

/-- The operand of an instruction that refers to the pool is an index of two bytes. -/
theorem exists_index (h : i.Encodable) {tag : Tag} (htag : i.op.poolTag? = some tag) :
    ∃ index : UInt16, i.operand = index.toNat := by
  have hkind := Opcode.operand_of_poolTag? htag
  have hindex (n : Nat) (hn : n ≤ 0xFFFF) : ∃ index : UInt16, (n : Int) = index.toNat :=
    ⟨UInt16.ofNat n, by rw [UInt16.toNat_ofNat_of_lt' (Nat.lt_succ_of_le hn)]⟩
  cases h with
  | index _ hn => exact hindex _ (by omega)
  | longIndex _ hn | wide _ hn => exact hindex _ hn
  | none _ hk | byte hk =>
    rw [hk] at hkind
    simp at hkind
  | short hk => rcases hk with hk | hk <;> simp [hk] at hkind

end Instruction.Encodable

namespace ClassFile

variable {f : ClassFile}

/-! ### Accepted code -/

/-- What is known of code that has passed the verifier. -/
structure Accepts (f : ClassFile) (code : Code) : Prop where
  /-- The operands fit the bytes they have. -/
  encodable : ∀ i ∈ code, i.Encodable
  /-- The pool entries that instructions refer to are of the right kinds. -/
  tag : ∀ i ∈ code, ∀ tag, i.op.poolTag? = some tag → ∃ (index : UInt16) (c : Constant),
    i.operand = index.toNat ∧ c.tag = tag ∧ Holds f.pool index c
  /-- Branches go to instructions. -/
  branch : ∀ (pre : Code) (i : Instruction) (post : Code), code = pre ++ i :: post →
    i.op.isBranch = true → ∃ (pre' : Code) (j : Instruction) (post' : Code),
      code = pre' ++ j :: post' ∧ i.target pre.size = pre'.size
  /-- Control does not go on behind the last instruction. -/
  last : ∃ (pre : Code) (i : Instruction), code = pre ++ [i] ∧ endsCode i = true

theorem accepts_of_verifyCode {m : MethodCode} (h : f.verifyCode m = .ok ()) :
    ∃ code, Code.decode m.code = .ok code ∧ f.Accepts code := by
  obtain ⟨code, last, hcode, hchecks, hget, hends⟩ := verifyCode_eq_ok.1 h
  have hencodable := Code.encodable_of_decode hcode
  have hcheck (pre : Code) (i : Instruction) (post : Code) (hsplit : code = pre ++ i :: post) :=
    verifyInstruction_eq_ok.1
      (hchecks (pre.size, i) (Code.mem_locate.2 ⟨pre, post, hsplit, (Nat.zero_add _).symm⟩))
  refine ⟨code, hcode, hencodable, ?_, ?_, ?_⟩
  · intro i hi tag htag
    obtain ⟨pre, post, hsplit⟩ := List.append_of_mem hi
    obtain ⟨index, hindex⟩ := (hencodable i hi).exists_index htag
    have hexpect := (hcheck pre i post hsplit).1 tag htag
    rw [hindex, Int.toNat_natCast, UInt16.ofNat_toNat] at hexpect
    obtain ⟨c, hc, hctag⟩ := expectTag_eq_ok.1 hexpect
    exact ⟨index, c, hindex, hctag, hc⟩
  · intro pre i post hsplit hop
    obtain ⟨n, hn, hmem⟩ := (hcheck pre i post hsplit).2.2 hop
    rw [Std.HashSet.mem_ofList, List.contains_iff_mem, List.mem_map] at hmem
    obtain ⟨⟨pc, j⟩, hj, rfl⟩ := hmem
    obtain ⟨pre', post', hsplit', hpc⟩ := Code.mem_locate.1 hj
    exact ⟨pre', j, post', hsplit', by rw [hn, hpc, Nat.zero_add]⟩
  · obtain ⟨pre, hpre⟩ := List.getLast?_eq_some_iff.1 hget
    exact ⟨pre, last, hpre, hends⟩

/-- Control goes on behind an instruction only if there is another one. -/
theorem Accepts.ne_nil {code : Code} (h : f.Accepts code) {pre post : Code} {i : Instruction}
    (hcode : code = pre ++ i :: post) (hi : endsCode i = false) : post ≠ [] := by
  rintro rfl
  obtain ⟨before, last, hlast, hends⟩ := h.last
  obtain ⟨-, heq⟩ := List.append_inj' (hcode.symm.trans hlast) rfl
  obtain ⟨rfl, -⟩ := List.cons.inj heq
  rw [hends] at hi
  cases hi

/-- Control goes from an instruction of accepted code to the start of another one. -/
theorem Accepts.exists_of_successor {code : Code} (h : f.Accepts code) {pre post : Code}
    {i : Instruction} (hcode : code = pre ++ i :: post) {target : Int}
    (ht : target ∈ i.successors pre.size) :
    ∃ (pre' : Code) (j : Instruction) (post' : Code),
      code = pre' ++ j :: post' ∧ target = pre'.size := by
  have hnext (hi : endsCode i = false) : ∃ (pre' : Code) (j : Instruction) (post' : Code),
      code = pre' ++ j :: post' ∧ (pre.size : Int) + i.size = pre'.size := by
    obtain ⟨j, post', rfl⟩ := List.exists_cons_of_ne_nil (h.ne_nil hcode hi)
    exact ⟨pre ++ [i], j, post', by rw [hcode]; simp, by simp⟩
  unfold Instruction.successors at ht
  cases hop : i.op with
  | ireturn | vreturn => simp [hop] at ht
  | goto =>
    simp only [hop, List.mem_singleton] at ht
    subst ht
    exact h.branch pre i post hcode (by rw [hop]; rfl)
  | ifEq | ifNe | ifLt | ifGe | ifGt | ifLe =>
    simp only [hop, List.mem_cons, List.not_mem_nil, or_false] at ht
    rcases ht with rfl | rfl
    · exact hnext (by simp [endsCode, hop])
    · exact h.branch pre i post hcode (by rw [hop]; rfl)
  | _ =>
    simp only [hop, List.mem_singleton] at ht
    subst ht
    exact hnext (by simp [endsCode, hop])

/-! ### Accepted pools -/

/-- Every entry of a pool passes the verifier. -/
def PoolSound (f : ClassFile) : Prop :=
  ∀ c ∈ f.pool, f.verifyConstant c = .ok ()

variable {index : UInt16} {c : Constant}

theorem PoolSound.sound (hf : f.PoolSound) (h : Holds f.pool index c)
    (hc : ∀ tag first second value, c ≠ .other tag first second value) : c.Sound f.pool := by
  rcases verifyConstant_eq_ok.1 (hf c (Array.mem_of_getElem? h.2)) with
    hsound | ⟨tag, first, second, value, hother⟩
  · exact hsound
  · exact absurd hother (hc tag first second value)

theorem PoolSound.exists_namesClass (hf : f.PoolSound) (h : f.expectTag index .classRef = .ok ()) :
    ∃ name, NamesClass f.pool index name := by
  obtain ⟨c, hc, htag⟩ := expectTag_eq_ok.1 h
  obtain ⟨n, rfl⟩ := Constant.tag_eq_classRef.1 htag
  obtain ⟨name, hname⟩ := hf.sound hc (by simp)
  exact ⟨name, n, hc, hname⟩

/-- A reference to a field or method is resolved. -/
theorem PoolSound.exists_memberRef (hf : f.PoolSound) (h : Holds f.pool index c)
    (hc : c.tag = .fieldRef ∨ c.tag = .methodRef) : ∃ owner name descriptor,
      LinkContext.memberRef f index.toNat c.tag = .ok (owner, name, descriptor) := by
  have hmember : ∃ o s, c = .fieldRef o s ∨ c = .methodRef o s := by
    rcases hc with hc | hc
    · obtain ⟨o, s, rfl⟩ := Constant.tag_eq_fieldRef.1 hc
      exact ⟨o, s, Or.inl rfl⟩
    · obtain ⟨o, s, rfl⟩ := Constant.tag_eq_methodRef.1 hc
      exact ⟨o, s, Or.inr rfl⟩
  obtain ⟨o, s, hmember⟩ := hmember
  have hparts : (∃ n, Holds f.pool o (.classRef n)) ∧ ∃ n d, Holds f.pool s (.nameAndType n d) := by
    rcases hmember with rfl | rfl <;> exact hf.sound h (by simp)
  -- the entry leads to a class and a signature, and those to the strings they name
  obtain ⟨⟨n, howner⟩, k, d, hsignature⟩ := hparts
  obtain ⟨owner, hname⟩ := hf.exists_namesClass (expectTag_eq_ok.2 ⟨_, howner, rfl⟩)
  obtain ⟨⟨name, hk⟩, descriptor, hd⟩ := hf.sound hsignature (by simp)
  exact ⟨owner, name, descriptor,
    LinkContext.memberRef_of_holds hmember h hname ⟨k, d, hsignature, hk, hd⟩⟩

end ClassFile

end Classwright
