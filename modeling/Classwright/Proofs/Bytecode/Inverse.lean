import Classwright.Proofs.Bytecode.Codec

/-!
# Encoding and decoding are inverse

Code whose instructions have operands in their ranges (`Instruction.Fits`) is read back from its
bytes, and code that is read is of this kind and has the bytes it was read from
(`Code.decode_inverts_encode`).  Either way each instruction lies in the bytes behind those in front
of it, and takes as many of them as was counted for it (`Code.LiesIn`).  Where reading notes the
place and the length of each instruction, these are the place and the length counted for it
(`Code.decodeLocatedFrom_eq`).
-/

namespace Classwright

/-! ### Ranges of instructions -/

namespace Instruction

/-- The least operand of an instruction. -/
def low (i : Instruction) : Int :=
  if i.wide then 0 else i.op.operand.low

/-- The greatest operand of an instruction; a wide one has a slot of two bytes. -/
def high (i : Instruction) : Int :=
  if i.wide then 0xFFFF else i.op.operand.high

/-- An instruction that can be written with its operand. -/
structure Fits (i : Instruction) : Prop where
  /-- The opcode is in the instruction set. -/
  listed : i.op.isListed = true
  /-- It is not `wide` itself, -/
  op_ne : i.op ≠ .wide
  /-- which only modifies loads and stores. -/
  wide_op : i.wide = true → i.op = .iload ∨ i.op = .istore
  /-- The operand is in its range. -/
  low_le : i.low ≤ i.operand
  /-- The operand is in its range. -/
  le_high : i.operand ≤ i.high

theorem operand_eq_wide_iff {op : Opcode} : op.operand = .wide ↔ op = .wide := by
  constructor
  · exact Opcode.eq_wide_of_operand
  · rintro rfl
    rfl

/-- The instructions that can be written are those whose operands fit the bytes they have. -/
theorem fits_iff_encodable {i : Instruction} : i.Fits ↔ i.Encodable := by
  obtain ⟨op, v, wide⟩ := i
  cases wide with
  | true =>
    rw [encodable_wide_iff]
    constructor
    · intro h
      exact ⟨h.wide_op rfl, h.low_le, h.le_high⟩
    · rintro ⟨hop, hlow, hhigh⟩
      have hlisted : op.isListed = true ∧ op ≠ .wide := by rcases hop with rfl | rfl <;> decide
      exact ⟨hlisted.1, hlisted.2, fun _ => hop, hlow, hhigh⟩
  | false =>
    constructor
    · intro h
      have hwide : op.operand ≠ .wide := fun hk => h.op_ne (operand_eq_wide_iff.1 hk)
      exact (encodable_iff h.listed hwide).2 ⟨h.low_le, h.le_high⟩
    · intro h
      have hwide : op.operand ≠ .wide := h.operand_ne_wide
      obtain ⟨hlow, hhigh⟩ := (encodable_iff h.isListed hwide).1 h
      refine ⟨h.isListed, fun hop => hwide (operand_eq_wide_iff.2 hop), ?_, hlow, hhigh⟩
      intro hfalse
      cases hfalse

end Instruction

/-! ### Code in its bytes -/

namespace Code

/-- How instructions lie in some bytes. -/
structure LiesIn (code : Code) (bytes : List UInt8) : Prop where
  /-- Their lengths add up to that of the bytes. -/
  size_eq : code.size = bytes.length
  /-- An instruction starts where those in front of it end, -/
  start : ∀ k i, code[k]? = some i → (locate 0 code)[k]? = some (size (code.take k), i)
  /-- and there are its bytes, as many as its length says. -/
  slice : ∀ k i, code[k]? = some i →
    i.encode.length = i.size ∧ (bytes.drop (size (code.take k))).take i.size = i.encode

theorem encode_append (code others : Code) :
    encode (code ++ others) = code.encode ++ others.encode :=
  List.flatMap_append

/-- Code whose operands fit lies in its own bytes. -/
theorem liesIn_encode {code : Code} (h : ∀ i ∈ code, i.Encodable) : code.LiesIn code.encode := by
  -- the code cut in front of an instruction
  have hsplit (k : Nat) (i : Instruction) (hk : code[k]? = some i) :
      code = code.take k ++ i :: code.drop (k + 1) ∧ (code.take k).length = k := by
    obtain ⟨hlt, rfl⟩ := List.getElem?_eq_some_iff.1 hk
    refine ⟨?_, List.length_take_of_le (Nat.le_of_lt hlt)⟩
    rw [List.getElem_cons_drop, List.take_append_drop]
  refine ⟨(length_encode h).symm, fun k i hk => ?_, fun k i hk => ?_⟩
  · obtain ⟨hcode, hlength⟩ := hsplit k i hk
    have hstart := getElem?_locate 0 (code.take k) i (code.drop (k + 1))
    rwa [← hcode, hlength, Nat.zero_add] at hstart
  · obtain ⟨hcode, -⟩ := hsplit k i hk
    have hi : i.encode.length = i.size := (h i (List.mem_of_getElem? hk)).length_encode
    have hfront : (encode (code.take k)).length = size (code.take k) :=
      length_encode fun j hj => h j (List.mem_of_mem_take hj)
    have hbytes : code.encode =
        encode (code.take k) ++ (i.encode ++ encode (code.drop (k + 1))) := by
      calc code.encode = encode (code.take k ++ i :: code.drop (k + 1)) := congrArg encode hcode
        _ = encode (code.take k) ++ encode (i :: code.drop (k + 1)) := encode_append _ _
        _ = encode (code.take k) ++ (i.encode ++ encode (code.drop (k + 1))) := rfl
    refine ⟨hi, ?_⟩
    rw [hbytes, ← hfront, List.drop_left, ← hi, List.take_left]

/-! ### Places that are read -/

/-- An instruction is read with its place and its length in front of those behind it. -/
theorem decodeLocatedFrom_cons {b : UInt8} {pc : Nat} {rest : List UInt8} {i : Instruction}
    {code : Except CodecError Code} (operand : List UInt8)
    (hop : (Opcode.ofByte b).isListed = true)
    (hlength : operand.length = (Opcode.ofByte b).operand.size)
    (hi : Instruction.ofOperand (Opcode.ofByte b) pc operand = .ok i)
    (hsize : i.size = (Opcode.ofByte b).size)
    (hrest : decodeLocatedFrom (pc + (Opcode.ofByte b).size) rest =
      code.map (located (pc + (Opcode.ofByte b).size))) :
    decodeLocatedFrom pc (b :: (operand ++ rest)) =
      (code >>= fun others => pure (i :: others)).map (located pc) := by
  have henough : ¬ (operand ++ rest).length < (Opcode.ofByte b).operand.size := by
    rw [List.length_append]
    omega
  rw [decodeLocatedFrom, if_pos hop, if_neg henough, ← hlength, List.take_left, List.drop_left, hi,
    ok_bind, hrest, ← hsize]
  cases code <;> rfl

/-- Reading with places is reading and then placing. -/
theorem decodeLocatedFrom_eq (pc : Nat) (bytes : List UInt8) :
    decodeLocatedFrom pc bytes = (decodeFrom pc bytes).map (located pc) := by
  fun_induction decodeFrom pc bytes with
  | case1 pc =>
    rw [decodeLocatedFrom]
    rfl
  | case2 pc b op hop rest hk ih =>
    have hsize : op.size = 1 := by rw [Opcode.size, hk]; rfl
    refine decodeLocatedFrom_cons [] hop (by rw [hk]; rfl) ?_ rfl (hsize ▸ ih)
    unfold Instruction.ofOperand
    rw [hk]
  | case3 pc b op hop x rest hk ih | case4 pc b op hop x rest hk ih
  | case5 pc b op hop x rest hk ih =>
    have hsize : op.size = 2 := by rw [Opcode.size, hk]; rfl
    refine decodeLocatedFrom_cons [x] hop (by rw [hk]; rfl) ?_ rfl (hsize ▸ ih)
    unfold Instruction.ofOperand
    rw [hk]
  | case6 pc b op hop x y rest hk ih | case7 pc b op hop x y rest hk ih
  | case8 pc b op hop x y rest hk ih =>
    have hsize : op.size = 3 := by rw [Opcode.size, hk]; rfl
    refine decodeLocatedFrom_cons [x, y] hop (by rw [hk]; rfl) ?_ rfl (hsize ▸ ih)
    unfold Instruction.ofOperand
    rw [hk]
  | case9 pc b op hop m x y rest hk modified hmodified ih =>
    have hsize : op.size = 4 := by rw [Opcode.size, hk]; rfl
    refine decodeLocatedFrom_cons [m, x, y] hop (by rw [hk]; rfl) ?_ hsize.symm (hsize ▸ ih)
    unfold Instruction.ofOperand
    rw [hk]
    exact if_pos hmodified
  | case10 pc b op hop m x y rest hk modified hmodified =>
    have hread : Instruction.ofOperand op pc [m, x, y] = .error (.badWide modified pc) := by
      unfold Instruction.ofOperand
      rw [hk]
      exact if_neg hmodified
    have hsize : op.operand.size = [m, x, y].length := by rw [hk]; rfl
    rw [decodeLocatedFrom, if_pos hop, hsize]
    change (if ([m, x, y] ++ rest).length < [m, x, y].length then _ else _) = _
    rw [if_neg (by simp)]
    change (Instruction.ofOperand op pc [m, x, y] >>= _) = _
    rw [hread]
    rfl
  | case11 pc b rest op hop hnone hbyte hslot hpoolByte hshort hbranch hpoolShort hwide =>
    -- bytes of which the patterns of a case fail are fewer than these patterns name
    have hone (h : ∀ x others, rest = x :: others → False) : rest.length < 1 := by
      rcases rest with _ | ⟨x, others⟩
      · exact Nat.zero_lt_one
      · exact (h x others rfl).elim
    have htwo (h : ∀ x y others, rest = x :: y :: others → False) : rest.length < 2 := by
      rcases rest with _ | ⟨x, _ | ⟨y, others⟩⟩
      · exact Nat.zero_lt_two
      · exact Nat.one_lt_two
      · exact (h x y others rfl).elim
    have hthree (h : ∀ m x y others, rest = m :: x :: y :: others → False) : rest.length < 3 := by
      rcases rest with _ | ⟨m, _ | ⟨x, _ | ⟨y, others⟩⟩⟩
      · exact (by decide : 0 < 3)
      · exact (by decide : 1 < 3)
      · exact (by decide : 2 < 3)
      · exact (h m x y others rfl).elim
    have hlt : rest.length < op.operand.size := by
      cases hk : op.operand with
      | none => exact (hnone hk).elim
      | byte => exact hone fun x others => hbyte x others hk
      | slot => exact hone fun x others => hslot x others hk
      | poolByte => exact hone fun x others => hpoolByte x others hk
      | short => exact htwo fun x y others => hshort x y others hk
      | branch => exact htwo fun x y others => hbranch x y others hk
      | poolShort => exact htwo fun x y others => hpoolShort x y others hk
      | wide => exact hthree fun m x y others => hwide m x y others hk
    rw [decodeLocatedFrom, if_pos hop, if_pos hlt]
    rfl
  | case12 pc b rest op hop =>
    rw [decodeLocatedFrom, if_neg hop]
    rfl

/-! ### Both ways -/

/-- **Reading is the inverse of writing**: instructions with operands in their ranges are read back
from their bytes, and bytes that are read as code are the bytes of that code.  Each instruction is
read behind those in front of it and takes the bytes counted for it; that place and that number of
bytes are what reading returns with it. -/
theorem decode_inverts_encode :
    (∀ code : Code, (∀ i ∈ code, i.Fits) →
      decode code.encode = .ok code ∧ code.LiesIn code.encode) ∧
    (∀ (bytes : List UInt8) (code : Code), decode bytes = .ok code →
      (∀ i ∈ code, i.Fits) ∧ code.encode = bytes ∧ code.LiesIn bytes) ∧
    ∀ bytes : List UInt8, decodeLocated bytes = (decode bytes).map (located 0) := by
  refine ⟨?_, ?_, decodeLocatedFrom_eq 0⟩
  · intro code h
    have hencodable : ∀ i ∈ code, i.Encodable :=
      fun i hi => Instruction.fits_iff_encodable.1 (h i hi)
    exact ⟨decode_encode hencodable, liesIn_encode hencodable⟩
  · intro bytes code h
    have hencodable := encodable_of_decode h
    have hbytes := encode_of_decode h
    refine ⟨fun i hi => Instruction.fits_iff_encodable.2 (hencodable i hi), hbytes, ?_⟩
    rw [← hbytes]
    exact liesIn_encode hencodable

end Code

/-- Code with the outermost operands of each kind. -/
def Code.outermost : Code :=
  [{ op := .bipush, operand := -128 }, { op := .sipush, operand := -32768 },
    { op := .ldc, operand := 0xFF }, { op := .ldcW, operand := 0xFFFF },
    { op := .iload, operand := 0xFF }, { op := .istore, operand := 0xFFFF, wide := true },
    { op := .ifEq, operand := 32767 }, { op := .goto, operand := -32768 }, { op := .vreturn }]

theorem Code.decode_inverts_encode_outermost :
    (∀ i ∈ outermost, i.Fits) ∧ outermost.encode.length = 23 ∧
      decode outermost.encode = .ok outermost ∧ outermost.LiesIn outermost.encode := by
  have hfits : ∀ i ∈ outermost, i.Fits := by
    simp only [outermost, List.forall_mem_cons, List.not_mem_nil, false_implies, implies_true,
      and_true]
    refine ⟨?_, ?_, ?_, ?_, ?_, ?_, ?_, ?_, ?_⟩ <;> constructor <;> decide
  exact ⟨hfits, by decide, decode_inverts_encode.1 outermost hfits⟩

end Classwright
