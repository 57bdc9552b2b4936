import Classwright.Bytecode.Instruction
import Classwright.Proofs.Except

/-!
# Reading back encoded instructions

Instructions whose operands fit the bytes they have (`Instruction.Encodable`) are read back from
their bytes as they were (`Code.decode_encode`), and what is read has such operands
(`Code.encodable_of_decode`) and the bytes it was read from (`Code.encode_of_decode`).  The
instruction behind some others starts where they end (`Code.getElem?_locate`).
-/

namespace Classwright

/-! ### Numbers of one and two bytes -/

theorem BigEndian.ofTwo_two {n : Nat} (h : n ≤ 0xFFFF) :
    ∃ x y, BigEndian.two n = [x, y] ∧ BigEndian.ofTwo x y = n := by
  refine ⟨_, _, rfl, ?_⟩
  simp only [BigEndian.ofTwo, UInt8.toNat_ofNat']
  omega

theorem signed_eight {v : Int} (hlo : -128 ≤ v) (hhi : v ≤ 127) :
    signed 8 (Instruction.operandByte v).toNat = v := by
  simp only [signed, Instruction.operandByte, UInt8.toNat_ofNat']
  split <;> omega

theorem signed_sixteen {v : Int} (hlo : -32768 ≤ v) (hhi : v ≤ 32767) :
    ∃ x y, Instruction.operandTwo v = [x, y] ∧ signed 16 (BigEndian.ofTwo x y) = v := by
  obtain ⟨x, y, hxy, h⟩ := BigEndian.ofTwo_two (n := (v % 0x10000).toNat) (by omega)
  refine ⟨x, y, hxy, ?_⟩
  rw [h, signed]
  split <;> omega

theorem toNat_operandByte {n : Nat} (h : n ≤ 0xFF) :
    (Instruction.operandByte n).toNat = n := by
  simp only [Instruction.operandByte, UInt8.toNat_ofNat']
  omega

theorem ofTwo_operandTwo {n : Nat} (h : n ≤ 0xFFFF) :
    ∃ x y, Instruction.operandTwo n = [x, y] ∧ BigEndian.ofTwo x y = n := by
  obtain ⟨x, y, hxy, hn⟩ := BigEndian.ofTwo_two h
  refine ⟨x, y, ?_, hn⟩
  rw [← hxy, Instruction.operandTwo]
  congr 1
  omega

theorem BigEndian.ofTwo_le (x y : UInt8) : BigEndian.ofTwo x y ≤ 0xFFFF := by
  have hx := x.toNat_lt
  have hy := y.toNat_lt
  unfold BigEndian.ofTwo
  omega

theorem BigEndian.two_ofTwo (a b : UInt8) : BigEndian.two (BigEndian.ofTwo a b) = [a, b] := by
  have ha := a.toNat_lt
  have hb := b.toNat_lt
  have hhigh : BigEndian.ofTwo a b / 0x100 = a.toNat := by
    unfold BigEndian.ofTwo
    omega
  have hlow : UInt8.ofNat (BigEndian.ofTwo a b) = b := by
    apply UInt8.toNat.inj
    rw [UInt8.toNat_ofNat', BigEndian.ofTwo]
    omega
  rw [BigEndian.two, hhigh, hlow, UInt8.ofNat_toNat]

theorem Instruction.operandTwo_of_ofTwo {v : Int} {x y : UInt8}
    (h : v % 0x10000 = BigEndian.ofTwo x y) : Instruction.operandTwo v = [x, y] := by
  rw [Instruction.operandTwo, h, Int.toNat_natCast, BigEndian.two_ofTwo]

theorem Instruction.operandByte_of_toNat {v : Int} {x : UInt8} (h : v % 0x100 = x.toNat) :
    Instruction.operandByte v = x := by
  rw [Instruction.operandByte, h, Int.toNat_natCast, UInt8.ofNat_toNat]

/-- A number of one byte is read as one between -128 and 127. -/
theorem signed_eight_bounds (x : UInt8) :
    -128 ≤ signed 8 x.toNat ∧ signed 8 x.toNat ≤ 127 := by
  have hx := x.toNat_lt
  unfold signed
  split <;> omega

/-- A number of two bytes is read as one between -32768 and 32767. -/
theorem signed_sixteen_bounds (x y : UInt8) :
    -32768 ≤ signed 16 (BigEndian.ofTwo x y) ∧ signed 16 (BigEndian.ofTwo x y) ≤ 32767 := by
  have hxy := BigEndian.ofTwo_le x y
  unfold signed
  split <;> omega

/-! ### Instructions -/

theorem Opcode.ofByte_byte {op : Opcode} (h : op.isListed = true) :
    Opcode.ofByte op.byte = op := by
  cases op <;> first | rfl | simp [Opcode.isListed] at h

theorem Opcode.byte_ofByte (b : UInt8) : (Opcode.ofByte b).byte = b := by
  unfold Opcode.ofByte
  split <;> rfl

theorem Opcode.eq_wide_of_operand {op : Opcode} (h : op.operand = .wide) : op = .wide := by
  cases op <;> first | rfl | simp [Opcode.operand] at h

theorem Opcode.isListed_of_operand {op : Opcode} (h : op.operand ≠ .none) :
    op.isListed = true := by
  cases op <;> first | rfl | exact absurd rfl h

/-- The instructions whose operands fit the bytes they have. -/
inductive Instruction.Encodable : Instruction → Prop
  | none {op : Opcode} (hop : op.isListed = true) (hk : op.operand = .none) : Encodable { op }
  | byte {op : Opcode} {v : Int} (hk : op.operand = .byte) (hlo : -128 ≤ v) (hhi : v ≤ 127) :
      Encodable { op, operand := v }
  | short {op : Opcode} {v : Int} (hk : op.operand = .short ∨ op.operand = .branch)
      (hlo : -32768 ≤ v) (hhi : v ≤ 32767) : Encodable { op, operand := v }
  | index {op : Opcode} {n : Nat} (hk : op.operand = .slot ∨ op.operand = .poolByte)
      (hn : n ≤ 0xFF) : Encodable { op, operand := n }
  | longIndex {op : Opcode} {n : Nat} (hk : op.operand = .poolShort) (hn : n ≤ 0xFFFF) :
      Encodable { op, operand := n }
  | wide {op : Opcode} {n : Nat} (hop : op = .iload ∨ op = .istore) (hn : n ≤ 0xFFFF) :
      Encodable { op, operand := n, wide := true }

/-- The instruction that is read back when the slot of a wide instruction does not fit its bytes. -/
def Instruction.cut (i : Instruction) : Instruction :=
  if i.wide then { i with operand := i.operand % 0x10000 } else i

theorem Instruction.encode_cut (i : Instruction) : i.cut.encode = i.encode := by
  obtain ⟨op, operand, wide⟩ := i
  cases wide with
  | false => rfl
  | true =>
    have htwo : operandTwo (operand % 0x10000) = operandTwo operand := by
      rw [operandTwo, operandTwo, Int.emod_emod_of_dvd operand (Int.dvd_refl 0x10000)]
    simp only [cut, encode, if_true, htwo]

theorem Instruction.size_cut (i : Instruction) : i.cut.size = i.size := by
  unfold cut
  split <;> rfl

theorem Instruction.size_pos (i : Instruction) : 0 < i.size := by
  unfold size Opcode.size
  split <;> omega

theorem Instruction.Encodable.length_encode {i : Instruction} (h : i.Encodable) :
    i.encode.length = i.size := by
  cases h with
  | none _ hk => simp [encode, size, Opcode.size, OperandKind.size, hk]
  | byte hk => simp [encode, size, Opcode.size, OperandKind.size, hk]
  | short hk =>
    rcases hk with hk | hk <;>
      simp [encode, size, Opcode.size, OperandKind.size, hk, operandTwo, BigEndian.two]
  | index hk =>
    rcases hk with hk | hk <;> simp [encode, size, Opcode.size, OperandKind.size, hk]
  | longIndex hk =>
    simp [encode, size, Opcode.size, OperandKind.size, hk, operandTwo, BigEndian.two]
  | wide => rfl

/-- A slot is never below 0. -/
theorem Instruction.Encodable.nonneg_of_slot {i : Instruction} (h : i.Encodable)
    (hk : i.op.operand = .slot) : 0 ≤ i.operand := by
  cases h with
  | none _ hk' => exact absurd (hk'.symm.trans hk) (by decide)
  | byte hk' => exact absurd (hk'.symm.trans hk) (by decide)
  | short hk' => rcases hk' with hk' | hk' <;> exact absurd (hk'.symm.trans hk) (by decide)
  | index | longIndex | wide => exact Int.natCast_nonneg _

theorem Instruction.Encodable.isListed {i : Instruction} (h : i.Encodable) :
    i.op.isListed = true := by
  cases h with
  | none hop => exact hop
  | byte hk => exact Opcode.isListed_of_operand (by simp [hk])
  | short hk => exact Opcode.isListed_of_operand (by rcases hk with hk | hk <;> simp [hk])
  | index hk => exact Opcode.isListed_of_operand (by rcases hk with hk | hk <;> simp [hk])
  | longIndex hk => exact Opcode.isListed_of_operand (by simp [hk])
  | wide hop => rcases hop with rfl | rfl <;> rfl

theorem Instruction.Encodable.operand_ne_wide {i : Instruction} (h : i.Encodable) :
    i.op.operand ≠ .wide := by
  cases h with
  | none _ hk => simp [hk]
  | byte hk => simp [hk]
  | short hk => rcases hk with hk | hk <;> simp [hk]
  | index hk => rcases hk with hk | hk <;> simp [hk]
  | longIndex hk => simp [hk]
  | wide hop => rcases hop with rfl | rfl <;> simp [Opcode.operand]

/-! ### Ranges of operands -/

/-- The least operand of a kind. -/
def OperandKind.low : OperandKind → Int
  | byte => -128
  | short | branch => -32768
  | none | slot | poolByte | poolShort | wide => 0

/-- The greatest operand of a kind. -/
def OperandKind.high : OperandKind → Int
  | byte => 127
  | short | branch => 32767
  | slot | poolByte => 0xFF
  | poolShort => 0xFFFF
  | none | wide => 0

namespace Instruction

/-- An operand fits its bytes if and only if it is in its range. -/
theorem encodable_iff {op : Opcode} (hop : op.isListed = true) (hwide : op.operand ≠ .wide)
    {v : Int} : Encodable { op, operand := v } ↔ op.operand.low ≤ v ∧ v ≤ op.operand.high := by
  constructor
  · intro h
    cases h with
    | none _ hk =>
      rw [hk]
      exact ⟨Int.le_refl _, Int.le_refl _⟩
    | byte hk hlo hhi =>
      rw [hk]
      exact ⟨hlo, hhi⟩
    | short hk hlo hhi => rcases hk with hk | hk <;> rw [hk] <;> exact ⟨hlo, hhi⟩
    | index hk hn =>
      rcases hk with hk | hk <;> rw [hk] <;>
        exact ⟨Int.natCast_nonneg _, Int.ofNat_le.2 hn⟩
    | longIndex hk hn =>
      rw [hk]
      exact ⟨Int.natCast_nonneg _, Int.ofNat_le.2 hn⟩
  · rintro ⟨hlow, hhigh⟩
    -- each kind has one constructor; an operand that is never below 0 is a `Nat`
    cases hk : op.operand with
    | wide => exact absurd hk hwide
    | byte =>
      rw [hk] at hlow hhigh
      exact .byte hk hlow hhigh
    | short =>
      rw [hk] at hlow hhigh
      exact .short (Or.inl hk) hlow hhigh
    | branch =>
      rw [hk] at hlow hhigh
      exact .short (Or.inr hk) hlow hhigh
    | none =>
      rw [hk] at hlow hhigh
      obtain rfl : v = 0 := Int.le_antisymm hhigh hlow
      exact .none hop hk
    | slot =>
      rw [hk] at hlow hhigh
      obtain ⟨n, rfl⟩ := Int.eq_ofNat_of_zero_le hlow
      exact .index (Or.inl hk) (Int.ofNat_le.1 hhigh)
    | poolByte =>
      rw [hk] at hlow hhigh
      obtain ⟨n, rfl⟩ := Int.eq_ofNat_of_zero_le hlow
      exact .index (Or.inr hk) (Int.ofNat_le.1 hhigh)
    | poolShort =>
      rw [hk] at hlow hhigh
      obtain ⟨n, rfl⟩ := Int.eq_ofNat_of_zero_le hlow
      exact .longIndex hk (Int.ofNat_le.1 hhigh)

theorem encodable_wide_iff {op : Opcode} {v : Int} :
    Encodable { op, operand := v, wide := true } ↔
      (op = .iload ∨ op = .istore) ∧ 0 ≤ v ∧ v ≤ 0xFFFF := by
  constructor
  · intro h
    cases h with
    | wide hop hn => exact ⟨hop, Int.natCast_nonneg _, Int.ofNat_le.2 hn⟩
  · rintro ⟨hop, hlow, hhigh⟩
    obtain ⟨n, rfl⟩ := Int.eq_ofNat_of_zero_le hlow
    exact .wide hop (Int.ofNat_le.1 hhigh)

end Instruction

/-! ### Code -/

namespace Code

/-- An instruction is read back from the front of some bytes. -/
theorem decodeFrom_encode_append {i : Instruction} (h : i.Encodable) (pc : Nat)
    (rest : List UInt8) :
    decodeFrom pc (i.encode ++ rest) = (decodeFrom (pc + i.size) rest).map (i :: ·) := by
  rw [decodeFrom.eq_def pc]
  -- the first byte tells the kind, and its bytes are taken off one by one
  cases h with
  | @none op hop hk =>
    simp only [Instruction.encode, Bool.false_eq_true, if_false, hk, List.cons_append,
      List.nil_append, Opcode.ofByte_byte hop, hop, if_true, Instruction.size, Opcode.size,
      OperandKind.size]
    rfl
  | @byte op v hk hlo hhi =>
    have hop : op.isListed = true := Opcode.isListed_of_operand (by simp [hk])
    simp only [Instruction.encode, Bool.false_eq_true, if_false, hk, List.cons_append,
      List.nil_append, Opcode.ofByte_byte hop, hop, if_true, Instruction.size, Opcode.size,
      OperandKind.size, signed_eight hlo hhi]
    rfl
  | @short op v hk hlo hhi =>
    have hop : op.isListed = true :=
      Opcode.isListed_of_operand (by rcases hk with hk | hk <;> simp [hk])
    obtain ⟨x, y, hxy, hv⟩ := signed_sixteen hlo hhi
    rcases hk with hk | hk <;>
    · simp only [Instruction.encode, Bool.false_eq_true, if_false, hk, hxy, List.cons_append,
        List.nil_append, Opcode.ofByte_byte hop, hop, if_true, Instruction.size, Opcode.size,
        OperandKind.size, hv]
      rfl
  | @index op n hk hn =>
    have hop : op.isListed = true :=
      Opcode.isListed_of_operand (by rcases hk with hk | hk <;> simp [hk])
    rcases hk with hk | hk <;>
    · simp only [Instruction.encode, Bool.false_eq_true, if_false, hk, List.cons_append,
        List.nil_append, Opcode.ofByte_byte hop, hop, if_true, Instruction.size, Opcode.size,
        OperandKind.size, toNat_operandByte hn]
      rfl
  | @longIndex op n hk hn =>
    have hop : op.isListed = true := Opcode.isListed_of_operand (by simp [hk])
    obtain ⟨x, y, hxy, hv⟩ := ofTwo_operandTwo hn
    simp only [Instruction.encode, Bool.false_eq_true, if_false, hk, hxy, List.cons_append,
      List.nil_append, Opcode.ofByte_byte hop, hop, if_true, Instruction.size, Opcode.size,
      OperandKind.size, hv]
    rfl
  | @wide op n hop hn =>
    have hlisted : op.isListed = true := by rcases hop with rfl | rfl <;> rfl
    have hwide : Opcode.ofByte Opcode.wide.byte = .wide := rfl
    obtain ⟨x, y, hxy, hv⟩ := ofTwo_operandTwo hn
    simp only [Instruction.encode, if_true, hxy, List.cons_append, List.nil_append, hwide,
      Opcode.isListed, Opcode.operand, Opcode.ofByte_byte hlisted, hop, Instruction.size,
      Opcode.size, OperandKind.size, hv]
    rfl

/-- Code is read back from its bytes. -/
theorem decodeFrom_encode {code : Code} (h : ∀ i ∈ code, i.Encodable) (pc : Nat) :
    decodeFrom pc code.encode = .ok code := by
  induction code generalizing pc with
  | nil => rfl
  | cons i rest ih =>
    rw [List.forall_mem_cons] at h
    rw [encode, List.flatMap_cons, decodeFrom_encode_append h.1]
    exact congrArg (Except.map _) (ih h.2 _)

/-- Code is read back from its bytes. -/
theorem decode_encode {code : Code} (h : ∀ i ∈ code, i.Encodable) :
    decode code.encode = .ok code :=
  decodeFrom_encode h 0

/-- Code is read back from its bytes with its slots cut down to two bytes. -/
theorem decode_encode_cut {code : Code} (h : ∀ i ∈ code, i.cut.Encodable) :
    decode code.encode = .ok (code.map Instruction.cut) := by
  have hbytes : encode (code.map Instruction.cut) = code.encode := by
    simp only [encode, List.flatMap_map, Instruction.encode_cut]
  rw [← hbytes]
  refine decode_encode fun i hi => ?_
  obtain ⟨j, hj, rfl⟩ := List.mem_map.1 hi
  exact h j hj

theorem encodable_of_cons {rest : Except CodecError Code} {i : Instruction} {code : Code}
    (h : (rest >>= fun others => pure (i :: others)) = .ok code) (hi : i.Encodable)
    (hrest : ∀ others, rest = .ok others → ∀ j ∈ others, j.Encodable) :
    ∀ j ∈ code, j.Encodable := by
  obtain ⟨others, hothers, hcode⟩ := bind_eq_ok.1 h
  obtain rfl := pure_eq_ok.1 hcode
  exact List.forall_mem_cons.2 ⟨hi, hrest others hothers⟩

/-- The operands of instructions that are read fit the bytes they have. -/
theorem encodable_of_decodeFrom {pc : Nat} {bytes : List UInt8} {code : Code}
    (h : decodeFrom pc bytes = .ok code) : ∀ i ∈ code, i.Encodable := by
  fun_induction decodeFrom pc bytes generalizing code with
  | case1 =>
    obtain rfl := Except.ok.inj h
    simp
  | case2 pc b op hop rest hk =>
    rename_i ih
    exact encodable_of_cons h (.none hop hk) fun _ => ih
  | case3 pc b op hop x rest hk =>
    rename_i ih
    obtain ⟨hlo, hhi⟩ := signed_eight_bounds x
    exact encodable_of_cons h (.byte hk hlo hhi) fun _ => ih
  | case4 pc b op hop x rest hk =>
    rename_i ih
    exact encodable_of_cons h (.index (Or.inl hk) (Nat.le_of_lt_succ x.toNat_lt)) fun _ => ih
  | case5 pc b op hop x rest hk =>
    rename_i ih
    exact encodable_of_cons h (.index (Or.inr hk) (Nat.le_of_lt_succ x.toNat_lt)) fun _ => ih
  | case6 pc b op hop x y rest hk =>
    rename_i ih
    obtain ⟨hlo, hhi⟩ := signed_sixteen_bounds x y
    exact encodable_of_cons h (.short (Or.inl hk) hlo hhi) fun _ => ih
  | case7 pc b op hop x y rest hk =>
    rename_i ih
    obtain ⟨hlo, hhi⟩ := signed_sixteen_bounds x y
    exact encodable_of_cons h (.short (Or.inr hk) hlo hhi) fun _ => ih
  | case8 pc b op hop x y rest hk =>
    rename_i ih
    exact encodable_of_cons h (.longIndex hk (BigEndian.ofTwo_le x y)) fun _ => ih
  | case9 pc b op hop m x y rest hk modified hmodified =>
    rename_i ih
    exact encodable_of_cons h (.wide hmodified (BigEndian.ofTwo_le x y)) fun _ => ih
  | case10 | case11 | case12 => cases h

/-- The operands of instructions that are read fit the bytes they have. -/
theorem encodable_of_decode {bytes : List UInt8} {code : Code} (h : decode bytes = .ok code) :
    ∀ i ∈ code, i.Encodable :=
  encodable_of_decodeFrom h

theorem encode_of_cons {rest : Except CodecError Code} {i : Instruction} {code : Code}
    (front : List UInt8) {bytes : List UInt8} (h : (rest >>= fun others => pure (i :: others)) = .ok code)
    (hi : i.encode = front) (hrest : ∀ others, rest = .ok others → others.encode = bytes) :
    code.encode = front ++ bytes := by
  obtain ⟨others, hothers, hcode⟩ := bind_eq_ok.1 h
  obtain rfl := pure_eq_ok.1 hcode
  rw [encode, List.flatMap_cons, hi]
  exact congrArg (front ++ ·) (hrest others hothers)

/-- Instructions that are read have the bytes they are read from. -/
theorem encode_of_decodeFrom {pc : Nat} {bytes : List UInt8} {code : Code}
    (h : decodeFrom pc bytes = .ok code) : code.encode = bytes := by
  fun_induction decodeFrom pc bytes generalizing code with
  | case1 =>
    obtain rfl := Except.ok.inj h
    rfl
  | case2 pc b op hop rest hk =>
    rename_i ih
    refine encode_of_cons [b] h ?_ fun _ => ih
    simp [Instruction.encode, hk, op, Opcode.byte_ofByte]
  | case3 pc b op hop x rest hk =>
    rename_i ih
    refine encode_of_cons [b, x] h ?_ fun _ => ih
    have hx := x.toNat_lt
    -- cutting down to one byte undoes the sign
    have hbyte : Instruction.operandByte (signed 8 x.toNat) = x := by
      apply Instruction.operandByte_of_toNat
      unfold signed
      split <;> omega
    simp [Instruction.encode, hk, op, Opcode.byte_ofByte, hbyte]
  | case4 pc b op hop x rest hk | case5 pc b op hop x rest hk =>
    rename_i ih
    refine encode_of_cons [b, x] h ?_ fun _ => ih
    have hx := x.toNat_lt
    have hbyte : Instruction.operandByte x.toNat = x :=
      Instruction.operandByte_of_toNat (by omega)
    simp [Instruction.encode, hk, op, Opcode.byte_ofByte, hbyte]
  | case6 pc b op hop x y rest hk | case7 pc b op hop x y rest hk =>
    rename_i ih
    refine encode_of_cons [b, x, y] h ?_ fun _ => ih
    have hle := BigEndian.ofTwo_le x y
    -- likewise for two bytes
    have htwo : Instruction.operandTwo (signed 16 (BigEndian.ofTwo x y)) = [x, y] := by
      apply Instruction.operandTwo_of_ofTwo
      unfold signed
      split <;> omega
    simp [Instruction.encode, hk, op, Opcode.byte_ofByte, htwo]
  | case8 pc b op hop x y rest hk =>
    rename_i ih
    refine encode_of_cons [b, x, y] h ?_ fun _ => ih
    have hle := BigEndian.ofTwo_le x y
    have htwo : Instruction.operandTwo (BigEndian.ofTwo x y) = [x, y] :=
      Instruction.operandTwo_of_ofTwo (by omega)
    simp [Instruction.encode, hk, op, Opcode.byte_ofByte, htwo]
  | case9 pc b op hop m x y rest hk modified hmodified =>
    rename_i ih
    refine encode_of_cons [b, m, x, y] h ?_ fun _ => ih
    have hle := BigEndian.ofTwo_le x y
    have htwo : Instruction.operandTwo (BigEndian.ofTwo x y) = [x, y] :=
      Instruction.operandTwo_of_ofTwo (by omega)
    -- the first byte is that of `wide`, the second that of the opcode
    have hb : Opcode.wide.byte = b := by
      rw [← Opcode.eq_wide_of_operand hk]
      exact Opcode.byte_ofByte b
    simp [Instruction.encode, hb, modified, Opcode.byte_ofByte, htwo]
  | case10 | case11 | case12 => cases h

/-- Instructions that are read have the bytes they are read from. -/
theorem encode_of_decode {bytes : List UInt8} {code : Code} (h : decode bytes = .ok code) :
    code.encode = bytes :=
  encode_of_decodeFrom h

/-- The bytes of code take the size that was counted for it. -/
theorem length_encode {code : Code} (h : ∀ i ∈ code, i.Encodable) :
    code.encode.length = code.size := by
  induction code with
  | nil => rfl
  | cons i rest ih =>
    rw [List.forall_mem_cons] at h
    rw [encode, List.flatMap_cons, List.length_append, h.1.length_encode, size]
    exact congrArg (i.size + ·) (ih h.2)

theorem length_encode_cut {code : Code} (h : ∀ i ∈ code, i.cut.Encodable) :
    code.encode.length = code.size := by
  induction code with
  | nil => rfl
  | cons i rest ih =>
    rw [List.forall_mem_cons] at h
    have hi : i.encode.length = i.size := by
      rw [← i.encode_cut, h.1.length_encode, Instruction.size_cut]
    rw [encode, List.flatMap_cons, List.length_append, hi, size]
    exact congrArg (i.size + ·) (ih h.2)

/-! ### Where instructions start -/

@[simp] theorem size_nil : size [] = 0 := rfl

@[simp] theorem size_cons (i : Instruction) (rest : Code) :
    size (i :: rest) = i.size + size rest := rfl

@[simp] theorem size_append (code others : Code) :
    size (code ++ others) = code.size + others.size := by
  induction code with
  | nil => simp
  | cons i rest ih => rw [List.cons_append, size_cons, size_cons, ih, Nat.add_assoc]

theorem length_le_size (code : Code) : code.length ≤ code.size := by
  induction code with
  | nil => exact Nat.le_refl 0
  | cons i rest ih =>
    have hi := i.size_pos
    rw [List.length_cons, size_cons]
    omega

theorem locate_append (pc : Nat) (code others : Code) :
    locate pc (code ++ others) = locate pc code ++ locate (pc + code.size) others := by
  induction code generalizing pc with
  | nil => rfl
  | cons i rest ih =>
    rw [List.cons_append, locate, locate, ih, size_cons, Nat.add_assoc, List.cons_append]

@[simp] theorem length_locate (pc : Nat) (code : Code) :
    (locate pc code).length = code.length := by
  induction code generalizing pc with
  | nil => rfl
  | cons i rest ih => rw [locate, List.length_cons, ih, List.length_cons]

theorem mem_locate {pc start : Nat} {i : Instruction} {code : Code} :
    (pc, i) ∈ locate start code ↔
      ∃ pre post, code = pre ++ i :: post ∧ pc = start + pre.size := by
  induction code generalizing start with
  | nil => simp [locate]
  | cons i' rest ih =>
    rw [locate, List.mem_cons, ih, Prod.mk.injEq]
    constructor
    · rintro (⟨rfl, rfl⟩ | ⟨pre, post, rfl, rfl⟩)
      · exact ⟨[], rest, rfl, rfl⟩
      · exact ⟨i' :: pre, post, rfl, by rw [size_cons, Nat.add_assoc]⟩
    · rintro ⟨pre, post, hcode, rfl⟩
      cases pre with
      | nil =>
        obtain ⟨rfl, -⟩ := List.cons.inj hcode
        exact Or.inl ⟨rfl, rfl⟩
      | cons j pre =>
        obtain ⟨rfl, rfl⟩ := List.cons.inj hcode
        exact Or.inr ⟨pre, post, rfl, by rw [size_cons, Nat.add_assoc]⟩

/-- Instructions start at increasing places. -/
theorem pairwise_locate (pc : Nat) (code : Code) :
    ((locate pc code).map Prod.fst).Pairwise (· < ·) := by
  induction code generalizing pc with
  | nil => exact .nil
  | cons i rest ih =>
    refine .cons ?_ (ih _)
    intro pc' hpc'
    obtain ⟨⟨pc', i'⟩, hmem, rfl⟩ := List.mem_map.1 hpc'
    obtain ⟨pre, post, -, rfl⟩ := mem_locate.1 hmem
    have hi := i.size_pos
    dsimp only
    omega

theorem nodup_locate (pc : Nat) (code : Code) : ((locate pc code).map Prod.fst).Nodup :=
  (pairwise_locate pc code).imp fun h => Nat.ne_of_lt h

/-- Where an instruction starts tells what is in front of it. -/
theorem append_inj_of_size {pre pre' : Code} {i i' : Instruction} {post post' : Code}
    (h : pre ++ i :: post = pre' ++ i' :: post') (hsize : pre.size = pre'.size) :
    pre = pre' ∧ i = i' ∧ post = post' := by
  induction pre generalizing pre' with
  | nil =>
    cases pre' with
    | nil =>
      obtain ⟨hi, hpost⟩ := List.cons.inj h
      exact ⟨rfl, hi, hpost⟩
    | cons j pre' =>
      have hj := j.size_pos
      rw [size_nil, size_cons] at hsize
      omega
  | cons j pre ih =>
    cases pre' with
    | nil =>
      have hj := j.size_pos
      rw [size_nil, size_cons] at hsize
      omega
    | cons j' pre' =>
      obtain ⟨rfl, hrest⟩ := List.cons.inj h
      rw [size_cons, size_cons] at hsize
      obtain ⟨rfl, hi, hpost⟩ := ih hrest (by omega)
      exact ⟨rfl, hi, hpost⟩

/-- Where code is cut tells how many instructions are in front. -/
theorem length_eq_of_size {pre pre' post post' : Code} (h : pre ++ post = pre' ++ post')
    (hsize : pre.size = pre'.size) : pre.length = pre'.length := by
  rcases List.append_eq_append_iff.1 h with ⟨between, rfl, -⟩ | ⟨between, rfl, -⟩ <;>
  · have hlength := length_le_size between
    rw [size_append] at hsize
    rw [List.length_append]
    omega

/-- Code is cut in front of each of its instructions. -/
theorem exists_split {code : Code} {k : Nat} (h : k < code.length) :
    ∃ (pre : Code) (i : Instruction) (post : Code), code = pre ++ i :: post ∧ pre.length = k := by
  refine ⟨code.take k, code[k], code.drop (k + 1), ?_, List.length_take_of_le (Nat.le_of_lt h)⟩
  rw [List.getElem_cons_drop, List.take_append_drop]

/-- The instruction behind `pre` starts where `pre` ends. -/
theorem getElem?_locate (pc : Nat) (pre : Code) (i : Instruction) (post : Code) :
    (locate pc (pre ++ i :: post))[pre.length]? = some (pc + pre.size, i) := by
  rw [locate_append, List.getElem?_append_right (by simp), length_locate, Nat.sub_self]
  rfl

end Code

end Classwright
