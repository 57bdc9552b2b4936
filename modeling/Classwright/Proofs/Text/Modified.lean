import Classwright.Text.Modified
import Mathlib

/-!
# Reading back the strings of class files

A valid text is read back from its encoding (`Text.IsUtf8.decode?_encode`).  Every string that can
be read is a valid text (`ModifiedUtf8.isUtf8_of_decode?`), and its own encoding is not longer than
the bytes it was read from, whatever overlong forms and lone surrogates these hold
(`ModifiedUtf8.length_encode_le`).  No encoding holds a zero byte or a byte above `0xEF`
(`ModifiedUtf8.bounds_of_mem_encode`).
-/

namespace Classwright

/-- The texts that are valid UTF-8: the encodings of some characters, one behind the other. -/
def Text.IsUtf8 (t : Text) : Prop :=
  ∃ characters : List Char, t = characters.flatMap Utf8.encode

/-- A character is no surrogate, and its number is below `0x110000`. -/
theorem char_bounds (c : Char) :
    c.toNat < 0xD800 ∨ 0xDFFF < c.toNat ∧ c.toNat < 0x110000 :=
  c.valid

/-! ### UTF-8 -/

namespace Utf8

theorem continuation?_ofNat (n : Nat) :
    continuation? (UInt8.ofNat (0x80 + n % 0x40)) = some (n % 0x40) := by
  have hbyte : (UInt8.ofNat (0x80 + n % 0x40)).toNat = 0x80 + n % 0x40 := by
    rw [UInt8.toNat_ofNat']
    omega
  rw [continuation?, hbyte, if_pos (by omega), Nat.add_sub_cancel_left]

theorem lt_of_continuation? {b : UInt8} {n : Nat} (h : continuation? b = some n) : n < 0x40 := by
  unfold continuation? at h
  split at h
  · have hn := Option.some.inj h
    omega
  · simp at h

theorem scalar?_toNat {least : Nat} {c : Char} (h : least ≤ c.toNat) :
    scalar? least c.toNat = some c := by
  have hvalid : c.toNat.isValidChar := c.valid
  rw [scalar?, if_pos ⟨h, hvalid⟩, Char.ofNat_toNat]

/-- A character is read back from its bytes, and they are all that is taken. -/
theorem first?_encode (c : Char) : ∃ lead more, encode c = lead :: more ∧
    ∀ rest, first? lead (more ++ rest) = some (c, more.length) := by
  have hbounds := char_bounds c
  have hlead {n : Nat} (hn : n < 0x100) : (UInt8.ofNat n).toNat = n := by
    rw [UInt8.toNat_ofNat']
    omega
  unfold encode
  dsimp only
  -- The four lengths of an encoding; the lead byte tells the reader which one it is.
  split
  · rename_i hone
    refine ⟨_, _, rfl, fun rest => ?_⟩
    simp only [first?, hlead (show c.toNat < 0x100 by omega), if_pos hone, Char.ofNat_toNat,
      List.length_nil]
  · split
    · rename_i hone htwo
      have hvalue : (0xC0 + c.toNat / 0x40 - 0xC0) * 0x40 + c.toNat % 0x40 = c.toNat := by omega
      refine ⟨_, _, rfl, fun rest => ?_⟩
      simp only [first?, hlead (show 0xC0 + c.toNat / 0x40 < 0x100 by omega), List.cons_append]
      rw [if_neg (by omega), if_neg (by omega), if_pos (by omega)]
      refine Option.bind_eq_some_iff.2 ⟨_, continuation?_ofNat _,
        Option.bind_eq_some_iff.2 ⟨c, ?_, rfl⟩⟩
      rw [hvalue, scalar?_toNat (Nat.le_of_not_lt hone)]
    · split
      · rename_i hone htwo hthree
        have hvalue : (0xE0 + c.toNat / 0x1000 - 0xE0) * 0x1000 + c.toNat / 0x40 % 0x40 * 0x40 +
            c.toNat % 0x40 = c.toNat := by omega
        refine ⟨_, _, rfl, fun rest => ?_⟩
        simp only [first?, hlead (show 0xE0 + c.toNat / 0x1000 < 0x100 by omega),
          List.cons_append]
        rw [if_neg (by omega), if_neg (by omega), if_neg (by omega), if_pos (by omega)]
        refine Option.bind_eq_some_iff.2 ⟨_, continuation?_ofNat _,
          Option.bind_eq_some_iff.2 ⟨_, continuation?_ofNat _,
            Option.bind_eq_some_iff.2 ⟨c, ?_, rfl⟩⟩⟩
        rw [hvalue, scalar?_toNat (Nat.le_of_not_lt htwo)]
      · rename_i hone htwo hthree
        have hvalue : (0xF0 + c.toNat / 0x40000 - 0xF0) * 0x40000 +
            c.toNat / 0x1000 % 0x40 * 0x1000 + c.toNat / 0x40 % 0x40 * 0x40 + c.toNat % 0x40 =
              c.toNat := by omega
        refine ⟨_, _, rfl, fun rest => ?_⟩
        simp only [first?, hlead (show 0xF0 + c.toNat / 0x40000 < 0x100 by omega),
          List.cons_append]
        rw [if_neg (by omega), if_neg (by omega), if_neg (by omega), if_neg (by omega),
          if_pos (by omega)]
        refine Option.bind_eq_some_iff.2 ⟨_, continuation?_ofNat _,
          Option.bind_eq_some_iff.2 ⟨_, continuation?_ofNat _,
            Option.bind_eq_some_iff.2 ⟨_, continuation?_ofNat _,
              Option.bind_eq_some_iff.2 ⟨c, ?_, rfl⟩⟩⟩⟩
        rw [hvalue, scalar?_toNat (Nat.le_of_not_lt hthree)]

theorem pieces_encode_append (c : Char) (rest : List UInt8) :
    pieces (encode c ++ rest) = .scalar c :: pieces rest := by
  obtain ⟨lead, more, hencode, hfirst⟩ := first?_encode c
  rw [hencode, List.cons_append, pieces, hfirst rest]
  dsimp only
  rw [List.drop_left]

end Utf8

theorem Text.characters_flatMap_encode (cs : List Char) :
    Text.characters (cs.flatMap Utf8.encode) = cs := by
  unfold Text.characters
  induction cs with
  | nil =>
    rw [List.flatMap_nil, Utf8.pieces]
    rfl
  | cons c cs ih =>
    rw [List.flatMap_cons, Utf8.pieces_encode_append, List.map_cons, ih]
    rfl

/-! ### Sixteen-bit units -/

namespace ModifiedUtf8

/-- The units of a character: one, or the two surrogates of a pair. -/
def unitsOf (c : Char) : List Nat :=
  if c.toNat < 0x10000 then [c.toNat]
  else [0xD800 + (c.toNat - 0x10000) / 0x400, 0xDC00 + (c.toNat - 0x10000) % 0x400]

theorem units?_encodeThree_append {unit : Nat} (h : unit < 0x10000) (rest : List UInt8) :
    units? (encodeThree unit ++ rest) = (units? rest).map (unit :: ·) := by
  have hlead : (UInt8.ofNat (0xE0 + unit / 0x1000)).toNat = 0xE0 + unit / 0x1000 := by
    rw [UInt8.toNat_ofNat']
    omega
  have hvalue : (0xE0 + unit / 0x1000 - 0xE0) * 0x1000 + unit / 0x40 % 0x40 * 0x40 +
      unit % 0x40 = unit := by omega
  unfold encodeThree
  rw [List.cons_append, List.cons_append, List.cons_append, List.nil_append, units?]
  simp only [hlead]
  rw [if_neg (by omega), if_neg (by omega), if_neg (by omega), if_pos (by omega)]
  simp only [Utf8.continuation?_ofNat, Option.bind_eq_bind, Option.bind_some, hvalue]
  cases units? rest <;> rfl

theorem units?_encodeChar_append (c : Char) (rest : List UInt8) :
    units? (encodeChar c ++ rest) = (units? rest).map (unitsOf c ++ ·) := by
  have hbounds := char_bounds c
  unfold encodeChar unitsOf
  dsimp only
  split
  · -- NUL is written in two bytes.
    rename_i hzero
    rw [if_pos (by omega), hzero]
    simp only [List.cons_append, List.nil_append, units?]
    cases units? rest <;> rfl
  · split
    · rename_i hzero hone
      have hbyte : (UInt8.ofNat c.toNat).toNat = c.toNat := by
        rw [UInt8.toNat_ofNat']
        omega
      rw [if_pos (by omega), List.singleton_append]
      conv_lhs => unfold units?
      simp only [hbyte, if_pos hone, if_neg hzero, List.singleton_append]
    · split
      · rename_i hzero hone htwo
        have hlead : (UInt8.ofNat (0xC0 + c.toNat / 0x40)).toNat = 0xC0 + c.toNat / 0x40 := by
          rw [UInt8.toNat_ofNat']
          omega
        have hvalue : (0xC0 + c.toNat / 0x40 - 0xC0) * 0x40 + c.toNat % 0x40 = c.toNat := by omega
        rw [if_pos (by omega), List.cons_append, List.cons_append, List.nil_append, units?]
        simp only [hlead]
        rw [if_neg (by omega), if_neg (by omega), if_pos (by omega)]
        simp only [Utf8.continuation?_ofNat, Option.bind_eq_bind, Option.bind_some, hvalue]
        cases units? rest <;> rfl
      · split
        · rename_i hthree
          rw [units?_encodeThree_append hthree]
          rfl
        · rename_i hthree
          rw [List.append_assoc, units?_encodeThree_append (by omega),
            units?_encodeThree_append (by omega), Option.map_map]
          rfl

theorem scalarOrReplacement_toNat (c : Char) : scalarOrReplacement c.toNat = c := by
  have hvalid : c.toNat.isValidChar := c.valid
  rw [scalarOrReplacement, if_pos hvalid, Char.ofNat_toNat]

theorem joinUnits_unitsOf_append (c : Char) (rest : List Nat) :
    joinUnits (unitsOf c ++ rest) = c :: joinUnits rest := by
  have hbounds := char_bounds c
  unfold unitsOf
  split
  · -- One unit is no high surrogate, so it is never joined with the next one.
    have hhigh : isHigh c.toNat = false := by
      simp only [isHigh, Bool.and_eq_false_iff, decide_eq_false_iff_not]
      omega
    cases rest with
    | nil => simp only [List.append_nil, joinUnits, scalarOrReplacement_toNat]
    | cons next others =>
      rw [List.singleton_append, joinUnits, hhigh, Bool.false_and, if_neg Bool.false_ne_true,
        scalarOrReplacement_toNat]
  · rename_i hlarge
    have hhigh : isHigh (0xD800 + (c.toNat - 0x10000) / 0x400) = true := by
      simp only [isHigh, Bool.and_eq_true, decide_eq_true_eq]
      omega
    have hlow : isLow (0xDC00 + (c.toNat - 0x10000) % 0x400) = true := by
      simp only [isLow, Bool.and_eq_true, decide_eq_true_eq]
      omega
    have hvalue : 0x10000 + (0xD800 + (c.toNat - 0x10000) / 0x400 - 0xD800) * 0x400 +
        (0xDC00 + (c.toNat - 0x10000) % 0x400 - 0xDC00) = c.toNat := by omega
    rw [List.cons_append, List.singleton_append, joinUnits, hhigh, hlow, Bool.true_and,
      if_pos rfl, hvalue, scalarOrReplacement_toNat]

theorem units?_flatMap_encodeChar (cs : List Char) :
    units? (cs.flatMap encodeChar) = some (cs.flatMap unitsOf) := by
  induction cs with
  | nil => rfl
  | cons c cs ih =>
    rw [List.flatMap_cons, units?_encodeChar_append, ih, Option.map_some, List.flatMap_cons]

theorem encode_flatMap_encode (cs : List Char) :
    encode (cs.flatMap Utf8.encode) = cs.flatMap encodeChar := by
  rw [encode, Text.characters_flatMap_encode]

theorem joinUnits_flatMap_unitsOf (cs : List Char) : joinUnits (cs.flatMap unitsOf) = cs := by
  induction cs with
  | nil => rfl
  | cons c cs ih => rw [List.flatMap_cons, joinUnits_unitsOf_append, ih]

end ModifiedUtf8

/-- A valid text is read back from its encoding. -/
theorem Text.IsUtf8.decode?_encode {t : Text} (h : t.IsUtf8) :
    ModifiedUtf8.decode? (ModifiedUtf8.encode t) = some t := by
  obtain ⟨cs, rfl⟩ := h
  rw [ModifiedUtf8.encode_flatMap_encode, ModifiedUtf8.decode?,
    ModifiedUtf8.units?_flatMap_encodeChar, Option.map_some,
    ModifiedUtf8.joinUnits_flatMap_unitsOf]

/-! ### Strings that have been read -/

namespace ModifiedUtf8

/-- How many bytes the encoding of a unit takes. -/
def width (unit : Nat) : Nat :=
  if unit = 0 then 2 else if unit < 0x80 then 1 else if unit < 0x800 then 2 else 3

/-- Each unit that has been read is written in at most as many bytes. -/
theorem width_le_of_units? {bytes : List UInt8} {units : List Nat} (h : units? bytes = some units) :
    (∀ unit ∈ units, unit < 0x10000) ∧ (units.map width).sum ≤ bytes.length := by
  fun_induction units? bytes generalizing units
  case case1 =>
    obtain rfl := Option.some.inj h
    simp
  case case3 a rest n hone hzero ih =>
    obtain ⟨others, hothers, rfl⟩ := Option.map_eq_some_iff.1 h
    obtain ⟨hlt, hsum⟩ := ih hothers
    -- a unit of one byte is not 0, which takes two
    have hwidth : width n = 1 := by rw [width, if_neg hzero, if_pos hone]
    refine ⟨List.forall_mem_cons.2 ⟨by omega, hlt⟩, ?_⟩
    rw [List.map_cons, List.sum_cons, List.length_cons]
    omega
  case case5 a n hone hstray htwo b rest ih =>
    simp only [Option.bind_eq_bind, Option.bind_eq_some_iff, Option.pure_def,
      Option.some.injEq] at h
    obtain ⟨x, hx, others, hothers, rfl⟩ := h
    obtain ⟨hlt, hsum⟩ := ih hothers
    have hx := Utf8.lt_of_continuation? hx
    -- two bytes have five and six bits
    have hwidth : width ((n - 0xC0) * 0x40 + x) ≤ 2 := by
      unfold width
      split_ifs <;> omega
    refine ⟨List.forall_mem_cons.2 ⟨by omega, hlt⟩, ?_⟩
    rw [List.map_cons, List.sum_cons, List.length_cons, List.length_cons]
    omega
  case case7 a n hone hstray htwo hthree b c rest ih =>
    simp only [Option.bind_eq_bind, Option.bind_eq_some_iff, Option.pure_def,
      Option.some.injEq] at h
    obtain ⟨x, hx, y, hy, others, hothers, rfl⟩ := h
    obtain ⟨hlt, hsum⟩ := ih hothers
    have hx := Utf8.lt_of_continuation? hx
    have hy := Utf8.lt_of_continuation? hy
    -- no unit takes more than three bytes
    have hwidth : width ((n - 0xE0) * 0x1000 + x * 0x40 + y) ≤ 3 := by
      unfold width
      split_ifs <;> omega
    refine ⟨List.forall_mem_cons.2 ⟨by omega, hlt⟩, ?_⟩
    rw [List.map_cons, List.sum_cons, List.length_cons, List.length_cons, List.length_cons]
    omega
  all_goals simp at h

theorem length_encodeChar (c : Char) :
    (encodeChar c).length = if c.toNat < 0x10000 then width c.toNat else 6 := by
  unfold encodeChar width encodeThree
  dsimp only
  split_ifs <;> first | rfl | omega

/-- A unit that is no character is replaced by one that takes three bytes, as a surrogate does. -/
theorem length_encodeChar_scalarOrReplacement {unit : Nat} (h : unit < 0x10000) :
    (encodeChar (scalarOrReplacement unit)).length = width unit := by
  unfold scalarOrReplacement
  split
  · rename_i hvalid
    have hunit : (Char.ofNat unit).toNat = unit := by
      rw [Char.ofNat, dif_pos hvalid]
      rfl
    rw [length_encodeChar, hunit, if_pos h]
  · rename_i hvalid
    have hsurrogate : ¬ unit < 0xD800 := fun hlt => hvalid (Or.inl hlt)
    have hwidth : width unit = 3 := by
      unfold width
      split_ifs <;> omega
    rw [hwidth]
    rfl

theorem length_encode_joinUnits {units : List Nat} (h : ∀ unit ∈ units, unit < 0x10000) :
    ((joinUnits units).flatMap encodeChar).length = (units.map width).sum := by
  fun_induction joinUnits units with
  | case1 => rfl
  | case2 unit =>
    have hunit := h unit (by simp)
    simp [length_encodeChar_scalarOrReplacement hunit]
  | case3 unit next others hpair ih =>
    simp only [List.forall_mem_cons] at h
    simp only [isHigh, isLow, Bool.and_eq_true, decide_eq_true_eq] at hpair
    have hvalid : (0x10000 + (unit - 0xD800) * 0x400 + (next - 0xDC00)).isValidChar :=
      Or.inr (by omega)
    have hscalar : (scalarOrReplacement
        (0x10000 + (unit - 0xD800) * 0x400 + (next - 0xDC00))).toNat =
          0x10000 + (unit - 0xD800) * 0x400 + (next - 0xDC00) := by
      rw [scalarOrReplacement, if_pos hvalid, Char.ofNat, dif_pos hvalid]
      rfl
    have hunit : width unit = 3 := by
      unfold width
      split_ifs <;> omega
    have hnext : width next = 3 := by
      unfold width
      split_ifs <;> omega
    rw [List.flatMap_cons, List.length_append, length_encodeChar, hscalar, if_neg (by omega),
      ih h.2.2, List.map_cons, List.map_cons, List.sum_cons, List.sum_cons, hunit, hnext]
    omega
  | case4 unit next others hpair ih =>
    rw [List.forall_mem_cons] at h
    rw [List.flatMap_cons, List.length_append, length_encodeChar_scalarOrReplacement h.1, ih h.2]
    rfl

/-- What has been read is valid. -/
theorem isUtf8_of_decode? {bytes : List UInt8} {t : Text} (h : decode? bytes = some t) :
    t.IsUtf8 := by
  obtain ⟨units, -, rfl⟩ := Option.map_eq_some_iff.1 h
  exact ⟨joinUnits units, rfl⟩

/-- What has been read is not longer when it is written again. -/
theorem length_encode_le {bytes : List UInt8} {t : Text} (h : decode? bytes = some t) :
    (encode t).length ≤ bytes.length := by
  obtain ⟨units, hunits, rfl⟩ := Option.map_eq_some_iff.1 h
  obtain ⟨hlt, hsum⟩ := width_le_of_units? hunits
  calc (encode ((joinUnits units).flatMap Utf8.encode)).length
      = ((joinUnits units).flatMap encodeChar).length := by rw [encode_flatMap_encode]
    _ = (units.map width).sum := length_encode_joinUnits hlt
    _ ≤ bytes.length := hsum

/-! ### The bytes of an encoding -/

theorem byte_bounds {n : Nat} (hpos : 0 < n) (hle : n ≤ 0xEF) :
    UInt8.ofNat n ≠ 0 ∧ UInt8.ofNat n ≤ 0xEF := by
  have hbyte : (UInt8.ofNat n).toNat = n := by
    rw [UInt8.toNat_ofNat']
    omega
  constructor
  · intro hzero
    rw [hzero] at hbyte
    exact absurd hbyte (Nat.ne_of_lt hpos)
  · rw [UInt8.le_iff_toNat_le, hbyte]
    exact hle

theorem bounds_of_mem_encodeThree {unit : Nat} (h : unit < 0x10000) {b : UInt8}
    (hb : b ∈ encodeThree unit) : b ≠ 0 ∧ b ≤ 0xEF := by
  simp only [encodeThree, List.mem_cons, List.not_mem_nil, or_false] at hb
  rcases hb with rfl | rfl | rfl
  all_goals apply byte_bounds
  all_goals omega

theorem bounds_of_mem_encodeChar {c : Char} {b : UInt8} (hb : b ∈ encodeChar c) :
    b ≠ 0 ∧ b ≤ 0xEF := by
  have hbounds := char_bounds c
  unfold encodeChar at hb
  dsimp only at hb
  split at hb
  · -- NUL, the one character whose number would be a zero byte
    rcases List.mem_pair.1 hb with rfl | rfl
    all_goals decide
  · split at hb
    · rw [List.mem_singleton.1 hb]
      apply byte_bounds
      all_goals omega
    · split at hb
      · rcases List.mem_pair.1 hb with rfl | rfl
        all_goals apply byte_bounds
        all_goals omega
      · split at hb
        · rename_i hunit
          exact bounds_of_mem_encodeThree hunit hb
        · rcases List.mem_append.1 hb with hhigh | hlow
          · exact bounds_of_mem_encodeThree (by omega) hhigh
          · exact bounds_of_mem_encodeThree (by omega) hlow

theorem bounds_of_mem_encode {t : Text} {b : UInt8} (hb : b ∈ encode t) : b ≠ 0 ∧ b ≤ 0xEF := by
  obtain ⟨c, -, hc⟩ := List.mem_flatMap.1 hb
  exact bounds_of_mem_encodeChar hc

/-- Encoding and decoding.  A valid text is read back from its encoding, which holds no zero byte
and no byte above `0xEF`.  What has been read from any bytes is written in at most as many, and
read back from these. -/
theorem decode?_encode_inverse :
    (∀ t : Text, t.IsUtf8 → decode? (encode t) = some t ∧ ∀ b ∈ encode t, b ≠ 0 ∧ b ≤ 0xEF) ∧
    ∀ (bytes : List UInt8) (t : Text), decode? bytes = some t →
      (encode t).length ≤ bytes.length ∧ decode? (encode t) = some t := by
  constructor
  · intro t ht
    exact ⟨ht.decode?_encode, fun b hb => bounds_of_mem_encode hb⟩
  · intro bytes t h
    exact ⟨length_encode_le h, (isUtf8_of_decode? h).decode?_encode⟩

/-- NUL, two, three and four bytes of UTF-8; and an overlong form of `A`, a lone low surrogate and
a high one that is followed by no low one. -/
theorem decode?_encode_inverse_mixed :
    let t := [Char.ofNat 0, 'é', '€', '😀'].flatMap Utf8.encode
    let bytes : List UInt8 := [0xC1, 0x81, 0xED, 0xB0, 0x80, 0xED, 0xA0, 0x80, 0x41]
    let read := ['A', Char.ofNat 0xFFFD, Char.ofNat 0xFFFD, 'A'].flatMap Utf8.encode
    (decode? (encode t) = some t ∧ ∀ b ∈ encode t, b ≠ 0 ∧ b ≤ 0xEF) ∧
    decode? bytes = some read ∧
    (encode read).length ≤ bytes.length ∧ decode? (encode read) = some read := by
  have hread : decode? [0xC1, 0x81, 0xED, 0xB0, 0x80, 0xED, 0xA0, 0x80, 0x41] =
      some (['A', Char.ofNat 0xFFFD, Char.ofNat 0xFFFD, 'A'].flatMap Utf8.encode) := by decide
  exact ⟨decode?_encode_inverse.1 _ ⟨_, rfl⟩, hread, decode?_encode_inverse.2 _ _ hread⟩

end ModifiedUtf8

end Classwright
