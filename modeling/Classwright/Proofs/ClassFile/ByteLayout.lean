import Classwright.Proofs.ClassFile.RoundTrip

/-!
# The layout of class files

The bytes that are accepted as a class file are exactly those laid out as the format says
(`ClassFile.decode_eq_ok_iff`).  Interfaces, attributes of the class and other than the shortest
encodings of strings are accepted, and dropped when the class file is written again.  A file that
has been read can always be written and read back, and reading and writing are inverse to each other
(`ClassFile.decode_encode_inverse`).
-/

namespace Classwright

/-! ### What has been read -/

theorem BigEndian.four_ofFour (a b c d : UInt8) :
    BigEndian.four (BigEndian.ofFour a b c d) = [a, b, c, d] := by
  have ha := a.toNat_lt
  have hb := b.toNat_lt
  have hc := c.toNat_lt
  have hd := d.toNat_lt
  have hbyte {n : Nat} {x : UInt8} (h : n % 0x100 = x.toNat) : UInt8.ofNat n = x := by
    apply UInt8.toNat.inj
    rw [UInt8.toNat_ofNat']
    exact h
  unfold BigEndian.four BigEndian.ofFour
  rw [hbyte (x := a) (by omega), hbyte (x := b) (by omega), hbyte (x := c) (by omega),
    hbyte (x := d) (by omega)]

namespace Reader

variable {bytes rest : List UInt8}

theorem split?_eq_some {n : Nat} {taken : List UInt8} (h : split? n bytes = some (taken, rest)) :
    taken.length = n ∧ bytes = taken ++ rest := by
  induction n generalizing bytes taken with
  | zero =>
    simp only [split?, Option.some.injEq, Prod.mk.injEq] at h
    obtain ⟨rfl, rfl⟩ := h
    exact ⟨rfl, rfl⟩
  | succ n ih =>
    cases bytes with
    | nil => simp [split?] at h
    | cons b others =>
      obtain ⟨⟨taken', rest'⟩, hsplit, hr⟩ := Option.map_eq_some_iff.1 h
      obtain ⟨rfl, rfl⟩ := Prod.mk.injEq .. ▸ hr
      obtain ⟨hlength, rfl⟩ := ih hsplit
      exact ⟨congrArg (· + 1) hlength, rfl⟩

theorem take_eq_ok {n : Nat} {taken : List UInt8} (h : take n bytes = .ok (taken, rest)) :
    taken.length = n ∧ bytes = taken ++ rest := by
  unfold take at h
  split at h
  · rename_i r hsplit
    obtain rfl := Except.ok.inj h
    exact split?_eq_some hsplit
  · simp at h

theorem one_eq_ok {b : UInt8} (h : one bytes = .ok (b, rest)) : bytes = b :: rest := by
  cases bytes with
  | nil => simp [one] at h
  | cons x others =>
    simp only [one, Except.ok.injEq, Prod.mk.injEq] at h
    obtain ⟨rfl, rfl⟩ := h
    rfl

theorem two_eq_ok {w : UInt16} (h : two bytes = .ok (w, rest)) :
    bytes = BigEndian.two w.toNat ++ rest := by
  unfold two at h
  split at h
  · rename_i a b others
    simp only [Except.ok.injEq, Prod.mk.injEq] at h
    obtain ⟨rfl, rfl⟩ := h
    have hlt : BigEndian.ofTwo a b < 0x10000 := by
      have ha := a.toNat_lt
      have hb := b.toNat_lt
      unfold BigEndian.ofTwo
      omega
    rw [UInt16.toNat_ofNat_of_lt' hlt, BigEndian.two_ofTwo]
    rfl
  · simp at h

theorem four_eq_ok {n : Nat} (h : four bytes = .ok (n, rest)) :
    n ≤ 0xFFFFFFFF ∧ bytes = BigEndian.four n ++ rest := by
  unfold four at h
  split at h
  · rename_i a b c d others
    simp only [Except.ok.injEq, Prod.mk.injEq] at h
    obtain ⟨rfl, rfl⟩ := h
    have hle : BigEndian.ofFour a b c d ≤ 0xFFFFFFFF := by
      have ha := a.toNat_lt
      have hb := b.toNat_lt
      have hc := c.toNat_lt
      have hd := d.toNat_lt
      unfold BigEndian.ofFour
      omega
    exact ⟨hle, by rw [BigEndian.four_ofFour]; rfl⟩
  · simp at h

/-- When each value has been read from what is written for it, so has the row of them. -/
theorem times_eq_ok {α : Type} {read : Reader α} {write : α → List UInt8} {P : α → Prop}
    (h : ∀ {bytes x rest}, read bytes = .ok (x, rest) → P x ∧ bytes = write x ++ rest) {n : Nat}
    {xs : List α} (hxs : times read n bytes = .ok (xs, rest)) :
    xs.length = n ∧ (∀ x ∈ xs, P x) ∧ bytes = xs.flatMap write ++ rest := by
  induction n generalizing bytes xs with
  | zero =>
    simp only [times, Except.ok.injEq, Prod.mk.injEq] at hxs
    obtain ⟨rfl, rfl⟩ := hxs
    exact ⟨rfl, by simp, rfl⟩
  | succ n ih =>
    simp only [times, bind_eq_ok, pure_eq_ok] at hxs
    obtain ⟨⟨x, bytes'⟩, hx, ⟨others, rest'⟩, hothers, hr⟩ := hxs
    obtain ⟨rfl, rfl⟩ := Prod.mk.injEq .. ▸ hr
    obtain ⟨hP, rfl⟩ := h hx
    obtain ⟨hlength, hall, rfl⟩ := ih hothers
    refine ⟨congrArg (· + 1) hlength, List.forall_mem_cons.2 ⟨hP, hall⟩, ?_⟩
    rw [List.flatMap_cons, List.append_assoc]

theorem oneAttribute_eq_ok {a : Attribute} (h : oneAttribute bytes = .ok (a, rest)) :
    a.Regular ∧ bytes = a.encode ++ rest := by
  simp only [oneAttribute, bind_eq_ok, pure_eq_ok] at h
  obtain ⟨⟨name, bytes₁⟩, hname, ⟨length, bytes₂⟩, hlength, ⟨data, bytes₃⟩, hdata, hr⟩ := h
  obtain ⟨rfl, rfl⟩ := Prod.mk.injEq .. ▸ hr
  obtain rfl := two_eq_ok hname
  obtain ⟨hle, rfl⟩ := four_eq_ok hlength
  obtain ⟨rfl, rfl⟩ := take_eq_ok hdata
  exact ⟨hle, by simp only [Attribute.encode, List.append_assoc]⟩

theorem attributes_eq_ok {as : List Attribute} (h : attributes bytes = .ok (as, rest)) :
    as.length ≤ 0xFFFF ∧ (∀ a ∈ as, a.Regular) ∧
      bytes = BigEndian.two as.length ++ (as.flatMap Attribute.encode ++ rest) := by
  simp only [attributes, bind_eq_ok] at h
  obtain ⟨⟨count, bytes₁⟩, hcount, htimes⟩ := h
  obtain rfl := two_eq_ok hcount
  obtain ⟨hlength, hall, rfl⟩ := times_eq_ok oneAttribute_eq_ok htimes
  rw [hlength]
  exact ⟨Nat.le_of_lt_succ count.toNat_lt, hall, rfl⟩

theorem member_eq_ok {m : Member} (h : member bytes = .ok (m, rest)) :
    m.Regular ∧ bytes = m.encode ++ rest := by
  simp only [member, bind_eq_ok, pure_eq_ok] at h
  obtain ⟨⟨flags, bytes₁⟩, hflags, ⟨name, bytes₂⟩, hname, ⟨descriptor, bytes₃⟩, hdescriptor,
    ⟨as, bytes₄⟩, has, hr⟩ := h
  obtain ⟨rfl, rfl⟩ := Prod.mk.injEq .. ▸ hr
  obtain rfl := two_eq_ok hflags
  obtain rfl := two_eq_ok hname
  obtain rfl := two_eq_ok hdescriptor
  obtain ⟨hlength, hall, rfl⟩ := attributes_eq_ok has
  exact ⟨⟨hlength, hall⟩, by simp only [Member.encode, List.append_assoc]⟩

theorem members_eq_ok {ms : List Member} (h : members bytes = .ok (ms, rest)) :
    ms.length ≤ 0xFFFF ∧ (∀ m ∈ ms, m.Regular) ∧ bytes = Member.encodeAll ms ++ rest := by
  simp only [members, bind_eq_ok] at h
  obtain ⟨⟨count, bytes₁⟩, hcount, htimes⟩ := h
  obtain rfl := two_eq_ok hcount
  obtain ⟨hlength, hall, rfl⟩ := times_eq_ok member_eq_ok htimes
  rw [Member.encodeAll, hlength, List.append_assoc]
  exact ⟨Nat.le_of_lt_succ count.toNat_lt, hall, rfl⟩

end Reader

/-! ### Pool entries -/

/-- A pool entry with the bytes that hold it. -/
inductive PoolEntry where
  /-- A string, in any of the ways it can be written. -/
  | string (text : Text) (raw : List UInt8) (reads : ModifiedUtf8.decode? raw = some text)
    (length_le : raw.length ≤ 0xFFFF)
  /-- An entry of another known kind, which can be written in one way only. -/
  | fixed (c : Constant) (bytes : List UInt8) (noString : ∀ t, c ≠ .utf8 t)
    (written : c.encode = .ok bytes)

namespace PoolEntry

/-- The entry that is read. -/
def constant : PoolEntry → Constant
  | string text _ _ _ => .utf8 text
  | fixed c _ _ _ => c

/-- Its bytes. -/
def bytes : PoolEntry → List UInt8
  | string _ raw _ _ => Tag.utf8.byte :: (BigEndian.two raw.length ++ raw)
  | fixed _ bytes _ _ => bytes

/-- Whether a string is written in the way it is encoded. -/
def IsCanonical : PoolEntry → Prop
  | string text raw _ _ => raw = ModifiedUtf8.encode text
  | fixed _ _ _ _ => True

theorem encode_of_isCanonical {e : PoolEntry} (h : e.IsCanonical) :
    e.constant.encode = .ok e.bytes := by
  cases e with
  | string text raw reads length_le =>
    obtain rfl : raw = ModifiedUtf8.encode text := h
    simp only [constant, Constant.encode, if_neg (Nat.not_lt_of_le length_le), bytes]
  | fixed c bytes noString written => exact written

theorem encodeAll_of_isCanonical {es : List PoolEntry} (h : ∀ e ∈ es, e.IsCanonical) :
    Constant.encodeAll (es.map constant) = .ok (es.flatMap bytes) := by
  induction es with
  | nil => rfl
  | cons e es ih =>
    obtain ⟨he, hes⟩ := List.forall_mem_cons.1 h
    rw [List.map_cons, Constant.encodeAll, encode_of_isCanonical he, ok_bind, ih hes, ok_bind,
      List.flatMap_cons]
    rfl

/-- A string that has been read can be written, since it does not get longer. -/
theorem isUtf8_of_constant {e : PoolEntry} {t : Text} (h : e.constant = .utf8 t) :
    t.IsUtf8 ∧ (ModifiedUtf8.encode t).length ≤ 0xFFFF := by
  cases e with
  | string text raw reads length_le =>
    obtain rfl := Constant.utf8.inj h
    exact ⟨ModifiedUtf8.isUtf8_of_decode? reads,
      Nat.le_trans (ModifiedUtf8.length_encode_le reads) length_le⟩
  | fixed c bytes noString written => exact absurd h (noString t)

theorem constant_ne_other (e : PoolEntry) (tag : UInt8) (first second : UInt16) (value : Int32) :
    e.constant ≠ .other tag first second value := by
  cases e with
  | string text raw reads length_le => simp [constant]
  | fixed c bytes noString written =>
    rintro rfl
    simp [Constant.encode] at written

end PoolEntry

namespace Reader

variable {bytes rest : List UInt8}

theorem constant_bytes_append (e : PoolEntry) (rest : List UInt8) :
    constant (e.bytes ++ rest) = .ok (e.constant, rest) := by
  cases e with
  | string text raw reads length_le =>
    have htag : Tag.ofByte Tag.utf8.byte = .utf8 := rfl
    simp only [PoolEntry.bytes, constant, List.cons_append, one, ok_bind, htag, List.append_assoc,
      two_append length_le, UInt16.toNat_ofNat_of_lt' (Nat.lt_succ_of_le length_le), Reader.text,
      take_append rfl, reads]
    rfl
  | fixed c bytes noString written =>
    exact constant_append written (fun t ht => absurd ht (noString t)) rest

theorem twoIndexes_eq_ok {make : UInt16 → UInt16 → Constant} {c : Constant}
    (h : (two bytes >>= fun x => two x.2 >>= fun y => pure (make x.1 y.1, y.2)) = .ok (c, rest)) :
    ∃ a b : UInt16, make a b = c ∧
      bytes = BigEndian.two a.toNat ++ BigEndian.two b.toNat ++ rest := by
  simp only [bind_eq_ok, pure_eq_ok] at h
  obtain ⟨⟨a, bytes₁⟩, ha, ⟨b, bytes₂⟩, hb, hr⟩ := h
  obtain ⟨rfl, rfl⟩ := Prod.mk.injEq .. ▸ hr
  obtain rfl := two_eq_ok ha
  obtain rfl := two_eq_ok hb
  exact ⟨a, b, rfl, by rw [List.append_assoc]⟩

theorem constant_eq_ok {c : Constant} (h : constant bytes = .ok (c, rest)) :
    ∃ e : PoolEntry, e.constant = c ∧ bytes = e.bytes ++ rest := by
  simp only [constant, bind_eq_ok] at h
  obtain ⟨⟨tag, bytes₁⟩, htag, h⟩ := h
  obtain rfl := one_eq_ok htag
  -- A known tag is the byte of its kind, so the entry is written with the tag it was read with.
  have hbyte {kind : Tag} (hkind : Tag.ofByte tag = kind) : tag = kind.byte := by
    subst hkind
    unfold Tag.ofByte
    split <;> rfl
  dsimp only at h
  split at h
  · rename_i hkind
    simp only [bind_eq_ok, pure_eq_ok] at h
    obtain ⟨⟨length, bytes₂⟩, hlength, ⟨text, bytes₃⟩, htext, hr⟩ := h
    obtain ⟨rfl, rfl⟩ := Prod.mk.injEq .. ▸ hr
    obtain rfl := two_eq_ok hlength
    -- a string has its length in front of its bytes
    simp only [Reader.text, bind_eq_ok] at htext
    obtain ⟨⟨raw, bytes₄⟩, htake, htext⟩ := htext
    obtain ⟨hraw, rfl⟩ := take_eq_ok htake
    dsimp only at htext
    split at htext
    · rename_i read hdecode
      obtain ⟨rfl, rfl⟩ := Prod.mk.injEq .. ▸ pure_eq_ok.1 htext
      have hle : raw.length ≤ 0xFFFF := hraw ▸ Nat.le_of_lt_succ length.toNat_lt
      refine ⟨.string read raw hdecode hle, rfl, ?_⟩
      rw [PoolEntry.bytes, hraw, hbyte hkind, List.cons_append, List.append_assoc]
    · simp at htext
  · rename_i hkind
    simp only [bind_eq_ok, pure_eq_ok] at h
    obtain ⟨⟨value, bytes₂⟩, hvalue, hr⟩ := h
    obtain ⟨rfl, rfl⟩ := Prod.mk.injEq .. ▸ hr
    obtain ⟨hle, rfl⟩ := four_eq_ok hvalue
    -- a number of four bytes is read back as it was
    have htoNat : (Int32.ofNat value).toUInt32.toNat = value :=
      UInt32.toNat_ofNat_of_lt' (Nat.lt_succ_of_le hle)
    refine ⟨.fixed (.integer (Int32.ofNat value)) _ (by simp) rfl, rfl, ?_⟩
    show _ = Tag.integer.byte :: BigEndian.four (Int32.ofNat value).toUInt32.toNat ++ _
    rw [htoNat, hbyte hkind, List.cons_append]
  · rename_i hkind
    simp only [bind_eq_ok, pure_eq_ok] at h
    obtain ⟨⟨name, bytes₂⟩, hname, hr⟩ := h
    obtain ⟨rfl, rfl⟩ := Prod.mk.injEq .. ▸ hr
    obtain rfl := two_eq_ok hname
    exact ⟨.fixed (.classRef name) _ (by simp) rfl, rfl, by rw [hbyte hkind]; rfl⟩
  · rename_i hkind
    obtain ⟨owner, signature, rfl, rfl⟩ := twoIndexes_eq_ok h
    exact ⟨.fixed (.fieldRef owner signature) _ (by simp) rfl, rfl, by rw [hbyte hkind]; rfl⟩
  · rename_i hkind
    obtain ⟨owner, signature, rfl, rfl⟩ := twoIndexes_eq_ok h
    exact ⟨.fixed (.methodRef owner signature) _ (by simp) rfl, rfl, by rw [hbyte hkind]; rfl⟩
  · rename_i hkind
    obtain ⟨name, descriptor, rfl, rfl⟩ := twoIndexes_eq_ok h
    exact ⟨.fixed (.nameAndType name descriptor) _ (by simp) rfl, rfl, by rw [hbyte hkind]; rfl⟩
  · simp at h

theorem constants_bytes_append (es : List PoolEntry) (index : Nat) (rest : List UInt8) :
    constants index es.length (es.flatMap PoolEntry.bytes ++ rest) =
      .ok (es.map PoolEntry.constant, rest) := by
  induction es generalizing index with
  | nil => rfl
  | cons e es ih =>
    rw [List.length_cons, List.flatMap_cons, List.append_assoc, constants, constant_bytes_append]
    dsimp only
    rw [ih, ok_bind]
    rfl

theorem constants_eq_ok {index n : Nat} {cs : List Constant}
    (h : constants index n bytes = .ok (cs, rest)) :
    ∃ es : List PoolEntry, es.length = n ∧ es.map PoolEntry.constant = cs ∧
      bytes = es.flatMap PoolEntry.bytes ++ rest := by
  induction n generalizing index bytes cs with
  | zero =>
    simp only [constants, Except.ok.injEq, Prod.mk.injEq] at h
    obtain ⟨rfl, rfl⟩ := h
    exact ⟨[], rfl, rfl, rfl⟩
  | succ n ih =>
    unfold constants at h
    split at h
    · simp at h
    · rename_i c bytes' hc
      simp only [bind_eq_ok, pure_eq_ok] at h
      obtain ⟨⟨others, rest'⟩, hothers, hr⟩ := h
      obtain ⟨rfl, rfl⟩ := Prod.mk.injEq .. ▸ hr
      obtain ⟨e, rfl, rfl⟩ := constant_eq_ok hc
      obtain ⟨es, rfl, rfl, rfl⟩ := ih hothers
      refine ⟨e :: es, rfl, rfl, ?_⟩
      rw [List.flatMap_cons, List.append_assoc]

end Reader

/-! ### Class files -/

/-- The parts of a class file in the order in which they stand in its bytes, with their counts. -/
structure ClassFile.ByteLayout where
  /-- The minor version. -/
  minor : UInt16
  /-- The major version. -/
  major : UInt16
  /-- The number of pool entries and one more; 0 stands for no entries, too. -/
  count : UInt16
  /-- The pool entries. -/
  entries : List PoolEntry
  /-- The access flags of the class. -/
  flags : UInt16
  /-- The index of the class. -/
  this : UInt16
  /-- The index of the class it extends. -/
  super : UInt16
  /-- The indexes of its interfaces. -/
  interfaces : List UInt16
  /-- The fields. -/
  fields : List Member
  /-- The methods. -/
  methods : List Member
  /-- The attributes of the class. -/
  attributes : List Attribute
  /-- The count of the entries is right. -/
  length_entries : entries.length = count.toNat - 1
  /-- The number of interfaces fits two bytes. -/
  interfaces_le : interfaces.length ≤ 0xFFFF
  /-- So does the number of fields, -/
  fields_le : fields.length ≤ 0xFFFF
  /-- the number of methods, -/
  methods_le : methods.length ≤ 0xFFFF
  /-- and the number of attributes. -/
  attributes_le : attributes.length ≤ 0xFFFF
  /-- The counts in the fields fit, -/
  fields_regular : ∀ m ∈ fields, m.Regular
  /-- those in the methods, -/
  methods_regular : ∀ m ∈ methods, m.Regular
  /-- and those in the attributes. -/
  attributes_regular : ∀ a ∈ attributes, a.Regular

namespace ClassFile

namespace ByteLayout

/-- The class file that is laid out; interfaces and attributes of the class are no part of it. -/
def file (l : ByteLayout) : ClassFile :=
  ⟨l.minor, l.major, (l.entries.map PoolEntry.constant).toArray, l.flags, l.this, l.super, l.fields,
    l.methods⟩

/-- The bytes of a layout. -/
def bytes (l : ByteLayout) : List UInt8 :=
  BigEndian.four magic ++ BigEndian.two l.minor.toNat ++ BigEndian.two l.major.toNat ++
    BigEndian.two l.count.toNat ++ l.entries.flatMap PoolEntry.bytes ++
    BigEndian.two l.flags.toNat ++ BigEndian.two l.this.toNat ++ BigEndian.two l.super.toNat ++
    BigEndian.two l.interfaces.length ++ l.interfaces.flatMap (fun w => BigEndian.two w.toNat) ++
    Member.encodeAll l.fields ++ Member.encodeAll l.methods ++
    BigEndian.two l.attributes.length ++ l.attributes.flatMap Attribute.encode

/-- The layouts in which nothing is lost: no interfaces, no attributes of the class, a count that is
not 0, and each string in its own encoding. -/
structure IsCanonical (l : ByteLayout) : Prop where
  interfaces : l.interfaces = []
  attributes : l.attributes = []
  count : l.count ≠ 0
  entries : ∀ e ∈ l.entries, e.IsCanonical

theorem mem_pool {l : ByteLayout} {c : Constant} (h : c ∈ l.file.pool) :
    ∃ e : PoolEntry, e.constant = c := by
  obtain ⟨e, -, he⟩ := List.mem_map.1 (List.mem_toArray.1 h)
  exact ⟨e, he⟩

end ByteLayout

/-- The class files that the format has room for: a pool of at most 65534 entries of known kinds,
valid strings of at most 65535 bytes, and counts that fit their bytes. -/
structure Writable (f : ClassFile) : Prop extends f.Regular where
  size_le : f.pool.size ≤ maxPoolEntries
  known : ∀ tag first second value, .other tag first second value ∉ f.pool
  length_le : ∀ t, .utf8 t ∈ f.pool → (ModifiedUtf8.encode t).length ≤ 0xFFFF

/-- Such a class file has bytes and is read back from them. -/
theorem Writable.exists_encode {f : ClassFile} (h : f.Writable) :
    ∃ bytes, f.encode = .ok bytes ∧ decode bytes = .ok f := by
  obtain ⟨bytes, hbytes⟩ := (exists_encode_iff h.size_le h.known).2 h.length_le
  exact ⟨bytes, hbytes, decode_encode h.toRegular hbytes⟩

/-- What is laid out in some bytes can be written, whatever else these bytes hold. -/
theorem ByteLayout.writable (l : ByteLayout) : l.file.Writable where
  isUtf8 t ht := by
    obtain ⟨e, he⟩ := mem_pool ht
    exact (PoolEntry.isUtf8_of_constant he).1
  fields_le := l.fields_le
  methods_le := l.methods_le
  fields := l.fields_regular
  methods := l.methods_regular
  size_le := by
    have hlength : l.file.pool.size = l.count.toNat - 1 := by
      simp [file, l.length_entries]
    have hcount := l.count.toNat_lt
    unfold maxPoolEntries
    omega
  known tag first second value hmem := by
    obtain ⟨e, he⟩ := mem_pool hmem
    exact e.constant_ne_other tag first second value he
  length_le t ht := by
    obtain ⟨e, he⟩ := mem_pool ht
    exact (PoolEntry.isUtf8_of_constant he).2

/-- What is written for a canonical layout are its bytes. -/
theorem ByteLayout.encode_file {l : ByteLayout} (h : l.IsCanonical) :
    l.file.encode = .ok l.bytes := by
  have hsize : l.file.pool.size + 1 = l.count.toNat := by
    have hlength : l.file.pool.size = l.count.toNat - 1 := by
      simp [file, l.length_entries]
    have hcount : l.count.toNat ≠ 0 := fun hzero => h.count (UInt16.toNat.inj hzero)
    omega
  rw [encode, if_neg (Nat.not_lt_of_le l.writable.size_le), hsize]
  simp only [file, PoolEntry.encodeAll_of_isCanonical h.entries, ok_bind, bytes, h.interfaces,
    h.attributes, List.length_nil, List.flatMap_nil, List.append_nil]
  rfl

theorem exists_indexes {n : Nat} {raw : List UInt8} (h : raw.length = 2 * n) :
    ∃ ws : List UInt16, ws.length = n ∧ raw = ws.flatMap fun w => BigEndian.two w.toNat := by
  induction n generalizing raw with
  | zero => exact ⟨[], rfl, List.length_eq_zero_iff.1 h⟩
  | succ n ih =>
    obtain ⟨a, b, raw, rfl⟩ : ∃ a b others, raw = a :: b :: others := by
      rcases raw with _ | ⟨a, _ | ⟨b, others⟩⟩
      · simp at h
      · simp at h
        omega
      · exact ⟨a, b, others, rfl⟩
    simp only [List.length_cons] at h
    obtain ⟨ws, hlength, rfl⟩ := ih (show raw.length = 2 * n by omega)
    obtain ⟨w, hw⟩ : ∃ w : UInt16, Reader.two [a, b] = .ok (w, []) := ⟨_, rfl⟩
    have hbytes := Reader.two_eq_ok hw
    rw [List.append_nil] at hbytes
    refine ⟨w :: ws, congrArg (· + 1) hlength, ?_⟩
    rw [List.flatMap_cons, ← hbytes]
    rfl

/-- What has been read as a class file is laid out in front of the bytes that are left. -/
theorem exists_byteLayout {bytes rest : List UInt8} {f : ClassFile}
    (h : Reader.classFile bytes = .ok (f, rest)) :
    ∃ l : ByteLayout, l.file = f ∧ bytes = l.bytes ++ rest := by
  rw [Reader.classFile, bind_eq_ok] at h
  obtain ⟨⟨start, bytes₁⟩, hstart, h⟩ := h
  obtain ⟨-, rfl⟩ := Reader.four_eq_ok hstart
  dsimp only at h
  split at h
  · simp [bind, Except.bind] at h
  · rename_i hmagic
    obtain rfl := not_not.1 hmagic
    simp only [bind_eq_ok, pure_eq_ok] at h
    obtain ⟨⟨minor, bytes₂⟩, hminor, ⟨major, bytes₃⟩, hmajor,
      ⟨count, bytes₄⟩, hcount, ⟨pool, bytes₅⟩, hpool, ⟨flags, bytes₆⟩, hflags,
      ⟨this, bytes₇⟩, hthis, ⟨super, bytes₈⟩, hsuper, ⟨number, bytes₉⟩, hnumber,
      ⟨raw, bytes₁₀⟩, hraw, ⟨fields, bytes₁₁⟩, hfields, ⟨methods, bytes₁₂⟩, hmethods,
      ⟨attributes, bytes₁₃⟩, hattributes, hr⟩ := h
    -- each part has been taken off the front of the bytes that were left
    obtain ⟨rfl, rfl⟩ := Prod.mk.injEq .. ▸ hr
    obtain rfl := Reader.two_eq_ok hminor
    obtain rfl := Reader.two_eq_ok hmajor
    obtain rfl := Reader.two_eq_ok hcount
    obtain ⟨entries, hlength, rfl, rfl⟩ := Reader.constants_eq_ok hpool
    obtain rfl := Reader.two_eq_ok hflags
    obtain rfl := Reader.two_eq_ok hthis
    obtain rfl := Reader.two_eq_ok hsuper
    obtain rfl := Reader.two_eq_ok hnumber
    obtain ⟨hinterfaces, rfl⟩ := Reader.take_eq_ok hraw
    obtain ⟨interfaces, hnumber, rfl⟩ := exists_indexes hinterfaces
    obtain ⟨hfields_le, hfields_regular, rfl⟩ := Reader.members_eq_ok hfields
    obtain ⟨hmethods_le, hmethods_regular, rfl⟩ := Reader.members_eq_ok hmethods
    obtain ⟨hattributes_le, hattributes_regular, rfl⟩ := Reader.attributes_eq_ok hattributes
    have hinterfaces_le : interfaces.length ≤ 0xFFFF :=
      hnumber ▸ Nat.le_of_lt_succ number.toNat_lt
    refine ⟨⟨minor, major, count, entries, flags, this, super, interfaces, fields, methods,
      attributes, hlength, hinterfaces_le, hfields_le, hmethods_le, hattributes_le,
      hfields_regular, hmethods_regular, hattributes_regular⟩, rfl, ?_⟩
    simp only [ByteLayout.bytes, hnumber, List.append_assoc]

/-- The bytes that are accepted as a class file are those of a layout. -/
theorem decode_eq_ok_iff {bytes : List UInt8} {f : ClassFile} :
    decode bytes = .ok f ↔ ∃ l : ByteLayout, l.file = f ∧ l.bytes = bytes := by
  constructor
  · intro h
    simp only [decode, bind_eq_ok] at h
    obtain ⟨⟨f', rest⟩, hread, hrest⟩ := h
    dsimp only at hrest
    split at hrest
    · rename_i hempty
      obtain rfl := pure_eq_ok.1 hrest
      obtain rfl := List.isEmpty_iff.1 hempty
      obtain ⟨l, hfile, hbytes⟩ := exists_byteLayout hread
      exact ⟨l, hfile, by rw [hbytes, List.append_nil]⟩
    · simp at hrest
  · rintro ⟨l, rfl, rfl⟩
    have hmagic : magic ≤ 0xFFFFFFFF := by decide
    have hlength : (l.interfaces.flatMap fun w => BigEndian.two w.toNat).length =
        2 * (UInt16.ofNat l.interfaces.length).toNat := by
      rw [UInt16.toNat_ofNat_of_lt' (Nat.lt_succ_of_le l.interfaces_le), List.length_flatMap]
      simp [BigEndian.two, Nat.mul_comm]
    have hattributes := Reader.attributes_append l.attributes_le l.attributes_regular []
    rw [List.append_nil] at hattributes
    simp only [decode, Reader.classFile, ByteLayout.bytes, List.append_assoc,
      Reader.four_append hmagic, ok_bind, Reader.two_toNat_append, ← l.length_entries,
      Reader.constants_bytes_append, Reader.two_append l.interfaces_le, Reader.take_append hlength,
      Reader.members_append l.fields_le l.fields_regular,
      Reader.members_append l.methods_le l.methods_regular, ne_eq, not_true_eq_false, if_false,
      hattributes]
    rfl

/-- Reading and writing class files are inverse.  Each class file that the format has room for is
written and read back.  Each one that has been read can be written and is read back as well, and the
bytes are the same as before if they hold nothing else and their strings are in their own encoding:
the bytes have a layout, and if one is canonical, they are what is written. -/
theorem decode_encode_inverse :
    (∀ f : ClassFile, f.Writable → ∃ bytes, f.encode = .ok bytes ∧ decode bytes = .ok f) ∧
      ∀ (bytes : List UInt8) (g : ClassFile), decode bytes = .ok g →
        ∃ written, g.encode = .ok written ∧ decode written = .ok g ∧
          (∃ l : ByteLayout, l.file = g ∧ l.bytes = bytes) ∧
          ∀ l : ByteLayout, l.bytes = bytes → l.IsCanonical → written = bytes := by
  refine ⟨fun f hf => hf.exists_encode, fun bytes g h => ?_⟩
  obtain ⟨l, rfl, rfl⟩ := decode_eq_ok_iff.1 h
  obtain ⟨written, hwritten, hread⟩ := l.writable.exists_encode
  refine ⟨written, hwritten, hread, ⟨l, rfl, rfl⟩, fun l' hbytes hcanonical => ?_⟩
  -- Both layouts hold what is read from the bytes, so it is the canonical one that is written.
  have hfile : l'.file = l.file := by
    have hread' : decode l.bytes = .ok l'.file := decode_eq_ok_iff.2 ⟨l', rfl, hbytes⟩
    exact Except.ok.inj (hread'.symm.trans h)
  have hencode : l.file.encode = .ok l.bytes := by
    rw [← hfile, ← hbytes]
    exact ByteLayout.encode_file hcanonical
  exact Except.ok.inj (hwritten.symm.trans hencode)

/-- A class file with a string that takes a pair of surrogates. -/
def pairedFile : ClassFile where
  major := majorVersion
  pool := #[.utf8 (Text.ofString "é😀"), .classRef 1, .integer (-1), .nameAndType 1 1]
  this := 2
  methods := [{ flags := publicFlag, name := 1, descriptor := 1, attributes := [⟨1, [0, 7]⟩] }]

/-- The bytes of a class with an interface and an overlong string, which reads `A`. -/
def overlongBytes : List UInt8 :=
  [0xCA, 0xFE, 0xBA, 0xBE, 0, 0, 0, 0x3B, 0, 3, 1, 0, 2, 0xC1, 0x81, 7, 0, 1, 0, 1, 0, 2, 0, 0,
    0, 1, 0, 2, 0, 0, 0, 0, 0, 0]

/-- The class file they hold. -/
def overlongFile : ClassFile where
  major := majorVersion
  pool := #[.utf8 (Text.ofString "A"), .classRef 1]
  flags := publicFlag
  this := 2

/-- The bytes of `pairedFile` are read back, and those of `overlongFile` are not what it is written
as. -/
theorem decode_encode_inverse_paired :
    pairedFile.Writable ∧ decode overlongBytes = .ok overlongFile ∧
      (∃ bytes, pairedFile.encode = .ok bytes ∧ decode bytes = .ok pairedFile) ∧
      ∃ written, overlongFile.encode = .ok written ∧ decode written = .ok overlongFile ∧
        written ≠ overlongBytes := by
  have hstring (t : Text) (h : Constant.utf8 t ∈ pairedFile.pool) : t = Text.ofString "é😀" := by
    simpa [pairedFile] using h
  have hmember : ∀ m ∈ pairedFile.methods, m.Regular :=
    List.forall_mem_singleton.2 ⟨by decide, List.forall_mem_singleton.2
      (show ([0, 7] : List UInt8).length ≤ 0xFFFFFFFF by decide)⟩
  have hpaired : pairedFile.Writable := by
    refine ⟨⟨fun t ht => ?_, by decide, by decide, nofun, hmember⟩, by decide,
      fun tag first second value h => by simp [pairedFile] at h, fun t ht => ?_⟩
    · exact ⟨_, hstring t ht⟩
    · rw [hstring t ht, Text.ofString, ModifiedUtf8.encode_flatMap_encode]
      decide
  have hoverlong : decode overlongBytes = .ok overlongFile := by decide +kernel
  obtain ⟨written, hwritten, hread, -, -⟩ :=
    decode_encode_inverse.2 overlongBytes overlongFile hoverlong
  refine ⟨hpaired, hoverlong, decode_encode_inverse.1 _ hpaired, written, hwritten, hread, ?_⟩
  -- The interface has been dropped, so the bytes are fewer.
  rintro rfl
  have hlength : overlongFile.encode ≠ .ok overlongBytes := by decide +kernel
  exact hlength hwritten

end ClassFile

end Classwright
