import Classwright.Proofs.ClassFile.ByteLayout

/-!
# Class files that are cut off or padded

A reader is exact (`Reader.Exact`) when what it takes from the front of some bytes depends on
nothing behind it, and when it finds its bytes truncated as soon as one of those it takes is
missing.  The readers of bytes and numbers are exact, and sequences (`Reader.Exact.bind`) and rows
(`Reader.Exact.times`) of exact readers are, whatever counts and lengths were read before.  So the
reader of class files is exact (`Reader.exact_classFile`), and no class file starts another one
(`ClassFile.decode_cut_or_padded`).
-/

namespace Classwright

namespace Reader

variable {α β : Type}

/-- What a reader does with the bytes that hold a value. -/
structure Takes (read : Reader α) (taken : List UInt8) (x : α) : Prop where
  /-- In front of any others, it takes them and leaves these. -/
  leaves : ∀ rest, read (taken ++ rest) = .ok (x, rest)
  /-- Without the last ones, it misses some. -/
  misses : ∀ front back, front ++ back = taken → back ≠ [] →
    ∃ e, read front = .error e ∧ e.root = .truncated

/-- A reader that does so whenever it reads a value. -/
def Exact (read : Reader α) : Prop :=
  ∀ ⦃bytes x rest⦄, read bytes = .ok (x, rest) →
    ∃ taken, bytes = taken ++ rest ∧ Takes read taken x

/-! ### Combined readers -/

theorem Exact.pure (x : α) : Exact fun bytes => pure (x, bytes) := by
  intro bytes y rest h
  obtain ⟨rfl, rfl⟩ := Prod.mk.injEq .. ▸ pure_eq_ok.1 h
  refine ⟨[], rfl, fun _ => rfl, ?_⟩
  intro front back hnil hback
  exact absurd (List.append_eq_nil_iff.1 hnil).2 hback

/-- A reader that never succeeds takes nothing. -/
theorem Exact.fail (e : ClassFileError) : Exact (α := α) fun _ => .error e := by
  intro bytes x rest h
  cases h

theorem Exact.bind {read : Reader α}
    {next : α × List UInt8 → Except ClassFileError (β × List UInt8)} (hread : Exact read)
    (hnext : ∀ x, Exact fun bytes => next (x, bytes)) :
    Exact fun bytes => read bytes >>= next := by
  intro bytes y rest h
  obtain ⟨⟨x, others⟩, hx, hy⟩ := bind_eq_ok.1 h
  obtain ⟨first, rfl, hfirst⟩ := hread hx
  obtain ⟨second, rfl, hsecond⟩ := hnext x hy
  refine ⟨first ++ second, (List.append_assoc ..).symm, ?_, ?_⟩
  · intro rest
    show read (first ++ second ++ rest) >>= next = _
    rw [List.append_assoc, hfirst.leaves, ok_bind]
    exact hsecond.leaves rest
  · intro front back hcut hback
    show ∃ e, read front >>= next = .error e ∧ _
    -- The cut is in the bytes of the first reader or behind them.
    rcases List.append_eq_append_iff.1 hcut with ⟨missing, hfront, rfl⟩ | ⟨seen, rfl, hseen⟩
    · by_cases hmissing : missing = []
      · -- It is just behind them, so that the second reader finds nothing.
        rw [hmissing, List.append_nil] at hfront
        rw [hmissing, List.nil_append] at hback
        obtain ⟨e, he, hroot⟩ := hsecond.misses [] second rfl hback
        refine ⟨e, ?_, hroot⟩
        have hleaves := hfirst.leaves []
        rw [List.append_nil, hfront] at hleaves
        rw [hleaves, ok_bind]
        exact he
      · obtain ⟨e, he, hroot⟩ := hfirst.misses front missing hfront.symm hmissing
        exact ⟨e, bind_eq_error.2 (.inl he), hroot⟩
    · obtain ⟨e, he, hroot⟩ := hsecond.misses seen back hseen.symm hback
      refine ⟨e, ?_, hroot⟩
      rw [hfirst.leaves, ok_bind]
      exact he

/-- A row is as exact as its items. -/
theorem Exact.times {read : Reader α} (h : Exact read) (n : Nat) : Exact (times read n) := by
  induction n with
  | zero => exact .pure []
  | succ n ih => exact h.bind fun x => ih.bind fun xs => .pure (x :: xs)

/-! ### Bytes and numbers -/

/-- A reader that needs a fixed number of bytes. -/
theorem exact_of_length {read : Reader α} (n : Nat)
    (htakes : ∀ ⦃bytes x rest⦄, read bytes = .ok (x, rest) →
      ∃ taken, taken.length = n ∧ bytes = taken ++ rest ∧
        ∀ rest, read (taken ++ rest) = .ok (x, rest))
    (hshort : ∀ bytes : List UInt8, bytes.length < n → read bytes = .error .truncated) :
    Exact read := by
  intro bytes x rest h
  obtain ⟨taken, hlength, hbytes, hleaves⟩ := htakes h
  refine ⟨taken, hbytes, hleaves, ?_⟩
  intro front back hcut hback
  refine ⟨.truncated, hshort front ?_, rfl⟩
  have hpos := List.length_pos_iff.2 hback
  have hsum : front.length + back.length = n := by
    rw [← List.length_append, hcut, hlength]
  omega

theorem exact_take (n : Nat) : Exact (take n) := by
  refine exact_of_length n ?_ ?_
  · intro bytes x rest h
    obtain ⟨hlength, hbytes⟩ := take_eq_ok h
    exact ⟨x, hlength, hbytes, fun rest => take_append hlength rest⟩
  · intro bytes hshort
    unfold take
    split
    · rename_i r hsplit
      have hr : split? n bytes = some (r.1, r.2) := hsplit
      obtain ⟨hlength, hbytes⟩ := split?_eq_some hr
      rw [hbytes, List.length_append] at hshort
      omega
    · rfl

theorem exact_one : Exact one := by
  refine exact_of_length 1 ?_ ?_
  · intro bytes b rest h
    exact ⟨[b], rfl, one_eq_ok h, fun _ => rfl⟩
  · intro bytes hshort
    rw [List.length_eq_zero_iff.1 (Nat.lt_one_iff.1 hshort), one]
    simp

theorem exact_two : Exact two := by
  refine exact_of_length 2 ?_ ?_
  · intro bytes w rest h
    exact ⟨_, rfl, two_eq_ok h, two_toNat_append w⟩
  · intro bytes hshort
    unfold two
    split
    · simp only [List.length_cons] at hshort
      omega
    · rfl

theorem exact_four : Exact four := by
  refine exact_of_length 4 ?_ ?_
  · intro bytes n rest h
    obtain ⟨hle, hbytes⟩ := four_eq_ok h
    exact ⟨_, rfl, hbytes, four_append hle⟩
  · intro bytes hshort
    unfold four
    split
    · simp only [List.length_cons] at hshort
      omega
    · rfl

/-! ### The parts of a class file -/

theorem exact_text (n : Nat) : Exact (text n) := by
  refine (exact_take n).bind fun raw => ?_
  dsimp only
  split
  · exact .pure _
  · exact .fail _

theorem exact_twoIndexes (make : UInt16 → UInt16 → Constant) :
    Exact fun bytes => two bytes >>= fun x => two x.2 >>= fun y => pure (make x.1 y.1, y.2) := by
  apply exact_two.bind
  intro first
  dsimp only
  apply exact_two.bind
  intro second
  exact .pure (make first second)

theorem exact_constant : Exact constant := by
  apply exact_one.bind
  intro tag
  dsimp only
  -- The entries of known kinds have the bytes their kind needs, others are no entries.
  split
  · apply exact_two.bind
    intro length
    dsimp only
    apply (exact_text length.toNat).bind
    intro text
    exact .pure (Constant.utf8 text)
  · apply exact_four.bind
    intro value
    exact .pure (Constant.integer (Int32.ofNat value))
  · apply exact_two.bind
    intro name
    exact .pure (Constant.classRef name)
  · exact exact_twoIndexes .fieldRef
  · exact exact_twoIndexes .methodRef
  · exact exact_twoIndexes .nameAndType
  · exact .fail _

/-- An error that names the pool entry has the same root. -/
theorem Exact.inConstant {read : Reader α} (h : Exact read) (index : Nat) :
    Exact fun bytes => (read bytes).mapError (.inConstant index) := by
  intro bytes x rest hread
  obtain ⟨taken, hbytes, htakes⟩ := h ((mapError_eq_ok _).1 hread)
  refine ⟨taken, hbytes, fun rest => ?_, fun front back hcut hback => ?_⟩
  · rw [htakes.leaves, mapError_ok]
  · obtain ⟨e, he, hroot⟩ := htakes.misses front back hcut hback
    exact ⟨.inConstant index e, by rw [he, mapError_error], hroot⟩

theorem constants_succ (index n : Nat) (bytes : List UInt8) :
    constants index (n + 1) bytes = ((constant bytes).mapError (.inConstant index) >>= fun r =>
      constants (index + 1) n r.2 >>= fun rs => pure (r.1 :: rs.1, rs.2)) := by
  rw [constants]
  cases constant bytes with
  | error e => rfl
  | ok r => rfl

theorem exact_constants (index n : Nat) : Exact (constants index n) := by
  induction n generalizing index with
  | zero => exact .pure []
  | succ n ih =>
    rw [show constants index (n + 1) = _ from funext (constants_succ index n)]
    apply (exact_constant.inConstant index).bind
    intro c
    dsimp only
    apply (ih (index + 1)).bind
    intro cs
    exact .pure (c :: cs)

theorem exact_oneAttribute : Exact oneAttribute := by
  apply exact_two.bind
  intro name
  dsimp only
  apply exact_four.bind
  intro length
  dsimp only
  apply (exact_take length).bind
  intro data
  exact .pure (Attribute.mk name data)

theorem exact_attributes : Exact attributes := by
  apply exact_two.bind
  intro count
  exact exact_oneAttribute.times count.toNat

theorem exact_member : Exact member := by
  apply exact_two.bind
  intro flags
  dsimp only
  apply exact_two.bind
  intro name
  dsimp only
  apply exact_two.bind
  intro descriptor
  dsimp only
  apply exact_attributes.bind
  intro as
  exact .pure (Member.mk flags name descriptor as)

theorem exact_members : Exact members := by
  apply exact_two.bind
  intro count
  exact exact_member.times count.toNat

theorem exact_classFile : Exact classFile := by
  apply exact_four.bind
  intro start
  dsimp only
  by_cases hmagic : start ≠ ClassFile.magic
  · simp only [if_pos hmagic]
    exact .fail .badMagic
  · simp only [if_neg hmagic]
    -- the parts of a file in the order they are read in
    apply exact_two.bind
    intro minor
    dsimp only
    apply exact_two.bind
    intro major
    dsimp only
    apply exact_two.bind
    intro count
    dsimp only
    apply (exact_constants 1 (count.toNat - 1)).bind
    intro pool
    dsimp only
    apply exact_two.bind
    intro flags
    dsimp only
    apply exact_two.bind
    intro this
    dsimp only
    apply exact_two.bind
    intro super
    dsimp only
    apply exact_two.bind
    intro interfaces
    dsimp only
    apply (exact_take (2 * interfaces.toNat)).bind
    intro skipped
    dsimp only
    apply exact_members.bind
    intro fields
    dsimp only
    apply exact_members.bind
    intro methods
    dsimp only
    apply exact_attributes.bind
    intro attributes
    exact .pure (ClassFile.mk minor major pool.toArray flags this super fields methods)

end Reader

/-! ### Class files -/

namespace ClassFile

theorem decode_eq_ok {bytes : List UInt8} {f : ClassFile} (h : decode bytes = .ok f) :
    Reader.Takes Reader.classFile bytes f := by
  rw [decode, bind_eq_ok] at h
  obtain ⟨⟨f', rest⟩, hread, hrest⟩ := h
  dsimp only at hrest
  split at hrest
  · rename_i hempty
    obtain rfl := pure_eq_ok.1 hrest
    obtain rfl := List.isEmpty_iff.1 hempty
    obtain ⟨taken, rfl, htakes⟩ := Reader.exact_classFile hread
    rw [List.append_nil]
    exact htakes
  · cases hrest

theorem decode_append_of_decode {bytes more : List UInt8} {f : ClassFile}
    (h : decode bytes = .ok f) (hmore : more ≠ []) :
    decode (bytes ++ more) = .error (.trailing more.length) := by
  have hempty : more.isEmpty = false := List.isEmpty_eq_false_iff.2 hmore
  rw [decode, (decode_eq_ok h).leaves more, ok_bind]
  dsimp only
  rw [hempty, if_neg Bool.false_ne_true]

/-- Bytes that are missing or left over are always found.  When some bytes are accepted as a class
file, those that stop earlier are truncated, those that go on are trailed by what is too much, and
no others that are accepted start with them or are their start. -/
theorem decode_cut_or_padded {bytes : List UInt8} {f : ClassFile} (h : decode bytes = .ok f) :
    (∀ front, front <+: bytes → front ≠ bytes →
      ∃ e, decode front = .error e ∧ e.root = .truncated) ∧
    (∀ more, more ≠ [] → decode (bytes ++ more) = .error (.trailing more.length)) ∧
    ∀ other g, decode other = .ok g → other <+: bytes ∨ bytes <+: other → other = bytes := by
  refine ⟨?_, fun more hmore => decode_append_of_decode h hmore, ?_⟩
  · rintro front ⟨back, hcut⟩ hne
    have hback : back ≠ [] := by
      rintro rfl
      rw [List.append_nil] at hcut
      exact hne hcut
    obtain ⟨e, he, hroot⟩ := (decode_eq_ok h).misses front back hcut hback
    exact ⟨e, bind_eq_error.2 (.inl he), hroot⟩
  · -- Otherwise the longer ones would be refused because of what trails the shorter ones.
    intro other g hother hstart
    rcases hstart with ⟨more, rfl⟩ | ⟨more, rfl⟩
    · by_cases hmore : more = []
      · rw [hmore, List.append_nil]
      · cases h.symm.trans (decode_append_of_decode hother hmore)
    · by_cases hmore : more = []
      · rw [hmore, List.append_nil]
      · cases hother.symm.trans (decode_append_of_decode h hmore)

/-- The bytes of a class with an interface and an overlong string: cut off inside the string, where
the error names the pool entry, and padded by two bytes. -/
theorem decode_cut_or_padded_overlong :
    decode overlongBytes = .ok overlongFile ∧
      (∃ e, decode (overlongBytes.take 14) = .error e ∧ e.root = .truncated) ∧
      decode (overlongBytes.take 14) = .error (.inConstant 1 .truncated) ∧
      decode (overlongBytes ++ [0, 0]) = .error (.trailing 2) ∧
      ∀ other g, decode other = .ok g → other <+: overlongBytes ∨ overlongBytes <+: other →
        other = overlongBytes := by
  have hread : decode overlongBytes = .ok overlongFile := by decide +kernel
  obtain ⟨hcut, hpadded, hfree⟩ := decode_cut_or_padded hread
  exact ⟨hread, hcut _ (List.take_prefix 14 overlongBytes) (by decide), by decide +kernel,
    hpadded [0, 0] (by decide), hfree⟩

end ClassFile

end Classwright
