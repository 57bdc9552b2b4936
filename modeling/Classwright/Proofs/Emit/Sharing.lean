import Classwright.Proofs.Emit.Found
import Mathlib

/-!
# Sharing in the constant pool

A pool is an array with four indexes by content.  The indexes answer for the array exactly: they
find what it holds, and nothing else (`PoolBuilder.Consistent`).  So an addition appends only what
is not there yet, and a string, number, class, or name with type stands in the pool once.

Every request keeps this and only appends to the entries (`PoolBuilder.Develops`), also where it
fails behind its first half: the string of a class that finds no room stays, and is found by the
next request for it.  What a request yields is fixed by the entries alone (`Item.run_of_isAt`), so
it is the same in every pool that develops from there, frozen or not.

The main result is `PoolBuilder.requests_share`.
-/

namespace Classwright

/-! ### Entries behind an appended one -/

/-- The index of the entry that is appended next. -/
def nextIndex (entries : Array Constant) : UInt16 :=
  UInt16.ofNat (entries.size + 1)

section Push

variable {entries : Array Constant} {index : UInt16} {c c' : Constant}

theorem toNat_nextIndex (hroom : entries.size < maxPoolEntries) :
    (nextIndex entries).toNat = entries.size + 1 := by
  have hlt : entries.size + 1 < UInt16.size := by
    have hmax : maxPoolEntries < UInt16.size := by decide
    omega
  exact UInt16.toNat_ofNat_of_lt' hlt

/-- An index stands for one entry. -/
theorem Holds.unique (h : Holds entries index c) (h' : Holds entries index c') : c = c' :=
  Option.some.inj (h.2.symm.trans h'.2)

theorem Holds.push (h : Holds entries index c') (c : Constant) :
    Holds (entries.push c) index c' := by
  rw [Array.push_eq_append]
  exact h.append _

/-- The new entry has the next index. -/
theorem holds_push_self (hroom : entries.size < maxPoolEntries) (c : Constant) :
    Holds (entries.push c) (nextIndex entries) c := by
  have hnext := toNat_nextIndex hroom
  refine ⟨?_, ?_⟩
  · intro hzero
    rw [hzero] at hnext
    exact absurd hnext (by simp)
  · rw [hnext, Nat.add_sub_cancel, Array.getElem?_push_size]

/-- The entries of a pool with one more are the old ones and the new one. -/
theorem holds_push_iff (hroom : entries.size < maxPoolEntries) :
    Holds (entries.push c) index c' ↔
      Holds entries index c' ∨ index = nextIndex entries ∧ c' = c := by
  constructor
  · rintro ⟨hne, hentry⟩
    have hpos : index.toNat ≠ 0 := fun hzero => hne (UInt16.toNat_inj.1 hzero)
    rw [Array.getElem?_push] at hentry
    split at hentry
    · have hnext := toNat_nextIndex hroom
      exact Or.inr ⟨UInt16.toNat_inj.1 (by omega), (Option.some.inj hentry).symm⟩
    · exact Or.inl ⟨hne, hentry⟩
  · rintro (hold | ⟨rfl, rfl⟩)
    · exact hold.push c
    · exact holds_push_self hroom c'

theorem holds_push_of_ne (hroom : entries.size < maxPoolEntries) (hne : c' ≠ c) :
    Holds (entries.push c) index c' ↔ Holds entries index c' := by
  rw [holds_push_iff hroom]
  exact or_iff_left fun h => hne h.2

/-- The classes of a pool with one more entry: a string that is appended names no class that was
there, since the name of that one was there before. -/
theorem namesClass_push_iff (hroom : entries.size < maxPoolEntries)
    (hsound : ∀ c ∈ entries, c.Sound entries) (hc : c.Sound entries) {name : Text} :
    NamesClass (entries.push c) index name ↔
      NamesClass entries index name ∨
        ∃ n, c = .classRef n ∧ index = nextIndex entries ∧ Holds entries n (.utf8 name) := by
  -- What a class refers to stands before the appended entry.
  have hold : ∀ {n : UInt16}, (Constant.classRef n).Sound entries →
      Holds (entries.push c) n (.utf8 name) → Holds entries n (.utf8 name) := by
    rintro n ⟨t, ht⟩ hn
    rw [hn.unique (ht.push c)]
    exact ht
  constructor
  · rintro ⟨n, hclass, hname⟩
    rcases (holds_push_iff hroom).1 hclass with hclass | ⟨hindex, hnew⟩
    · have hsound' := hsound _ (Array.mem_of_getElem? hclass.2)
      exact Or.inl ⟨n, hclass, hold hsound' hname⟩
    · exact Or.inr ⟨n, hnew.symm, hindex, hold (hnew ▸ hc) hname⟩
  · rintro (⟨n, hclass, hname⟩ | ⟨n, rfl, rfl, hname⟩)
    · exact ⟨n, hclass.push c, hname.push c⟩
    · exact ⟨n, holds_push_self hroom _, hname.push _⟩

theorem namesClass_push_of_ne (hroom : entries.size < maxPoolEntries)
    (hsound : ∀ c ∈ entries, c.Sound entries) (hc : c.Sound entries)
    (hne : ∀ n, c ≠ .classRef n) {name : Text} :
    NamesClass (entries.push c) index name ↔ NamesClass entries index name := by
  rw [namesClass_push_iff hroom hsound hc]
  exact or_iff_left fun ⟨n, hn, _⟩ => hne n hn

end Push

/-- What is added at most once: strings, numbers, classes, and names with types. -/
def Constant.IsShared : Constant → Prop
  | utf8 _ | integer _ | classRef _ | nameAndType _ _ => True
  | fieldRef _ _ | methodRef _ _ | other _ _ _ _ => False

namespace PoolBuilder

/-! ### The invariant -/

/-- The entries of a pool fit their indexes, and each refers to entries before it. -/
structure Ordered (entries : Array Constant) : Prop where
  /-- Indexes have two bytes. -/
  size_le : entries.size ≤ maxPoolEntries
  /-- What an entry refers to stands before it. -/
  earlier : ∀ (n : Nat) (c : Constant), entries[n]? = some c → c.Sound (entries.extract 0 n)

/-- The indexes of a pool answer for its entries: they find what is there and nothing else. -/
structure Consistent (pool : PoolBuilder) : Prop where
  /-- The entries are in order. -/
  ordered : Ordered pool.entries
  /-- Strings are found where they are, -/
  utf8s_iff : ∀ (t : Text) (index : UInt16), pool.utf8s[t]? = some index ↔
    Holds pool.entries index (.utf8 t)
  /-- numbers, -/
  integers_iff : ∀ (v : Int32) (index : UInt16), pool.integers[v]? = some index ↔
    Holds pool.entries index (.integer v)
  /-- classes, by their names, -/
  classes_iff : ∀ (name : Text) (index : UInt16), pool.classes[name]? = some index ↔
    NamesClass pool.entries index name
  /-- and names with types, by the indexes of the two. -/
  signatures_iff : ∀ (key : UInt16 × UInt16) (index : UInt16), pool.signatures[key]? = some index ↔
    Holds pool.entries index (.nameAndType key.1 key.2)

section Invariant

variable {entries : Array Constant} {pool : PoolBuilder} {c : Constant}

/-- An entry behind which another is appended sees the entries it saw before. -/
theorem Ordered.push (h : Ordered entries) (hroom : entries.size < maxPoolEntries)
    (hc : c.Sound entries) : Ordered (entries.push c) where
  size_le := by
    rw [Array.size_push]
    omega
  earlier n c' hn := by
    have hle : n ≤ entries.size := by
      have hlt := (Array.getElem?_eq_some_iff.1 hn).1
      rw [Array.size_push] at hlt
      omega
    rw [Array.extract_push, if_pos hle]
    rw [Array.getElem?_push] at hn
    split at hn
    · rename_i hlast
      obtain rfl := Option.some.inj hn
      rw [hlast, Array.extract_size]
      exact hc
    · exact h.earlier n c' hn

/-- In particular each entry is sound. -/
theorem Ordered.sound (h : Ordered entries) : ∀ c ∈ entries, c.Sound entries := by
  intro c hc
  obtain ⟨n, hn, rfl⟩ := Array.mem_iff_getElem.1 hc
  have hearlier := (h.earlier n _ (Array.getElem?_eq_getElem hn)).append
    (entries.extract n entries.size)
  rwa [Array.extract_append_extract, Nat.zero_min, Nat.max_eq_right (Nat.le_of_lt hn),
    Array.extract_size] at hearlier

/-- Noting an index for a key that has none. -/
theorem getElem?_insert_iff {κ : Type} [BEq κ] [Hashable κ] [LawfulBEq κ] [LawfulHashable κ]
    {m : Std.HashMap κ UInt16} {P P' : κ → UInt16 → Prop} {key : κ} {index : UInt16}
    (hm : ∀ k i, m[k]? = some i ↔ P k i) (habsent : m[key]? = none)
    (hP : ∀ k i, P' k i ↔ P k i ∨ i = index ∧ k = key) :
    ∀ k i, (m.insert key index)[k]? = some i ↔ P' k i := by
  intro k i
  rw [Std.HashMap.getElem?_insert, hP, ← hm]
  split
  · rename_i heq
    obtain rfl := beq_iff_eq.1 heq
    rw [habsent]
    simp [eq_comm]
  · rename_i hne
    have hkey : k ≠ key := fun heq => hne (beq_iff_eq.2 heq.symm)
    exact (or_iff_left fun h => hkey h.2).symm

theorem consistent_empty : ({} : PoolBuilder).Consistent where
  ordered := ⟨Nat.zero_le _, by simp⟩
  utf8s_iff := by simp [Holds]
  integers_iff := by simp [Holds]
  classes_iff := by simp [NamesClass, Holds]
  signatures_iff := by simp [Holds]

/-! ### One more entry -/

namespace Consistent

theorem push_utf8 (h : pool.Consistent) (hroom : pool.entries.size < maxPoolEntries) {text : Text}
    (habsent : pool.utf8s[text]? = none) :
    Consistent { pool with
      entries := pool.entries.push (.utf8 text)
      utf8s := pool.utf8s.insert text (nextIndex pool.entries) } where
  ordered := h.ordered.push hroom trivial
  utf8s_iff := getElem?_insert_iff h.utf8s_iff habsent fun t index => by
    rw [holds_push_iff hroom, Constant.utf8.injEq]
  integers_iff v index := (h.integers_iff v index).trans (holds_push_of_ne hroom (by simp)).symm
  classes_iff name index := (h.classes_iff name index).trans
    (namesClass_push_of_ne (c := .utf8 text) hroom h.ordered.sound trivial (by simp)).symm
  signatures_iff key index :=
    (h.signatures_iff key index).trans (holds_push_of_ne hroom (by simp)).symm

theorem push_integer (h : pool.Consistent) (hroom : pool.entries.size < maxPoolEntries)
    {value : Int32} (habsent : pool.integers[value]? = none) :
    Consistent { pool with
      entries := pool.entries.push (.integer value)
      integers := pool.integers.insert value (nextIndex pool.entries) } where
  ordered := h.ordered.push hroom trivial
  utf8s_iff t index := (h.utf8s_iff t index).trans (holds_push_of_ne hroom (by simp)).symm
  integers_iff := getElem?_insert_iff h.integers_iff habsent fun v index => by
    rw [holds_push_iff hroom, Constant.integer.injEq]
  classes_iff name index := (h.classes_iff name index).trans
    (namesClass_push_of_ne (c := .integer value) hroom h.ordered.sound trivial (by simp)).symm
  signatures_iff key index :=
    (h.signatures_iff key index).trans (holds_push_of_ne hroom (by simp)).symm

theorem push_class (h : pool.Consistent) (hroom : pool.entries.size < maxPoolEntries)
    {name : Text} {n : UInt16} (hname : Holds pool.entries n (.utf8 name))
    (habsent : pool.classes[name]? = none) :
    Consistent { pool with
      entries := pool.entries.push (.classRef n)
      classes := pool.classes.insert name (nextIndex pool.entries) } where
  ordered := h.ordered.push hroom ⟨name, hname⟩
  utf8s_iff t index := (h.utf8s_iff t index).trans (holds_push_of_ne hroom (by simp)).symm
  integers_iff v index := (h.integers_iff v index).trans (holds_push_of_ne hroom (by simp)).symm
  classes_iff := getElem?_insert_iff h.classes_iff habsent fun name' index => by
    have hsound : (Constant.classRef n).Sound pool.entries := ⟨name, hname⟩
    refine (namesClass_push_iff hroom h.ordered.sound hsound).trans (or_congr_right ⟨?_, ?_⟩)
    · -- The string behind the new entry is the one it was made for.
      rintro ⟨m, hm, hindex, hname'⟩
      obtain rfl := Constant.classRef.inj hm
      exact ⟨hindex, Constant.utf8.inj (hname'.unique hname)⟩
    · rintro ⟨hindex, rfl⟩
      exact ⟨n, rfl, hindex, hname⟩
  signatures_iff key index :=
    (h.signatures_iff key index).trans (holds_push_of_ne hroom (by simp)).symm

theorem push_signature (h : pool.Consistent) (hroom : pool.entries.size < maxPoolEntries)
    {n d : UInt16} (hsound : (Constant.nameAndType n d).Sound pool.entries)
    (habsent : pool.signatures[(n, d)]? = none) :
    Consistent { pool with
      entries := pool.entries.push (.nameAndType n d)
      signatures := pool.signatures.insert (n, d) (nextIndex pool.entries) } where
  ordered := h.ordered.push hroom hsound
  utf8s_iff t index := (h.utf8s_iff t index).trans (holds_push_of_ne hroom (by simp)).symm
  integers_iff v index := (h.integers_iff v index).trans (holds_push_of_ne hroom (by simp)).symm
  classes_iff name index := (h.classes_iff name index).trans
    (namesClass_push_of_ne hroom h.ordered.sound hsound (by simp)).symm
  signatures_iff := getElem?_insert_iff h.signatures_iff habsent fun key index => by
    rw [holds_push_iff hroom, Constant.nameAndType.injEq, Prod.ext_iff]

/-! ### What is there once -/

/-- A shared entry stands at one place: each index by content yields one index for it. -/
theorem index_unique (h : pool.Consistent) (hc : c.IsShared) {i j : UInt16}
    (hi : Holds pool.entries i c) (hj : Holds pool.entries j c) : i = j := by
  cases c with
  | utf8 t => exact Option.some.inj (((h.utf8s_iff t i).2 hi).symm.trans ((h.utf8s_iff t j).2 hj))
  | integer v =>
    exact Option.some.inj (((h.integers_iff v i).2 hi).symm.trans ((h.integers_iff v j).2 hj))
  | classRef n =>
    obtain ⟨t, ht⟩ := h.ordered.sound _ (Array.mem_of_getElem? hi.2)
    exact Option.some.inj (((h.classes_iff t i).2 ⟨n, hi, ht⟩).symm.trans
      ((h.classes_iff t j).2 ⟨n, hj, ht⟩))
  | nameAndType n d =>
    exact Option.some.inj (((h.signatures_iff (n, d) i).2 hi).symm.trans
      ((h.signatures_iff (n, d) j).2 hj))
  | fieldRef | methodRef | other => exact hc.elim

/-- Every place has an index. -/
theorem holds_of_getElem? (h : pool.Consistent) {n : Nat} (hn : pool.entries[n]? = some c) :
    ∃ index : UInt16, index.toNat = n + 1 ∧ Holds pool.entries index c := by
  have hlt := (Array.getElem?_eq_some_iff.1 hn).1
  have hmax : maxPoolEntries < UInt16.size := by decide
  have hindex : (UInt16.ofNat (n + 1)).toNat = n + 1 :=
    UInt16.toNat_ofNat_of_lt' (by have := h.ordered.size_le; omega)
  refine ⟨UInt16.ofNat (n + 1), hindex, ?_, ?_⟩
  · intro hzero
    rw [hzero] at hindex
    exact absurd hindex (by simp)
  · rw [hindex, Nat.add_sub_cancel]
    exact hn

theorem place_unique (h : pool.Consistent) (hc : c.IsShared) {m n : Nat}
    (hm : pool.entries[m]? = some c) (hn : pool.entries[n]? = some c) : m = n := by
  obtain ⟨i, hi, hci⟩ := h.holds_of_getElem? hm
  obtain ⟨j, hj, hcj⟩ := h.holds_of_getElem? hn
  obtain rfl := h.index_unique hc hci hcj
  omega

/-- What an index does not find is not there. -/
theorem getElem?_eq_none_iff {κ : Type} [BEq κ] [Hashable κ] {m : Std.HashMap κ UInt16} {key : κ}
    (h : pool.Consistent)
    (hm : ∀ index : UInt16, m[key]? = some index ↔ Holds pool.entries index c) :
    m[key]? = none ↔ c ∉ pool.entries := by
  rw [Option.eq_none_iff_forall_ne_some]
  constructor
  · intro habsent hc
    obtain ⟨n, hn⟩ := Array.mem_iff_getElem?.1 hc
    obtain ⟨index, -, hindex⟩ := h.holds_of_getElem? hn
    exact habsent index ((hm index).2 hindex)
  · intro habsent index hfound
    exact habsent (Array.mem_of_getElem? ((hm index).1 hfound).2)

end Consistent

end Invariant

/-! ### Steps on a pool -/

/-- `pool'` comes from `pool` by appending entries, from a frozen pool by appending none. -/
structure Develops (pool pool' : PoolBuilder) : Prop where
  /-- Entries are only appended. -/
  append : ∃ more, pool'.entries = pool.entries ++ more
  /-- A frozen pool stays as it is. -/
  frozen : pool.frozen = true → pool'.frozen = true ∧ pool'.entries = pool.entries

theorem Develops.refl (pool : PoolBuilder) : pool.Develops pool :=
  ⟨⟨#[], by simp⟩, fun hfrozen => ⟨hfrozen, rfl⟩⟩

theorem Develops.trans {pool pool' pool'' : PoolBuilder} (h : pool.Develops pool')
    (h' : pool'.Develops pool'') : pool.Develops pool'' := by
  obtain ⟨more, hmore⟩ := h.append
  obtain ⟨more', hmore'⟩ := h'.append
  refine ⟨⟨more ++ more', by rw [hmore', hmore, Array.append_assoc]⟩, fun hfrozen => ?_⟩
  obtain ⟨hfrozen₁, heq⟩ := h.frozen hfrozen
  obtain ⟨hfrozen₂, heq'⟩ := h'.frozen hfrozen₁
  exact ⟨hfrozen₂, heq'.trans heq⟩

/-- From a pool, a step keeps the invariant and only appends, whether it fails or yields something;
`post` holds of what it yields. -/
def Keeps {α : Type} (pool : PoolBuilder) (x : PoolM α) (post : α → PoolBuilder → Prop) : Prop :=
  match x.run pool with
  | .ok a pool' => pool'.Consistent ∧ pool.Develops pool' ∧ post a pool'
  | .error _ pool' => pool'.Consistent ∧ pool.Develops pool'

section Steps

variable {α β : Type} {pool : PoolBuilder} {post : α → PoolBuilder → Prop}
  {post' : β → PoolBuilder → Prop}

theorem Keeps.bind {x : PoolM α} {f : α → PoolM β} (hx : pool.Keeps x post)
    (hf : ∀ a pool', pool'.Consistent → pool.Develops pool' → post a pool' →
      pool'.Keeps (f a) post') :
    pool.Keeps (x >>= f) post' := by
  unfold Keeps at hx ⊢
  rw [EStateM.run_bind]
  cases hrun : x.run pool with
  | error e pool' =>
    rw [hrun] at hx
    exact hx
  | ok a pool' =>
    rw [hrun] at hx
    obtain ⟨hconsistent, hdevelops, hpost⟩ := hx
    have hnext := hf a pool' hconsistent hdevelops hpost
    unfold Keeps at hnext
    dsimp only
    -- What the second step appends comes behind what the first one did.
    cases hrun' : (f a).run pool' with
    | error e pool'' =>
      rw [hrun'] at hnext
      exact ⟨hnext.1, hdevelops.trans hnext.2⟩
    | ok b pool'' =>
      rw [hrun'] at hnext
      exact ⟨hnext.1, hdevelops.trans hnext.2.1, hnext.2.2⟩

theorem Keeps.mono {post₁ : α → PoolBuilder → Prop} {x : PoolM α} (hx : pool.Keeps x post)
    (h : ∀ a pool', post a pool' → post₁ a pool') : pool.Keeps x post₁ := by
  unfold Keeps at hx ⊢
  cases hrun : x.run pool with
  | error e pool' =>
    rw [hrun] at hx
    exact hx
  | ok a pool' =>
    rw [hrun] at hx
    exact ⟨hx.1, hx.2.1, h a pool' hx.2.2⟩

/-- What is found is yielded, and else looked for no further. -/
theorem keeps_share {post : UInt16 → PoolBuilder → Prop} (find : PoolBuilder → Option UInt16)
    {x : PoolM UInt16} (hp : pool.Consistent)
    (hfound : ∀ index, find pool = some index → post index pool)
    (hx : find pool = none → pool.Keeps x post) :
    pool.Keeps (get >>= fun pool : PoolBuilder =>
      match find pool with
      | some index => pure index
      | none => x) post := by
  change pool.Keeps (match find pool with | some index => pure index | none => x) post
  cases hfind : find pool with
  | some index => exact ⟨hp, .refl pool, hfound index hfind⟩
  | none => exact hx hfind

theorem run_add (c : Constant) (pool : PoolBuilder) :
    (add c).run pool =
      if pool.frozen then .error .frozenPool pool
      else if maxPoolEntries ≤ pool.entries.size then .error overflow pool
      else .ok (nextIndex pool.entries) { pool with entries := pool.entries.push c } := by
  change (if pool.frozen then _ else if maxPoolEntries ≤ pool.entries.size then _ else _ :
    PoolM UInt16).run pool = _
  split
  · rfl
  · split <;> rfl

/-- Appending an entry and noting its index.  Between the two the pool is not consistent. -/
theorem keeps_noted {post : UInt16 → PoolBuilder → Prop} {c : Constant}
    {note : UInt16 → PoolBuilder → PoolBuilder} (hp : pool.Consistent)
    (hsame : ∀ index pool, (note index pool).entries = pool.entries)
    (hnoted : pool.entries.size < maxPoolEntries →
      (note (nextIndex pool.entries) { pool with entries := pool.entries.push c }).Consistent ∧
      post (nextIndex pool.entries)
        (note (nextIndex pool.entries) { pool with entries := pool.entries.push c })) :
    pool.Keeps (add c >>= fun index => modify (note index) >>= fun _ => pure index) post := by
  unfold Keeps
  rw [EStateM.run_bind, run_add]
  by_cases hfrozen : pool.frozen = true
  · rw [if_pos hfrozen]
    exact ⟨hp, .refl pool⟩
  · rw [if_neg hfrozen]
    by_cases hfull : maxPoolEntries ≤ pool.entries.size
    · rw [if_pos hfull]
      exact ⟨hp, .refl pool⟩
    · rw [if_neg hfull]
      obtain ⟨hconsistent, hpost⟩ := hnoted (Nat.lt_of_not_le hfull)
      refine ⟨hconsistent, ⟨⟨#[c], ?_⟩, fun h => absurd h hfrozen⟩, hpost⟩
      rw [hsame, Array.push_eq_append]

end Steps

/-! ### Additions -/

section Additions

variable {pool : PoolBuilder}

theorem keeps_addUtf8 (hp : pool.Consistent) (text : Text) :
    pool.Keeps (addUtf8 text) fun index pool' =>
      Holds pool'.entries index (.utf8 text) ∧ pool'.classes = pool.classes := by
  refine keeps_share (fun pool => pool.utf8s[text]?) hp ?_ fun habsent => ?_
  · intro index hfound
    exact ⟨(hp.utf8s_iff text index).1 hfound, rfl⟩
  · refine keeps_noted hp (fun _ _ => rfl) fun hroom => ?_
    exact ⟨hp.push_utf8 hroom habsent, holds_push_self hroom _, rfl⟩

theorem keeps_addInteger (hp : pool.Consistent) (value : Int32) :
    pool.Keeps (addInteger value) fun index pool' =>
      Holds pool'.entries index (.integer value) := by
  refine keeps_share (fun pool => pool.integers[value]?) hp ?_ fun habsent => ?_
  · intro index hfound
    exact (hp.integers_iff value index).1 hfound
  · refine keeps_noted hp (fun _ _ => rfl) fun hroom => ?_
    exact ⟨hp.push_integer hroom habsent, holds_push_self hroom _⟩

theorem keeps_addClass (hp : pool.Consistent) (name : Text) :
    pool.Keeps (addClass name) fun index pool' => NamesClass pool'.entries index name := by
  refine keeps_share (fun pool => pool.classes[name]?) hp ?_ fun habsent => ?_
  · intro index hfound
    exact (hp.classes_iff name index).1 hfound
  · -- The string may be new; the classes are not touched by adding it.
    refine (keeps_addUtf8 hp name).bind fun n pool₁ hp₁ _ hname => ?_
    obtain ⟨hname, hclasses⟩ := hname
    refine keeps_noted hp₁ (fun _ _ => rfl) fun hroom => ?_
    refine ⟨hp₁.push_class hroom hname (by rw [hclasses, habsent]), n, ?_⟩
    exact ⟨holds_push_self hroom _, hname.push _⟩

theorem keeps_addSignature (hp : pool.Consistent) (name descriptor : Text) :
    pool.Keeps (addSignature name descriptor) fun index pool' =>
      Signs pool'.entries index name descriptor := by
  refine (keeps_addUtf8 hp name).bind fun n pool₁ hp₁ _ hname => ?_
  refine (keeps_addUtf8 hp₁ descriptor).bind fun d pool₂ hp₂ hdevelops hdesc => ?_
  obtain ⟨more, hmore⟩ := hdevelops.append
  have hname₂ : Holds pool₂.entries n (.utf8 name) := hmore ▸ hname.1.append more
  refine keeps_share (fun pool => pool.signatures[(n, d)]?) hp₂ ?_ fun habsent => ?_
  · intro index hfound
    exact ⟨n, d, (hp₂.signatures_iff (n, d) index).1 hfound, hname₂, hdesc.1⟩
  · refine keeps_noted hp₂ (fun _ _ => rfl) fun hroom => ?_
    refine ⟨hp₂.push_signature hroom ⟨⟨name, hname₂⟩, descriptor, hdesc.1⟩ habsent, n, d, ?_⟩
    exact ⟨holds_push_self hroom _, hname₂.push _, hdesc.1.push _⟩

end Additions

/-! ### Requests -/

/-- What can be added to a pool and is shared. -/
inductive Item where
  /-- A string. -/
  | utf8 (text : Text)
  /-- A number. -/
  | integer (value : Int32)
  /-- A class, by its name. -/
  | classRef (name : Text)
  /-- A name with a descriptor. -/
  | signature (name descriptor : Text)

namespace Item

/-- The addition of an item. -/
def add : Item → PoolM UInt16
  | utf8 text => addUtf8 text
  | integer value => addInteger value
  | classRef name => addClass name
  | signature name descriptor => addSignature name descriptor

/-- The entry with an index is of the kind and content of an item. -/
def IsAt (entries : Array Constant) (index : UInt16) : Item → Prop
  | utf8 text => Holds entries index (.utf8 text)
  | integer value => Holds entries index (.integer value)
  | classRef name => NamesClass entries index name
  | signature name descriptor => Signs entries index name descriptor

theorem IsAt.append {entries : Array Constant} {index : UInt16} {item : Item}
    (h : item.IsAt entries index) (more : Array Constant) : item.IsAt (entries ++ more) index := by
  cases item with
  | utf8 | integer => exact Holds.append h more
  | classRef => exact NamesClass.append h more
  | signature => exact Signs.append h more

/-- An addition yields the index of what was asked for. -/
theorem keeps {pool : PoolBuilder} (hp : pool.Consistent) (item : Item) :
    pool.Keeps item.add fun index pool' => item.IsAt pool'.entries index := by
  cases item with
  | utf8 text =>
    have hadd := keeps_addUtf8 hp text
    exact hadd.mono fun index pool' h => h.1
  | integer value => exact keeps_addInteger hp value
  | classRef name => exact keeps_addClass hp name
  | signature name descriptor => exact keeps_addSignature hp name descriptor

theorem run_addUtf8_of_holds {pool : PoolBuilder} (hp : pool.Consistent) {text : Text}
    {index : UInt16} (h : Holds pool.entries index (.utf8 text)) :
    (addUtf8 text).run pool = .ok index pool := by
  have hfound := (hp.utf8s_iff text index).2 h
  change (match pool.utf8s[text]? with | some index => _ | none => _ : PoolM UInt16).run pool = _
  rw [hfound]
  rfl

/-- **Adding what is there** yields its index and leaves the pool as it is, frozen or not. -/
theorem run_of_isAt {pool : PoolBuilder} (hp : pool.Consistent) {item : Item} {index : UInt16}
    (h : item.IsAt pool.entries index) : item.add.run pool = .ok index pool := by
  cases item with
  | utf8 text => exact run_addUtf8_of_holds hp h
  | integer value =>
    have hfound := (hp.integers_iff value index).2 h
    change (match pool.integers[value]? with | some index => _ | none => _ : PoolM UInt16).run pool
      = _
    rw [hfound]
    rfl
  | classRef name =>
    have hfound := (hp.classes_iff name index).2 h
    change (match pool.classes[name]? with | some index => _ | none => _ : PoolM UInt16).run pool
      = _
    rw [hfound]
    rfl
  | signature name descriptor =>
    obtain ⟨n, d, hsignature, hname, hdesc⟩ := h
    have hfound := (hp.signatures_iff (n, d) index).2 hsignature
    refine run_bind_eq_ok.2 ⟨n, pool, run_addUtf8_of_holds hp hname, ?_⟩
    refine run_bind_eq_ok.2 ⟨d, pool, run_addUtf8_of_holds hp hdesc, ?_⟩
    change (match pool.signatures[(n, d)]? with | some index => _ | none => _ :
      PoolM UInt16).run pool = _
    rw [hfound]
    rfl

end Item

/-- No entry can be added from here on. -/
def freeze (pool : PoolBuilder) : PoolBuilder :=
  { pool with frozen := true }

/-- What a pool can be asked for. -/
inductive PoolRequest where
  /-- To add an item. -/
  | add (item : Item)
  /-- To take no entries any more. -/
  | freeze

/-- The pool behind a request, also where that fails. -/
def perform (pool : PoolBuilder) : PoolRequest → PoolBuilder
  | .add item =>
    match item.add.run pool with
    | .ok _ pool' | .error _ pool' => pool'
  | .freeze => pool.freeze

/-- The pool behind several requests. -/
def performAll (pool : PoolBuilder) (requests : List PoolRequest) : PoolBuilder :=
  requests.foldl perform pool

variable {pool : PoolBuilder}

theorem Consistent.freeze (hp : pool.Consistent) : pool.freeze.Consistent :=
  ⟨hp.1, hp.2, hp.3, hp.4, hp.5⟩

theorem Consistent.perform (hp : pool.Consistent) (request : PoolRequest) :
    (pool.perform request).Consistent ∧ pool.Develops (pool.perform request) := by
  cases request with
  | add item =>
    have hkeeps := item.keeps hp
    unfold Keeps at hkeeps
    unfold PoolBuilder.perform
    dsimp only
    cases hrun : item.add.run pool with
    | ok index pool' =>
      rw [hrun] at hkeeps
      exact ⟨hkeeps.1, hkeeps.2.1⟩
    | error e pool' =>
      rw [hrun] at hkeeps
      exact hkeeps
  | freeze =>
    refine ⟨hp.freeze, ⟨#[], ?_⟩, fun _ => ⟨rfl, rfl⟩⟩
    rw [Array.append_empty]
    rfl

theorem Consistent.performAll (hp : pool.Consistent) (requests : List PoolRequest) :
    (pool.performAll requests).Consistent ∧ pool.Develops (pool.performAll requests) := by
  induction requests generalizing pool with
  | nil => exact ⟨hp, .refl pool⟩
  | cons request rest ih =>
    obtain ⟨hp₁, hdevelops₁⟩ := hp.perform request
    obtain ⟨hp₂, hdevelops₂⟩ := ih hp₁
    exact ⟨hp₂, hdevelops₁.trans hdevelops₂⟩

/-- **Adding again**: what an addition yielded it yields in every later pool, and appends nothing
there. -/
theorem Consistent.run_again (hp : pool.Consistent) {item : Item} {index : UInt16}
    {pool' : PoolBuilder} (hrun : item.add.run pool = .ok index pool') :
    item.IsAt pool'.entries index ∧ ∀ later : List PoolRequest,
      item.add.run (pool'.performAll later) = .ok index (pool'.performAll later) := by
  have hkeeps := item.keeps hp
  unfold Keeps at hkeeps
  rw [hrun] at hkeeps
  obtain ⟨hp', -, hat⟩ := hkeeps
  refine ⟨hat, fun later => ?_⟩
  obtain ⟨hlater, hdevelops⟩ := hp'.performAll later
  obtain ⟨more, hmore⟩ := hdevelops.append
  exact Item.run_of_isAt hlater (hmore ▸ hat.append more)

/-- **Sharing in the constant pool.**  Whatever is asked of a new pool, and whatever of that fails:
the entries fit their indexes and refer to earlier entries of the right kinds; a shared entry stands
in one place; strings and numbers are found where they are, and are not found only where they are
not; later requests append to the entries, and none to a frozen pool; and an addition that succeeds
yields an index of what was asked for, now and in every later pool, which it leaves as it is from
then on. -/
theorem requests_share (requests : List PoolRequest) :
    let pool := ({} : PoolBuilder).performAll requests
    pool.entries.size ≤ maxPoolEntries ∧
    (∀ (n : Nat) (c : Constant), pool.entries[n]? = some c → c.Sound (pool.entries.extract 0 n)) ∧
    (∀ (m n : Nat) (c : Constant), c.IsShared → pool.entries[m]? = some c →
      pool.entries[n]? = some c → m = n) ∧
    (∀ text : Text,
      (∀ index, pool.utf8s[text]? = some index ↔ Holds pool.entries index (.utf8 text)) ∧
      (pool.utf8s[text]? = none ↔ .utf8 text ∉ pool.entries)) ∧
    (∀ value : Int32,
      (∀ index, pool.integers[value]? = some index ↔ Holds pool.entries index (.integer value)) ∧
      (pool.integers[value]? = none ↔ .integer value ∉ pool.entries)) ∧
    (∀ later, (∃ more, (pool.performAll later).entries = pool.entries ++ more) ∧
      (pool.freeze.performAll later).entries = pool.entries) ∧
    (∀ (item : Item) (index : UInt16) (pool' : PoolBuilder), item.add.run pool = .ok index pool' →
      item.IsAt pool'.entries index ∧ ∀ later : List PoolRequest,
        item.add.run (pool'.performAll later) = .ok index (pool'.performAll later)) := by
  intro pool
  have hp : pool.Consistent := (consistent_empty.performAll requests).1
  refine ⟨hp.ordered.size_le, hp.ordered.earlier, ?_, ?_, ?_, ?_, ?_⟩
  · intro m n c hc hm hn
    exact hp.place_unique hc hm hn
  · intro text
    exact ⟨hp.utf8s_iff text, hp.getElem?_eq_none_iff (hp.utf8s_iff text)⟩
  · intro value
    exact ⟨hp.integers_iff value, hp.getElem?_eq_none_iff (hp.integers_iff value)⟩
  · intro later
    refine ⟨(hp.performAll later).2.append, ?_⟩
    exact ((hp.freeze.performAll later).2.frozen rfl).2
  · intro item index pool' hrun
    exact hp.run_again hrun

/-- The class A of a new pool is its second entry, behind its name, and stays that when the pool is
frozen. -/
theorem requests_share_class :
    ∃ pool : PoolBuilder, (Item.classRef [65]).add.run {} = .ok 2 pool ∧
      pool.entries = #[.utf8 [65], .classRef 1] ∧
      (Item.classRef [65]).add.run pool.freeze = .ok 2 pool.freeze := by
  obtain ⟨pool, hrun, hentries⟩ : ∃ pool : PoolBuilder,
      (Item.classRef [65]).add.run {} = .ok 2 pool ∧ pool.entries = #[.utf8 [65], .classRef 1] := by
    refine ⟨{
      entries := #[.utf8 [65], .classRef 1]
      utf8s := ({} : Std.HashMap Text UInt16).insert [65] 1
      classes := ({} : Std.HashMap Text UInt16).insert [65] 2 }, ?_, rfl⟩
    cbv
  obtain ⟨-, -, -, -, -, -, hagain⟩ := requests_share []
  obtain ⟨-, hlater⟩ := hagain (.classRef [65]) 2 pool hrun
  exact ⟨pool, hrun, hentries, hlater [.freeze]⟩

end PoolBuilder

end Classwright
