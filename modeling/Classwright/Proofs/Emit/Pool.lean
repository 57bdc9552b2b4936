import Classwright.Emit.Pool
import Classwright.Proofs.Program.WellFormed

/-!
# What a constant pool holds

Entries are only ever appended, so an index keeps its meaning (`Holds.append`).  Throughout its
construction the indexes by content of a pool agree with its entries and every entry refers to
entries of the right kind (`PoolBuilder.Valid`); each addition keeps that and yields an index of what
was asked for.  The complete pool of a program knows the class, the class it extends, and a
reference for each declaration (`PoolBuilder.complete_of_ofProgram`).
-/

namespace Classwright

/-! ### Entries -/

/-- The entry with an index is `c`. -/
def Holds (entries : Array Constant) (index : UInt16) (c : Constant) : Prop :=
  index ≠ 0 ∧ entries[index.toNat - 1]? = some c

/-- The entry with an index is the class of a given name. -/
def NamesClass (entries : Array Constant) (index : UInt16) (name : Text) : Prop :=
  ∃ n, Holds entries index (.classRef n) ∧ Holds entries n (.utf8 name)

/-- The entry with an index is a name with a descriptor. -/
def Signs (entries : Array Constant) (index : UInt16) (name descriptor : Text) : Prop :=
  ∃ n d, Holds entries index (.nameAndType n d) ∧ Holds entries n (.utf8 name) ∧
    Holds entries d (.utf8 descriptor)

theorem Holds.append {entries : Array Constant} {index : UInt16} {c : Constant}
    (h : Holds entries index c) (more : Array Constant) : Holds (entries ++ more) index c := by
  refine ⟨h.1, ?_⟩
  obtain ⟨hlt, -⟩ := Array.getElem?_eq_some_iff.1 h.2
  rw [Array.getElem?_append_left hlt, h.2]

theorem NamesClass.append {entries : Array Constant} {index : UInt16} {name : Text}
    (h : NamesClass entries index name) (more : Array Constant) :
    NamesClass (entries ++ more) index name := by
  obtain ⟨n, hc, hn⟩ := h
  exact ⟨n, hc.append more, hn.append more⟩

theorem Signs.append {entries : Array Constant} {index : UInt16} {name descriptor : Text}
    (h : Signs entries index name descriptor) (more : Array Constant) :
    Signs (entries ++ more) index name descriptor := by
  obtain ⟨n, d, hs, hn, hd⟩ := h
  exact ⟨n, d, hs.append more, hn.append more, hd.append more⟩

/-- What an entry refers to is of the right kind. -/
def Constant.Sound (entries : Array Constant) : Constant → Prop
  | utf8 _ | integer _ => True
  | classRef name => ∃ t, Holds entries name (.utf8 t)
  | nameAndType name descriptor =>
    (∃ t, Holds entries name (.utf8 t)) ∧ ∃ t, Holds entries descriptor (.utf8 t)
  | fieldRef owner signature | methodRef owner signature =>
    (∃ n, Holds entries owner (.classRef n)) ∧ ∃ n d, Holds entries signature (.nameAndType n d)
  | other _ _ _ _ => False

theorem Constant.Sound.append {entries : Array Constant} {c : Constant} (h : c.Sound entries)
    (more : Array Constant) : c.Sound (entries ++ more) := by
  cases c with
  | utf8 | integer => trivial
  | classRef =>
    obtain ⟨t, ht⟩ := h
    exact ⟨t, ht.append more⟩
  | nameAndType =>
    obtain ⟨⟨t, ht⟩, u, hu⟩ := h
    exact ⟨⟨t, ht.append more⟩, u, hu.append more⟩
  | fieldRef | methodRef =>
    obtain ⟨⟨n, hn⟩, m, d, hd⟩ := h
    exact ⟨⟨n, hn.append more⟩, m, d, hd.append more⟩
  | other => exact h

namespace PoolBuilder

/-! ### Steps that succeed -/

variable {α β : Type} {pool pool' : PoolBuilder}

theorem run_bind_eq_ok {x : PoolM α} {f : α → PoolM β} {b : β} :
    (x >>= f).run pool = .ok b pool' ↔
      ∃ a pool₁, x.run pool = .ok a pool₁ ∧ (f a).run pool₁ = .ok b pool' := by
  change EStateM.bind x f pool = .ok b pool' ↔
    ∃ a pool₁, x pool = .ok a pool₁ ∧ f a pool₁ = .ok b pool'
  unfold EStateM.bind
  cases x pool <;> simp

theorem run_pure_eq_ok {a b : α} :
    (pure a : PoolM α).run pool = .ok b pool' ↔ a = b ∧ pool = pool' := by
  have hpure : (pure a : PoolM α).run pool = .ok a pool := rfl
  rw [hpure, EStateM.Result.ok.injEq]

theorem run_get_eq_ok {p : PoolBuilder} :
    (get : PoolM PoolBuilder).run pool = .ok p pool' ↔ pool = p ∧ pool = pool' := by
  have hget : (get : PoolM PoolBuilder).run pool = .ok pool pool := rfl
  rw [hget, EStateM.Result.ok.injEq]

theorem run_modify_eq_ok {f : PoolBuilder → PoolBuilder} {u : Unit} :
    (modify f : PoolM Unit).run pool = .ok u pool' ↔ f pool = pool' := by
  have hmodify : (modify f : PoolM Unit).run pool = .ok () (f pool) := rfl
  rw [hmodify, EStateM.Result.ok.injEq]
  simp

theorem run_throw_ne_ok {e : EmitError} {a : α} : (throw e : PoolM α).run pool ≠ .ok a pool' := by
  have hthrow : (throw e : PoolM α).run pool = .error e pool := rfl
  rw [hthrow]
  simp

/-! ### The invariant -/

/-- The indexes of a pool agree with its entries, each entry is sound, and `S` holds of its
strings. -/
structure Valid (S : Text → Prop) (pool : PoolBuilder) : Prop where
  /-- Indexes have two bytes. -/
  size_le : pool.entries.size ≤ maxPoolEntries
  /-- Entries refer to entries of the right kind. -/
  sound : ∀ c ∈ pool.entries, c.Sound pool.entries
  /-- The strings are of a given kind. -/
  texts : ∀ t, .utf8 t ∈ pool.entries → S t
  /-- Strings are found by their content. -/
  utf8s : ∀ (t : Text) (index : UInt16), pool.utf8s[t]? = some index →
    Holds pool.entries index (.utf8 t)
  /-- So are numbers, -/
  integers : ∀ (v : Int32) (index : UInt16), pool.integers[v]? = some index →
    Holds pool.entries index (.integer v)
  /-- classes, -/
  classes : ∀ (name : Text) (index : UInt16), pool.classes[name]? = some index →
    NamesClass pool.entries index name
  /-- and names with types. -/
  signatures : ∀ (n d index : UInt16), pool.signatures[(n, d)]? = some index →
    Holds pool.entries index (.nameAndType n d)

/-- `pool'` is `pool` with more entries, and what it notes beside them is the same. -/
structure Grows (pool pool' : PoolBuilder) : Prop where
  /-- Entries are only appended. -/
  entries_eq : ∃ more, pool'.entries = pool.entries ++ more
  /-- The references stay. -/
  refs_eq : pool'.refs = pool.refs
  /-- So does the class, -/
  this_eq : pool'.this = pool.this
  /-- the class it extends, -/
  super_eq : pool'.super = pool.super
  /-- and the constructor of that one. -/
  superInit_eq : pool'.superInit = pool.superInit

theorem Grows.refl (pool : PoolBuilder) : pool.Grows pool :=
  ⟨⟨#[], by simp⟩, rfl, rfl, rfl, rfl⟩

theorem Grows.trans {pool'' : PoolBuilder} (h : pool.Grows pool') (h' : pool'.Grows pool'') :
    pool.Grows pool'' := by
  obtain ⟨more, hmore⟩ := h.entries_eq
  obtain ⟨more', hmore'⟩ := h'.entries_eq
  exact ⟨⟨more ++ more', by rw [hmore', hmore, Array.append_assoc]⟩, h'.refs_eq.trans h.refs_eq,
    h'.this_eq.trans h.this_eq, h'.super_eq.trans h.super_eq,
    h'.superInit_eq.trans h.superInit_eq⟩

theorem Grows.size_le (h : pool.Grows pool') : pool.entries.size ≤ pool'.entries.size := by
  obtain ⟨more, hmore⟩ := h.entries_eq
  rw [hmore, Array.size_append]
  omega

theorem Grows.holds (h : pool.Grows pool') {index : UInt16} {c : Constant}
    (hc : Holds pool.entries index c) : Holds pool'.entries index c := by
  obtain ⟨more, hmore⟩ := h.entries_eq
  exact hmore ▸ hc.append more

theorem Grows.namesClass (h : pool.Grows pool') {index : UInt16} {name : Text}
    (hc : NamesClass pool.entries index name) : NamesClass pool'.entries index name := by
  obtain ⟨more, hmore⟩ := h.entries_eq
  exact hmore ▸ hc.append more

theorem Grows.signs (h : pool.Grows pool') {index : UInt16} {name descriptor : Text}
    (hs : Signs pool.entries index name descriptor) :
    Signs pool'.entries index name descriptor := by
  obtain ⟨more, hmore⟩ := h.entries_eq
  exact hmore ▸ hs.append more

/-! ### Additions -/

variable {S : Text → Prop} {index : UInt16}

/-- A property of all indexed keys holds of a new one as well. -/
theorem forall_insert {κ : Type} [BEq κ] [Hashable κ] [LawfulBEq κ] [LawfulHashable κ]
    {m : Std.HashMap κ UInt16} {P : κ → UInt16 → Prop}
    (hm : ∀ (k : κ) (i : UInt16), m[k]? = some i → P k i) {k : κ} {i : UInt16} (hk : P k i) :
    ∀ (k' : κ) (i' : UInt16), (m.insert k i)[k']? = some i' → P k' i' := by
  intro k' i' h
  rw [Std.HashMap.getElem?_insert] at h
  split at h
  · rename_i heq
    obtain rfl := beq_iff_eq.1 heq
    obtain rfl := Option.some.inj h
    exact hk
  · exact hm k' i' h

/-- Appending an entry keeps the invariant. -/
theorem add_spec {c : Constant} (h : (add c).run pool = .ok index pool') (hp : pool.Valid S)
    (hc : c.Sound pool.entries) (ht : ∀ t, c = .utf8 t → S t) :
    pool'.Valid S ∧ pool.Grows pool' ∧ Holds pool'.entries index c ∧
      pool.entries.size < pool'.entries.size := by
  simp only [add, run_bind_eq_ok, run_get_eq_ok] at h
  obtain ⟨_, _, ⟨rfl, rfl⟩, h⟩ := h
  split at h
  · exact absurd h run_throw_ne_ok
  · split at h
    · exact absurd h run_throw_ne_ok
    · rename_i hfull
      -- the entry fits, so the index is not cut down
      have hsize : pool.entries.size < 0xFFFE := Nat.lt_of_not_le hfull
      simp only [run_bind_eq_ok, run_modify_eq_ok, run_pure_eq_ok] at h
      obtain ⟨_, _, rfl, rfl, rfl⟩ := h
      have hpush : pool.entries.push c = pool.entries ++ #[c] := by simp
      have hindex : (UInt16.ofNat (pool.entries.size + 1)).toNat = pool.entries.size + 1 := by
        rw [UInt16.toNat_ofNat']
        omega
      have hgrows : pool.Grows { pool with entries := pool.entries.push c } :=
        ⟨⟨#[c], hpush⟩, rfl, rfl, rfl, rfl⟩
      -- the bound, the entries, the texts and the four indexes, and then the new entry
      refine ⟨⟨?_, ?_, ?_, ?_, ?_, ?_, ?_⟩, hgrows, ⟨?_, ?_⟩, ?_⟩
      · rw [Array.size_push]
        exact hsize
      · intro c' hc'
        rw [hpush]
        rcases Array.mem_push.1 hc' with hc' | rfl
        · exact (hp.sound c' hc').append _
        · exact hc.append _
      · intro t hmem
        rcases Array.mem_push.1 hmem with hmem | rfl
        · exact hp.texts t hmem
        · exact ht t rfl
      · exact fun t index hi => hgrows.holds (hp.utf8s t index hi)
      · exact fun v index hi => hgrows.holds (hp.integers v index hi)
      · exact fun name index hi => hgrows.namesClass (hp.classes name index hi)
      · exact fun n d index hi => hgrows.holds (hp.signatures n d index hi)
      · intro hzero
        rw [hzero] at hindex
        exact absurd hindex (by simp)
      · rw [hindex]
        exact Array.getElem?_push_size
      · rw [Array.size_push]
        exact Nat.lt_succ_self _

theorem addUtf8_spec {text : Text} (h : (addUtf8 text).run pool = .ok index pool')
    (hp : pool.Valid S) (hS : S text) :
    pool'.Valid S ∧ pool.Grows pool' ∧ Holds pool'.entries index (.utf8 text) := by
  simp only [addUtf8, run_bind_eq_ok, run_get_eq_ok] at h
  obtain ⟨_, _, ⟨rfl, rfl⟩, h⟩ := h
  split at h
  · rename_i hfound
    obtain ⟨rfl, rfl⟩ := run_pure_eq_ok.1 h
    exact ⟨hp, .refl _, hp.utf8s _ _ hfound⟩
  · simp only [run_bind_eq_ok, run_modify_eq_ok, run_pure_eq_ok] at h
    obtain ⟨_, pool₁, hadd, _, _, rfl, rfl, rfl⟩ := h
    obtain ⟨hvalid, hgrows, hholds, -⟩ := add_spec hadd hp trivial (fun t ht => by
      obtain rfl := Constant.utf8.inj ht
      exact hS)
    exact ⟨{ hvalid with utf8s := forall_insert hvalid.utf8s hholds },
      ⟨hgrows.1, hgrows.2, hgrows.3, hgrows.4, hgrows.5⟩, hholds⟩

theorem addInteger_spec {value : Int32} (h : (addInteger value).run pool = .ok index pool')
    (hp : pool.Valid S) : pool'.Valid S ∧ pool.Grows pool' := by
  simp only [addInteger, run_bind_eq_ok, run_get_eq_ok] at h
  obtain ⟨_, _, ⟨rfl, rfl⟩, h⟩ := h
  split at h
  · obtain ⟨rfl, rfl⟩ := run_pure_eq_ok.1 h
    exact ⟨hp, .refl _⟩
  · simp only [run_bind_eq_ok, run_modify_eq_ok, run_pure_eq_ok] at h
    obtain ⟨_, pool₁, hadd, _, _, rfl, rfl, rfl⟩ := h
    obtain ⟨hvalid, hgrows, hholds, -⟩ := add_spec hadd hp trivial (by simp)
    exact ⟨{ hvalid with integers := forall_insert hvalid.integers hholds },
      ⟨hgrows.1, hgrows.2, hgrows.3, hgrows.4, hgrows.5⟩⟩

theorem addClass_spec {name : Text} (h : (addClass name).run pool = .ok index pool')
    (hp : pool.Valid S) (hS : S name) :
    pool'.Valid S ∧ pool.Grows pool' ∧ NamesClass pool'.entries index name := by
  simp only [addClass, run_bind_eq_ok, run_get_eq_ok] at h
  obtain ⟨_, _, ⟨rfl, rfl⟩, h⟩ := h
  split at h
  · rename_i hfound
    obtain ⟨rfl, rfl⟩ := run_pure_eq_ok.1 h
    exact ⟨hp, .refl _, hp.classes _ _ hfound⟩
  · simp only [run_bind_eq_ok, run_modify_eq_ok, run_pure_eq_ok] at h
    obtain ⟨n, pool₁, hname, _, pool₂, hadd, _, _, rfl, rfl, rfl⟩ := h
    obtain ⟨hvalid₁, hgrows₁, hutf8⟩ := addUtf8_spec hname hp hS
    obtain ⟨hvalid, hgrows, hholds, -⟩ := add_spec hadd hvalid₁ ⟨name, hutf8⟩ (by simp)
    have hclass : NamesClass pool₂.entries _ name := ⟨n, hholds, hgrows.holds hutf8⟩
    have hall := hgrows₁.trans hgrows
    exact ⟨{ hvalid with classes := forall_insert hvalid.classes hclass },
      ⟨hall.1, hall.2, hall.3, hall.4, hall.5⟩, hclass⟩

theorem addSignature_spec {name descriptor : Text}
    (h : (addSignature name descriptor).run pool = .ok index pool') (hp : pool.Valid S)
    (hn : S name) (hd : S descriptor) :
    pool'.Valid S ∧ pool.Grows pool' ∧ Signs pool'.entries index name descriptor := by
  simp only [addSignature, run_bind_eq_ok, run_get_eq_ok] at h
  obtain ⟨n, pool₁, hname, d, pool₂, hdesc, _, _, ⟨rfl, rfl⟩, h⟩ := h
  obtain ⟨hvalid₁, hgrows₁, hutf8⟩ := addUtf8_spec hname hp hn
  obtain ⟨hvalid₂, hgrows₂, hutf8'⟩ := addUtf8_spec hdesc hvalid₁ hd
  split at h
  · rename_i hfound
    obtain ⟨rfl, rfl⟩ := run_pure_eq_ok.1 h
    exact ⟨hvalid₂, hgrows₁.trans hgrows₂, n, d, hvalid₂.signatures _ _ _ hfound,
      hgrows₂.holds hutf8, hutf8'⟩
  · simp only [run_bind_eq_ok, run_modify_eq_ok, run_pure_eq_ok] at h
    obtain ⟨_, pool₃, hadd, _, _, rfl, rfl, rfl⟩ := h
    obtain ⟨hvalid, hgrows, hholds, -⟩ := add_spec hadd hvalid₂
      ⟨⟨name, hgrows₂.holds hutf8⟩, descriptor, hutf8'⟩ (by simp)
    have hall := (hgrows₁.trans hgrows₂).trans hgrows
    refine ⟨{ hvalid with signatures := ?_ }, ⟨hall.1, hall.2, hall.3, hall.4, hall.5⟩, n, d,
      hholds, hgrows.holds (hgrows₂.holds hutf8), hgrows.holds hutf8'⟩
    have hinsert := forall_insert (P := fun key i => Holds pool₃.entries i
      (.nameAndType key.1 key.2)) (fun key i hi => hvalid.signatures key.1 key.2 i hi)
      (k := (n, d)) hholds
    exact fun n' d' i hi => hinsert (n', d') i hi

/-- Appending a reference to a field or method behind its name and type. -/
theorem addRef_spec (make : UInt16 → Constant) {owner : UInt16} {name descriptor className : Text}
    (h : (addSignature name descriptor >>= fun s => add (make s)).run pool = .ok index pool')
    (hp : pool.Valid S) (hn : S name) (hd : S descriptor)
    (howner : NamesClass pool.entries owner className)
    (hmake : ∀ s, make s = .fieldRef owner s ∨ make s = .methodRef owner s) :
    pool'.Valid S ∧ pool.Grows pool' ∧ pool.entries.size < pool'.entries.size ∧
      ∃ s, Holds pool'.entries index (make s) ∧ Signs pool'.entries s name descriptor := by
  rw [run_bind_eq_ok] at h
  obtain ⟨s, pool₁, hsig, hadd⟩ := h
  obtain ⟨hvalid₁, hgrows₁, hsigns⟩ := addSignature_spec hsig hp hn hd
  obtain ⟨n, hclass, -⟩ := hgrows₁.namesClass howner
  have hsound : (make s).Sound pool₁.entries := by
    obtain ⟨m, d, hnat, -⟩ := hsigns
    rcases hmake s with hs | hs <;> exact hs ▸ ⟨⟨n, hclass⟩, m, d, hnat⟩
  have hnot : ∀ t, make s ≠ .utf8 t := by
    intro t ht
    rcases hmake s with hs | hs <;> simp [hs] at ht
  obtain ⟨hvalid, hgrows, hholds, hlt⟩ := add_spec hadd hvalid₁ hsound
    (fun t ht => absurd ht (hnot t))
  exact ⟨hvalid, hgrows₁.trans hgrows, Nat.lt_of_le_of_lt hgrows₁.size_le hlt, s, hholds,
    hgrows.signs hsigns⟩

/-! ### Declarations -/

/-- The entry with an index is the reference to a declaration of the class. -/
inductive RefersTo (entries : Array Constant) (owner : UInt16) (d : Declaration) (index : UInt16) :
    Prop
  | field {s : UInt16} (hk : d.kind = .constant ∨ d.kind = .var)
      (h : Holds entries index (.fieldRef owner s))
      (hs : Signs entries s d.name ClassFile.intDescriptor) : RefersTo entries owner d index
  | method {s : UInt16} (hk : d.kind = .procedure) (h : Holds entries index (.methodRef owner s))
      (hs : Signs entries s d.name d.descriptor) : RefersTo entries owner d index

theorem Grows.refersTo (h : pool.Grows pool') {owner : UInt16} {d : Declaration}
    (hd : RefersTo pool.entries owner d index) : RefersTo pool'.entries owner d index := by
  cases hd with
  | field hk hr hs => exact .field hk (h.holds hr) (h.signs hs)
  | method hk hr hs => exact .method hk (h.holds hr) (h.signs hs)

/-- The strings in the pool of a program. -/
def PoolText (p : Program) (t : Text) : Prop :=
  t = p.name ∨
    (∃ id d, p.decl? id = some d ∧ d.table = Program.classTable ∧
      (t = d.name ∨ d.kind = .procedure ∧ t = d.descriptor)) ∨
    t ∈ [ClassFile.objectClass, ClassFile.initName, ClassFile.initDescriptor,
      ClassFile.codeAttribute, ClassFile.constantValueAttribute, ClassFile.intDescriptor]

variable {p : Program}

theorem poolText_standard {t : Text}
    (h : t ∈ [ClassFile.objectClass, ClassFile.initName, ClassFile.initDescriptor,
      ClassFile.codeAttribute, ClassFile.constantValueAttribute, ClassFile.intDescriptor]) :
    PoolText p t :=
  Or.inr (Or.inr h)

theorem addMember_spec {owner : UInt16} {id : DeclId} {d : Declaration} {className : Text}
    (h : (addMember owner d).run pool = .ok index pool') (hp : pool.Valid (PoolText p))
    (hd : p.decl? id = some d) (ht : d.table = Program.classTable)
    (howner : NamesClass pool.entries owner className) :
    pool'.Valid (PoolText p) ∧ pool.Grows pool' ∧ pool.entries.size < pool'.entries.size ∧
      RefersTo pool'.entries owner d index := by
  have hname : PoolText p d.name := Or.inr (Or.inl ⟨id, d, hd, ht, Or.inl rfl⟩)
  have hint : PoolText p ClassFile.intDescriptor := poolText_standard (by simp)
  unfold addMember at h
  split at h
  · rename_i hk
    simp only [run_bind_eq_ok] at h
    -- a constant has texts and its value in front of its reference
    obtain ⟨_, pool₁, h₁, _, pool₂, h₂, _, pool₃, h₃, _, pool₄, h₄, h⟩ := h
    obtain ⟨hv₁, hg₁, -⟩ := addUtf8_spec h₁ hp hname
    obtain ⟨hv₂, hg₂, -⟩ := addUtf8_spec h₂ hv₁ hint
    obtain ⟨hv₃, hg₃⟩ := addInteger_spec h₃ hv₂
    obtain ⟨hv₄, hg₄, -⟩ := addUtf8_spec h₄ hv₃ (poolText_standard (by simp))
    have hgrows := ((hg₁.trans hg₂).trans hg₃).trans hg₄
    obtain ⟨hvalid, hg, hlt, s, href, hsigns⟩ := addRef_spec (.fieldRef owner) h hv₄ hname
      hint (hgrows.namesClass howner) (fun s => Or.inl rfl)
    exact ⟨hvalid, hgrows.trans hg, Nat.lt_of_le_of_lt hgrows.size_le hlt,
      .field (Or.inl hk) href hsigns⟩
  · rename_i hk
    obtain ⟨hvalid, hg, hlt, s, href, hsigns⟩ := addRef_spec (.fieldRef owner) h hp hname
      hint howner (fun s => Or.inl rfl)
    exact ⟨hvalid, hg, hlt, .field (Or.inr hk) href hsigns⟩
  · rename_i hk
    obtain ⟨hvalid, hg, hlt, s, href, hsigns⟩ := addRef_spec (.methodRef owner) h hp hname
      (Or.inr (Or.inl ⟨id, d, hd, ht, Or.inr ⟨hk, rfl⟩⟩)) howner (fun s => Or.inr rfl)
    exact ⟨hvalid, hg, hlt, .method hk href hsigns⟩
  · exact absurd h run_throw_ne_ok

/-- The references that a pool notes are those of declarations. -/
def RefsSound (p : Program) (owner : UInt16) (pool : PoolBuilder) : Prop :=
  ∀ (id : DeclId) (index : UInt16), pool.refs[id]? = some index →
    ∃ d, p.decl? id = some d ∧ RefersTo pool.entries owner d index

theorem RefsSound.grows {owner : UInt16} (h : pool.RefsSound p owner) (hg : pool.Grows pool') :
    pool'.RefsSound p owner := by
  intro id index hi
  rw [hg.refs_eq] at hi
  obtain ⟨d, hd, href⟩ := h id index hi
  exact ⟨d, hd, hg.refersTo href⟩

/-- Adding the declarations of the class keeps the invariant, notes their references, and takes an
entry for each of them. -/
theorem addMembers_spec {owner : UInt16} {ids : List DeclId} {className : Text} {u : Unit}
    (h : (addMembers p owner ids).run pool = .ok u pool') (hp : pool.Valid (PoolText p))
    (hids : ∀ id ∈ ids, ∃ d, p.decl? id = some d ∧ d.table = Program.classTable)
    (howner : NamesClass pool.entries owner className) (hrefs : pool.RefsSound p owner) :
    pool'.Valid (PoolText p) ∧ pool.Grows { pool' with refs := pool.refs } ∧
      pool.entries.size + ids.length ≤ pool'.entries.size ∧ pool'.RefsSound p owner := by
  induction ids generalizing pool with
  | nil =>
    obtain ⟨-, rfl⟩ := run_pure_eq_ok.1 h
    exact ⟨hp, .refl _, Nat.le_refl _, hrefs⟩
  | cons id rest ih =>
    rw [List.forall_mem_cons] at hids
    obtain ⟨⟨d, hd, ht⟩, hrest⟩ := hids
    simp only [addMembers, hd, run_bind_eq_ok, run_modify_eq_ok] at h
    obtain ⟨ref, pool₁, hmember, _, _, rfl, h⟩ := h
    obtain ⟨hvalid₁, hgrows₁, hlt, href⟩ := addMember_spec hmember hp hd ht howner
    -- the reference of the first member is noted before the others are added
    have hrefs₁ : RefsSound p owner { pool₁ with refs := pool₁.refs.insert id ref } :=
      forall_insert (P := fun id index => ∃ d, p.decl? id = some d ∧
        RefersTo pool₁.entries owner d index) (hrefs.grows hgrows₁) ⟨d, hd, href⟩
    obtain ⟨hvalid, hgrows, hsize, hrefs'⟩ := ih h
      ⟨hvalid₁.1, hvalid₁.2, hvalid₁.3, hvalid₁.4, hvalid₁.5, hvalid₁.6, hvalid₁.7⟩ hrest
      (hgrows₁.namesClass howner) hrefs₁
    refine ⟨hvalid, ?_, ?_, hrefs'⟩
    · obtain ⟨more, hmore⟩ := hgrows₁.entries_eq
      obtain ⟨more', hmore'⟩ := hgrows.entries_eq
      exact ⟨⟨more ++ more', by rw [hmore', hmore, Array.append_assoc]⟩, rfl,
        hgrows.this_eq.trans hgrows₁.this_eq, hgrows.super_eq.trans hgrows₁.super_eq,
        hgrows.superInit_eq.trans hgrows₁.superInit_eq⟩
    · rw [List.length_cons]
      change pool₁.entries.size + rest.length ≤ pool'.entries.size at hsize
      omega

theorem addIntegers_spec {values : List Int32} {u : Unit}
    (h : (addIntegers values).run pool = .ok u pool') (hp : pool.Valid S) :
    pool'.Valid S ∧ pool.Grows pool' := by
  induction values generalizing pool with
  | nil =>
    obtain ⟨-, rfl⟩ := run_pure_eq_ok.1 h
    exact ⟨hp, .refl _⟩
  | cons value rest ih =>
    simp only [addIntegers, run_bind_eq_ok] at h
    obtain ⟨_, pool₁, hvalue, h⟩ := h
    obtain ⟨hvalid₁, hgrows₁⟩ := addInteger_spec hvalue hp
    obtain ⟨hvalid, hgrows⟩ := ih h hvalid₁
    exact ⟨hvalid, hgrows₁.trans hgrows⟩

theorem valid_empty : ({} : PoolBuilder).Valid S := by
  constructor <;> simp

/-! ### Programs -/

/-- What the complete pool of a program holds. -/
structure Complete (p : Program) (pool : PoolBuilder) : Prop where
  /-- It is valid, and its strings are those of the program. -/
  valid : pool.Valid (PoolText p)
  /-- It knows the class, -/
  this : NamesClass pool.entries pool.this p.name
  /-- the class it extends, -/
  super : NamesClass pool.entries pool.super ClassFile.objectClass
  /-- and the constructor of that one. -/
  superInit : ∃ s, Holds pool.entries pool.superInit (.methodRef pool.super s) ∧
    Signs pool.entries s ClassFile.initName ClassFile.initDescriptor
  /-- Its references are those of the declarations of the class. -/
  refs : pool.RefsSound p pool.this
  /-- There is an entry for each declaration of the class. -/
  length_members_le : p.members.length ≤ pool.entries.size

/-- The pool of a program is complete. -/
theorem complete_of_ofProgram (hp : p.Tidy) (h : ofProgram p = .ok pool) :
    pool.Complete p := by
  unfold ofProgram at h
  split at h
  · rename_i u pool' hrun
    obtain rfl := Except.ok.inj h
    simp only [addProgram, run_bind_eq_ok, run_modify_eq_ok] at hrun
    obtain ⟨this, p₁, h₁, _, _, rfl, super, p₂, h₂, _, _, rfl, _, p₃, h₃, init, p₄, h₄, _, _, rfl,
      _, p₅, h₅, _, p₆, h₆, rfl⟩ := hrun
    -- the class and its super class, the members, the constructor that is called, the numbers
    obtain ⟨hv₁, hg₁, hthis⟩ := addClass_spec h₁ (valid_empty (S := PoolText p)) (Or.inl rfl)
    obtain ⟨hv₂, hg₂, hsuper⟩ := addClass_spec h₂
      ⟨hv₁.1, hv₁.2, hv₁.3, hv₁.4, hv₁.5, hv₁.6, hv₁.7⟩ (poolText_standard (by simp))
    have hthis₂ := hg₂.namesClass hthis
    have hrefs₂ : RefsSound p this { p₂ with super } := by
      intro id index hi
      have hnone : p₂.refs = {} := hg₂.refs_eq.trans hg₁.refs_eq
      simp [hnone] at hi
    obtain ⟨hv₃, hg₃, hsize, hrefs₃⟩ := addMembers_spec h₃
      ⟨hv₂.1, hv₂.2, hv₂.3, hv₂.4, hv₂.5, hv₂.6, hv₂.7⟩
      (fun id hid => (hp.mem_membersOf _ id).1 hid) hthis₂ hrefs₂
    obtain ⟨hv₄, hg₄, -, s, hinit, hsigns⟩ := addRef_spec (.methodRef super) h₄ hv₃
      (poolText_standard (by simp)) (poolText_standard (by simp)) (hg₃.namesClass hsuper)
      (fun s => Or.inr rfl)
    obtain ⟨hv₅, hg₅⟩ := addIntegers_spec h₅
      ⟨hv₄.1, hv₄.2, hv₄.3, hv₄.4, hv₄.5, hv₄.6, hv₄.7⟩
    obtain ⟨hv₆, hg₆, -⟩ := addUtf8_spec h₆ hv₅ (poolText_standard (by simp))
    have hg := hg₅.trans hg₆
    have hthisEq : p₆.this = this :=
      hg.this_eq.trans (hg₄.this_eq.trans (hg₃.this_eq.trans hg₂.this_eq))
    have hsuperEq : p₆.super = super := hg.super_eq.trans (hg₄.super_eq.trans hg₃.super_eq)
    have hinitEq : p₆.superInit = init := hg.superInit_eq
    refine ⟨⟨hv₆.1, hv₆.2, hv₆.3, hv₆.4, hv₆.5, hv₆.6, hv₆.7⟩, ?_, ?_, ⟨s, ?_, ?_⟩, ?_, ?_⟩
    · rw [hthisEq]
      exact hg.namesClass (hg₄.namesClass (hg₃.namesClass hthis₂))
    · rw [hsuperEq]
      exact hg.namesClass (hg₄.namesClass (hg₃.namesClass hsuper))
    · rw [hsuperEq, hinitEq]
      exact hg.holds hinit
    · exact hg.signs hsigns
    · rw [hthisEq]
      have hrefs₄ : RefsSound p this { p₄ with superInit := init } :=
        fun id index => hrefs₃.grows hg₄ id index
      exact fun id index => hrefs₄.grows hg id index
    · have h₄₆ := Nat.le_trans hg₄.size_le hg.size_le
      change p.members.length ≤ p₆.entries.size
      omega
  · simp at h

/-- What is added for a declaration of the class shows that it is no parameter. -/
theorem ne_parameter_of_addMembers {owner : UInt16} {ids : List DeclId} {u : Unit}
    (h : (addMembers p owner ids).run pool = .ok u pool') :
    ∀ id ∈ ids, ∀ d, p.decl? id = some d → d.kind ≠ .parameter := by
  induction ids generalizing pool with
  | nil => simp
  | cons id rest ih =>
    rw [List.forall_mem_cons]
    cases hd : p.decl? id with
    | none =>
      simp only [addMembers, hd] at h
      exact ⟨fun d hd' => by simp at hd', ih h⟩
    | some d =>
      simp only [addMembers, hd, run_bind_eq_ok] at h
      obtain ⟨ref, pool₁, hmember, _, pool₂, -, hrest⟩ := h
      refine ⟨fun d' hd' hk => ?_, ih hrest⟩
      obtain rfl := Option.some.inj hd'
      simp only [addMember, hk] at hmember
      exact run_throw_ne_ok hmember

/-- A class with a parameter has no pool. -/
theorem ne_parameter_of_ofProgram (h : ofProgram p = .ok pool) :
    ∀ id ∈ p.members, ∀ d, p.decl? id = some d → d.kind ≠ .parameter := by
  unfold ofProgram at h
  split at h
  · rename_i u pool' hrun
    simp only [addProgram, run_bind_eq_ok] at hrun
    obtain ⟨_, _, -, _, _, -, _, _, -, _, _, -, _, _, hmembers, -⟩ := hrun
    exact ne_parameter_of_addMembers hmembers
  · simp at h

end PoolBuilder

end Classwright
