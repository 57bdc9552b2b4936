import Classwright.Proofs.Emit.Pool

/-!
# What a constant pool finds

Emission looks up strings, numbers and references in the complete pool of a program.  A step that
adds to an open pool keeps all that can be looked up, makes what it adds found as well, and fails
only when the pool is full (`PoolBuilder.Supplies`).  So the pool of a program fails to be built
only for its size (`PoolBuilder.eq_overflow_of_ofProgram`), and whatever its class file asks for is
found (`PoolBuilder.finds_of_ofProgram`).
-/

namespace Classwright

/-- What can be looked up in a pool. -/
inductive PoolKey where
  /-- A string. -/
  | utf8 (text : Text)
  /-- A number. -/
  | integer (value : Int32)
  /-- The reference to a declaration. -/
  | ref (id : DeclId)

theorem Program.WellFormed.members_ne_parameter {p : Program} (hp : p.WellFormed) :
    ∀ id ∈ p.members, ∀ d, p.decl? id = some d → d.kind ≠ .parameter := by
  intro id hid d hd
  obtain ⟨d', hd', ht⟩ := hp.mem_members.1 hid
  obtain rfl := Option.some.inj (hd'.symm.trans hd)
  exact hp.member_kind id d' hd ht

namespace PoolBuilder

/-- The pool has an index for a key. -/
def Finds (pool : PoolBuilder) : PoolKey → Prop
  | .utf8 text => ∃ index, pool.utf8s[text]? = some index
  | .integer value => ∃ index, pool.integers[value]? = some index
  | .ref id => ∃ index, pool.refs[id]? = some index

/-- The error of a pool that is full. -/
def overflow : EmitError := .compile ⟨.constantPoolOverflow, .unknown⟩

/-- A step keeps what an open pool finds, makes it find some keys and leaves it frozen or not; it
fails only when the pool is full. -/
structure Supplies {α : Type} (frozen : Bool) (x : PoolM α) (keys : List PoolKey) : Prop where
  /-- What the pool finds behind the step. -/
  ok : ∀ {pool pool' : PoolBuilder} {a : α}, pool.frozen = false → x.run pool = .ok a pool' →
    pool'.frozen = frozen ∧ (∀ key, pool.Finds key → pool'.Finds key) ∧
      ∀ key ∈ keys, pool'.Finds key
  /-- The only error. -/
  error : ∀ {pool pool' : PoolBuilder} {e : EmitError}, pool.frozen = false →
    x.run pool = .error e pool' → e = overflow

/-! ### Rules -/

section Rules

variable {α β : Type} {frozen : Bool} {keys more : List PoolKey}

theorem run_bind_eq_error {x : PoolM α} {f : α → PoolM β} {pool pool' : PoolBuilder}
    {e : EmitError} : (x >>= f).run pool = .error e pool' ↔ x.run pool = .error e pool' ∨
      ∃ a pool₁, x.run pool = .ok a pool₁ ∧ (f a).run pool₁ = .error e pool' := by
  change EStateM.bind x f pool = .error e pool' ↔ x pool = .error e pool' ∨
    ∃ a pool₁, x pool = .ok a pool₁ ∧ f a pool₁ = .error e pool'
  unfold EStateM.bind
  cases x pool <;> simp

theorem Supplies.pure (a : α) : Supplies false (Pure.pure a : PoolM α) [] where
  ok hopen hrun := by
    obtain ⟨-, rfl⟩ := run_pure_eq_ok.1 hrun
    exact ⟨hopen, fun _ hkey => hkey, by simp⟩
  error _ hrun := by cases hrun

/-- Of two steps the second keeps what the first one added. -/
theorem Supplies.bind {x : PoolM α} {f : α → PoolM β} (hx : Supplies false x keys)
    (hf : ∀ a, Supplies frozen (f a) more) : Supplies frozen (x >>= f) (keys ++ more) where
  ok hopen hrun := by
    obtain ⟨a, pool₁, hfirst, hsecond⟩ := run_bind_eq_ok.1 hrun
    obtain ⟨hopen₁, hkeep₁, hkeys⟩ := hx.ok hopen hfirst
    obtain ⟨hfrozen, hkeep₂, hmore⟩ := (hf a).ok hopen₁ hsecond
    refine ⟨hfrozen, fun key hkey => hkeep₂ key (hkeep₁ key hkey), ?_⟩
    exact List.forall_mem_append.2 ⟨fun key hkey => hkeep₂ key (hkeys key hkey), hmore⟩
  error hopen hrun := by
    rcases run_bind_eq_error.1 hrun with hfirst | ⟨a, pool₁, hfirst, hsecond⟩
    · exact hx.error hopen hfirst
    · exact (hf a).error (hx.ok hopen hfirst).1 hsecond

theorem Supplies.mono {x : PoolM α} (hx : Supplies frozen x more) (h : keys ⊆ more) :
    Supplies frozen x keys where
  ok hopen hrun := by
    obtain ⟨hfrozen, hkeep, hmore⟩ := hx.ok hopen hrun
    exact ⟨hfrozen, hkeep, fun key hkey => hmore key (h hkey)⟩
  error := hx.error

/-- Changing the indexes of a pool supplies what it finds then. -/
theorem Supplies.change {f : PoolBuilder → PoolBuilder}
    (hfrozen : ∀ pool, pool.frozen = false → (f pool).frozen = frozen)
    (hkeep : ∀ pool key, pool.Finds key → (f pool).Finds key)
    (hkeys : ∀ pool, ∀ key ∈ keys, (f pool).Finds key) :
    Supplies frozen (modify f : PoolM Unit) keys where
  ok {pool _ _} hopen hrun := by
    obtain rfl := run_modify_eq_ok.1 hrun
    exact ⟨hfrozen pool hopen, hkeep pool, hkeys pool⟩
  error _ hrun := by cases hrun

/-- Changes beside the three indexes supply nothing. -/
theorem Supplies.note {f : PoolBuilder → PoolBuilder}
    (hfrozen : ∀ pool, pool.frozen = false → (f pool).frozen = frozen)
    (hsame : ∀ pool, (f pool).utf8s = pool.utf8s ∧ (f pool).integers = pool.integers ∧
      (f pool).refs = pool.refs) : Supplies frozen (modify f : PoolM Unit) [] := by
  refine .change hfrozen (fun pool key hkey => ?_) (by simp)
  obtain ⟨hutf8s, hintegers, hrefs⟩ := hsame pool
  cases key with
  | utf8 => simpa only [Finds, hutf8s] using hkey
  | integer => simpa only [Finds, hintegers] using hkey
  | ref => simpa only [Finds, hrefs] using hkey

/-- What is found already need not be added. -/
theorem Supplies.share (find : PoolBuilder → Option UInt16) {x : PoolM UInt16}
    (hfind : ∀ pool index, find pool = some index → ∀ key ∈ keys, pool.Finds key)
    (hx : Supplies false x keys) :
    Supplies false (get >>= fun pool : PoolBuilder =>
      match find pool with
      | some index => Pure.pure index
      | none => x) keys where
  ok {pool _ _} hopen hrun := by
    obtain ⟨_, _, ⟨rfl, rfl⟩, hrun⟩ := by
      simpa only [run_bind_eq_ok, run_get_eq_ok] using hrun
    split at hrun
    · rename_i index hfound
      obtain ⟨-, rfl⟩ := run_pure_eq_ok.1 hrun
      exact ⟨hopen, fun _ hkey => hkey, hfind pool index hfound⟩
    · exact hx.ok hopen hrun
  error {pool _ _} hopen hrun := by
    rcases run_bind_eq_error.1 hrun with hget | ⟨_, _, hget, hrun⟩
    · cases hget
    · obtain ⟨rfl, rfl⟩ := run_get_eq_ok.1 hget
      split at hrun
      · cases hrun
      · exact hx.error hopen hrun

end Rules

/-! ### Additions -/

theorem exists_getElem?_insert {κ : Type} [BEq κ] [Hashable κ] [LawfulBEq κ] [LawfulHashable κ]
    (m : Std.HashMap κ UInt16) (k k' : κ) (i : UInt16)
    (h : k = k' ∨ ∃ index, m[k']? = some index) : ∃ index, (m.insert k i)[k']? = some index := by
  rw [Std.HashMap.getElem?_insert]
  by_cases hk : k = k'
  · exact ⟨i, by simp [hk]⟩
  · simpa [hk] using h

theorem supplies_add (c : Constant) : Supplies false (add c) [] where
  ok hopen hrun := by
    simp only [add, run_bind_eq_ok, run_get_eq_ok] at hrun
    obtain ⟨_, _, ⟨rfl, rfl⟩, hrun⟩ := hrun
    rw [hopen, if_neg Bool.false_ne_true] at hrun
    split at hrun
    · exact absurd hrun run_throw_ne_ok
    · simp only [run_bind_eq_ok, run_modify_eq_ok, run_pure_eq_ok] at hrun
      obtain ⟨_, _, rfl, -, rfl⟩ := hrun
      exact ⟨hopen, fun key hkey => by cases key <;> exact hkey, by simp⟩
  error hopen hrun := by
    rcases run_bind_eq_error.1 hrun with hget | ⟨_, _, hget, hrun⟩
    · cases hget
    · obtain ⟨rfl, rfl⟩ := run_get_eq_ok.1 hget
      rw [hopen, if_neg Bool.false_ne_true] at hrun
      split at hrun <;> cases hrun
      rfl

/-- An entry whose index is noted is found then. -/
theorem supplies_noted (c : Constant) {note : UInt16 → PoolBuilder → PoolBuilder}
    {keys : List PoolKey}
    (hfrozen : ∀ index pool, (note index pool).frozen = pool.frozen)
    (hkeep : ∀ index pool key, pool.Finds key → (note index pool).Finds key)
    (hkeys : ∀ index pool, ∀ key ∈ keys, (note index pool).Finds key) :
    Supplies false (add c >>= fun index => modify (note index) >>= fun _ => Pure.pure index)
      keys := by
  have hnote (index : UInt16) :
      Supplies false (modify (note index) >>= fun _ => Pure.pure index) (keys ++ []) :=
    .bind (.change (fun pool hopen => by rw [hfrozen, hopen]) (hkeep index) (hkeys index))
      fun _ => .pure index
  rw [List.append_nil] at hnote
  exact (supplies_add c).bind hnote

/-- One whose index is noted beside the three indexes supplies nothing. -/
theorem supplies_noted_beside (c : Constant) {note : UInt16 → PoolBuilder → PoolBuilder}
    (hfrozen : ∀ index pool, (note index pool).frozen = pool.frozen)
    (hsame : ∀ index pool, (note index pool).utf8s = pool.utf8s ∧
      (note index pool).integers = pool.integers ∧ (note index pool).refs = pool.refs) :
    Supplies false (add c >>= fun index => modify (note index) >>= fun _ => Pure.pure index) [] :=
  (supplies_add c).bind fun index =>
    (Supplies.note (fun pool hopen => by rw [hfrozen, hopen]) (hsame index)).bind fun _ =>
      .pure index

theorem supplies_addUtf8 (text : Text) : Supplies false (addUtf8 text) [.utf8 text] := by
  refine Supplies.share (fun pool => pool.utf8s[text]?) ?_
    (supplies_noted _ (fun _ _ => rfl) ?_ ?_)
  · intro pool index hfound
    exact List.forall_mem_singleton.2 ⟨index, hfound⟩
  · intro index pool key hkey
    cases key with
    | utf8 t => exact exists_getElem?_insert _ _ _ _ (Or.inr hkey)
    | integer | ref => exact hkey
  · intro index pool
    exact List.forall_mem_singleton.2 (exists_getElem?_insert _ _ _ _ (Or.inl rfl))

theorem supplies_addInteger (value : Int32) :
    Supplies false (addInteger value) [.integer value] := by
  refine Supplies.share (fun pool => pool.integers[value]?) ?_
    (supplies_noted _ (fun _ _ => rfl) ?_ ?_)
  · intro pool index hfound
    exact List.forall_mem_singleton.2 ⟨index, hfound⟩
  · intro index pool key hkey
    cases key with
    | integer v => exact exists_getElem?_insert _ _ _ _ (Or.inr hkey)
    | utf8 | ref => exact hkey
  · intro index pool
    exact List.forall_mem_singleton.2 (exists_getElem?_insert _ _ _ _ (Or.inl rfl))

theorem supplies_addClass (name : Text) : Supplies false (addClass name) [] := by
  refine Supplies.share (fun pool => pool.classes[name]?)
    (fun _ _ _ _ hkey => absurd hkey (List.not_mem_nil)) ?_
  refine Supplies.mono (?_ : Supplies false _ [.utf8 name]) (List.nil_subset _)
  refine (supplies_addUtf8 name).bind fun nameIndex => ?_
  exact supplies_noted_beside _ (fun _ _ => rfl) fun _ _ => ⟨rfl, rfl, rfl⟩

theorem supplies_addSignature (name descriptor : Text) :
    Supplies false (addSignature name descriptor) [.utf8 name, .utf8 descriptor] := by
  refine (supplies_addUtf8 name).bind fun nameIndex => ?_
  refine (supplies_addUtf8 descriptor).bind fun descriptorIndex => ?_
  refine Supplies.share (fun pool => pool.signatures[(nameIndex, descriptorIndex)]?)
    (fun _ _ _ _ hkey => absurd hkey (List.not_mem_nil)) ?_
  exact supplies_noted_beside _ (fun _ _ => rfl) fun _ _ => ⟨rfl, rfl, rfl⟩

theorem supplies_addFieldRef (owner : UInt16) (name descriptor : Text) :
    Supplies false (addFieldRef owner name descriptor) [.utf8 name, .utf8 descriptor] :=
  (supplies_addSignature name descriptor).bind fun _ => supplies_add _

theorem supplies_addMethodRef (owner : UInt16) (name descriptor : Text) :
    Supplies false (addMethodRef owner name descriptor) [.utf8 name, .utf8 descriptor] :=
  (supplies_addSignature name descriptor).bind fun _ => supplies_add _

/-! ### Declarations -/

/-- The keys of a declaration of the class beside its reference. -/
def memberKeys (d : Declaration) : List PoolKey :=
  match d.kind with
  | .constant => [.utf8 d.name, .utf8 ClassFile.intDescriptor, .integer d.value,
      .utf8 ClassFile.constantValueAttribute]
  | .var => [.utf8 d.name, .utf8 ClassFile.intDescriptor]
  | .procedure => [.utf8 d.name, .utf8 d.descriptor]
  | .parameter => []

/-- The keys of the declarations with given numbers. -/
def memberKeysOf (p : Program) (ids : List DeclId) : List PoolKey :=
  ids.flatMap fun id =>
    match p.decl? id with
    | none => []
    | some d => .ref id :: memberKeys d

theorem supplies_addMember (owner : UInt16) {d : Declaration} (hk : d.kind ≠ .parameter) :
    Supplies false (addMember owner d) (memberKeys d) := by
  unfold addMember memberKeys
  cases hkind : d.kind with
  | constant =>
    refine ((supplies_addUtf8 _).bind fun _ => (supplies_addUtf8 _).bind fun _ =>
      (supplies_addInteger _).bind fun _ => (supplies_addUtf8 _).bind fun _ =>
        supplies_addFieldRef _ _ _).mono ?_
    intro key hkey
    simp only [List.mem_append, List.mem_cons, List.not_mem_nil, or_false] at hkey ⊢
    grind
  | var => exact supplies_addFieldRef _ _ _
  | procedure => exact supplies_addMethodRef _ _ _
  | parameter => exact absurd hkind hk

theorem supplies_addMembers (p : Program) (owner : UInt16) {ids : List DeclId}
    (hk : ∀ id ∈ ids, ∀ d, p.decl? id = some d → d.kind ≠ .parameter) :
    Supplies false (addMembers p owner ids) (memberKeysOf p ids) := by
  induction ids with
  | nil => exact .pure ()
  | cons member rest ih =>
    rw [List.forall_mem_cons] at hk
    unfold addMembers memberKeysOf
    rw [List.flatMap_cons]
    cases hd : p.decl? member with
    | none => exact ih hk.2
    | some d =>
      refine Supplies.mono (?_ : Supplies false _
        (memberKeys d ++ ([.ref member] ++ memberKeysOf p rest))) ?_
      · refine (supplies_addMember owner (hk.1 d hd)).bind fun ref => ?_
        refine Supplies.bind (.change (fun _ => id) ?_ ?_) fun _ => ih hk.2
        · intro pool key hkey
          cases key with
          | ref j => exact exists_getElem?_insert _ _ _ _ (Or.inr hkey)
          | utf8 | integer => exact hkey
        · intro pool
          exact List.forall_mem_singleton.2 (exists_getElem?_insert _ _ _ _ (Or.inl rfl))
      · intro key hkey
        simp only [memberKeysOf, List.mem_append, List.mem_cons] at hkey ⊢
        grind

theorem supplies_addIntegers (values : List Int32) :
    Supplies false (addIntegers values) (values.map .integer) := by
  induction values with
  | nil => exact .pure ()
  | cons value rest ih => exact (supplies_addInteger value).bind fun _ => ih

/-! ### Programs -/

/-- The numbers that the trees of a program load from the pool. -/
def literalsOf (p : Program) : List Int32 :=
  (p.procedures.filterMap p.decl?).flatMap fun d => poolLiterals d.body

/-- The keys of a program: those of its declarations, those of the constructor, the numbers of its
trees and the name of the code attribute. -/
def keysOf (p : Program) : List PoolKey :=
  memberKeysOf p p.members ++ [.utf8 ClassFile.initName, .utf8 ClassFile.initDescriptor] ++
    (literalsOf p).map .integer ++ [.utf8 ClassFile.codeAttribute]

theorem supplies_addProgram {p : Program}
    (hk : ∀ id ∈ p.members, ∀ d, p.decl? id = some d → d.kind ≠ .parameter) :
    Supplies true (addProgram p) (keysOf p) := by
  have hsteps : Supplies true (addProgram p) ([] ++ ([] ++ ([] ++ ([] ++
      (memberKeysOf p p.members ++
        ([.utf8 ClassFile.initName, .utf8 ClassFile.initDescriptor] ++ ([] ++
          ((literalsOf p).map .integer ++ ([.utf8 ClassFile.codeAttribute] ++ []))))))))) := by
    refine (supplies_addClass _).bind fun this => ?_
    refine Supplies.bind (.note (fun _ => id) fun _ => ⟨rfl, rfl, rfl⟩) fun _ => ?_
    refine (supplies_addClass _).bind fun super => ?_
    refine Supplies.bind (.note (fun _ => id) fun _ => ⟨rfl, rfl, rfl⟩) fun _ => ?_
    refine (supplies_addMembers p this hk).bind fun _ => ?_
    refine (supplies_addMethodRef _ _ _).bind fun superInit => ?_
    refine Supplies.bind (.note (fun _ => id) fun _ => ⟨rfl, rfl, rfl⟩) fun _ => ?_
    refine (supplies_addIntegers _).bind fun _ => ?_
    refine (supplies_addUtf8 _).bind fun _ => ?_
    exact .note (fun _ _ => rfl) fun _ => ⟨rfl, rfl, rfl⟩
  refine hsteps.mono fun key hkey => ?_
  simpa only [keysOf, List.nil_append, List.append_nil, List.append_assoc] using hkey

variable {p : Program}

/-- The pool of a program fails to be built only when it would be too large. -/
theorem eq_overflow_of_ofProgram (hp : p.WellFormed) {e : EmitError}
    (h : ofProgram p = .error e) : e = overflow := by
  unfold ofProgram at h
  split at h
  · cases h
  · rename_i hrun
    obtain rfl := Except.error.inj h
    exact (supplies_addProgram hp.members_ne_parameter).error rfl hrun

/-- The complete pool of a program finds all its keys. -/
theorem finds_of_ofProgram (hp : p.WellFormed) {pool : PoolBuilder} (h : ofProgram p = .ok pool) :
    ∀ key ∈ keysOf p, pool.Finds key := by
  unfold ofProgram at h
  split at h
  · rename_i hrun
    obtain rfl := Except.ok.inj h
    exact ((supplies_addProgram hp.members_ne_parameter).ok rfl hrun).2.2
  · cases h

theorem mem_memberKeysOf {ids : List DeclId} {id : DeclId} {d : Declaration} {key : PoolKey}
    (hid : id ∈ ids) (hd : p.decl? id = some d) (hkey : key = .ref id ∨ key ∈ memberKeys d) :
    key ∈ memberKeysOf p ids := by
  refine List.mem_flatMap.2 ⟨id, hid, ?_⟩
  rw [hd]
  exact List.mem_cons.2 hkey

/-- The keys of a declaration of the class are found. -/
theorem finds_member (hp : p.WellFormed) {pool : PoolBuilder}
    (h : ofProgram p = .ok pool) {id : DeclId}
    {d : Declaration} (hd : p.decl? id = some d) (ht : d.table = Program.classTable)
    {key : PoolKey} (hkey : key = .ref id ∨ key ∈ memberKeys d) : pool.Finds key := by
  refine finds_of_ofProgram hp h key ?_
  have hmem := mem_memberKeysOf (hp.mem_members.2 ⟨d, hd, ht⟩) hd hkey
  simp only [keysOf, List.mem_append]
  exact Or.inl (Or.inl (Or.inl hmem))

theorem finds_standard (hp : p.WellFormed) {pool : PoolBuilder} (h : ofProgram p = .ok pool)
    {text : Text}
    (ht : text ∈ [ClassFile.initName, ClassFile.initDescriptor, ClassFile.codeAttribute]) :
    pool.Finds (.utf8 text) := by
  refine finds_of_ofProgram hp h _ ?_
  simp only [keysOf, List.mem_append, List.mem_cons, List.not_mem_nil, or_false,
    PoolKey.utf8.injEq] at ht ⊢
  rcases ht with rfl | rfl | rfl
  · exact Or.inl (Or.inl (Or.inr (Or.inl rfl)))
  · exact Or.inl (Or.inl (Or.inr (Or.inr rfl)))
  · exact Or.inr rfl

end PoolBuilder

end Classwright
