import Classwright.Proofs.Emit.Found

/-!
# Programs that fit a constant pool

Each step of building a pool adds a bounded number of entries and succeeds when there is room for
them (`PoolBuilder.Adds`).  So a program with few declarations and few large numbers has a pool
(`PoolBuilder.exists_of_room`).
-/

namespace Classwright

namespace PoolBuilder

/-- A step adds at most `n` entries to an open pool with room for them, and leaves it frozen or
not. -/
def Adds {α : Type} (frozen : Bool) (n : Nat) (x : PoolM α) : Prop :=
  ∀ pool : PoolBuilder, pool.frozen = false → pool.entries.size + n ≤ maxPoolEntries →
    ∃ a pool', x.run pool = .ok a pool' ∧ pool'.frozen = frozen ∧
      pool'.entries.size ≤ pool.entries.size + n

/-! ### Rules -/

section Rules

variable {α β : Type} {frozen : Bool} {m n : Nat}

theorem Adds.pure (a : α) : Adds false 0 (Pure.pure a : PoolM α) :=
  fun pool hopen _ => ⟨a, pool, rfl, hopen, Nat.le_refl _⟩

theorem Adds.bind {x : PoolM α} {f : α → PoolM β} (hx : Adds false m x)
    (hf : ∀ a, Adds frozen n (f a)) : Adds frozen (m + n) (x >>= f) := by
  intro pool hopen hroom
  obtain ⟨a, pool₁, hfirst, hopen₁, hsize₁⟩ := hx pool hopen (by omega)
  obtain ⟨b, pool₂, hsecond, hfrozen, hsize₂⟩ := hf a pool₁ hopen₁ (by omega)
  exact ⟨b, pool₂, run_bind_eq_ok.2 ⟨a, pool₁, hfirst, hsecond⟩, hfrozen, by omega⟩

theorem Adds.mono {x : PoolM α} (hx : Adds frozen m x) (h : m ≤ n) : Adds frozen n x := by
  intro pool hopen hroom
  obtain ⟨a, pool', hrun, hfrozen, hsize⟩ := hx pool hopen (by omega)
  exact ⟨a, pool', hrun, hfrozen, by omega⟩

/-- Changes beside the entries. -/
theorem Adds.note {f : PoolBuilder → PoolBuilder}
    (hfrozen : ∀ pool, pool.frozen = false → (f pool).frozen = frozen)
    (hsame : ∀ pool, (f pool).entries = pool.entries) : Adds frozen 0 (modify f : PoolM Unit) :=
  fun pool hopen _ => ⟨(), f pool, rfl, hfrozen pool hopen, Nat.le_of_eq (by rw [hsame]; rfl)⟩

/-- What is found already takes no room. -/
theorem Adds.share (find : PoolBuilder → Option UInt16) {x : PoolM UInt16} (hx : Adds false n x) :
    Adds false n (get >>= fun pool : PoolBuilder =>
      match find pool with
      | some index => Pure.pure index
      | none => x) := by
  intro pool hopen hroom
  simp only [run_bind_eq_ok, run_get_eq_ok]
  cases hfind : find pool with
  | some index =>
    exact ⟨index, pool, ⟨pool, pool, ⟨rfl, rfl⟩, by rw [hfind]; rfl⟩, hopen, Nat.le_add_right _ _⟩
  | none =>
    obtain ⟨index, pool', hrun, hopen', hsize⟩ := hx pool hopen hroom
    exact ⟨index, pool', ⟨pool, pool, ⟨rfl, rfl⟩, by rw [hfind]; exact hrun⟩, hopen', hsize⟩

end Rules

/-! ### Additions -/

theorem adds_add (c : Constant) : Adds false 1 (add c) := by
  intro pool hopen hroom
  refine ⟨UInt16.ofNat (pool.entries.size + 1), { pool with entries := pool.entries.push c }, ?_,
    hopen, by simp⟩
  have hlt : ¬ maxPoolEntries ≤ pool.entries.size := by omega
  simp only [add, run_bind_eq_ok, run_get_eq_ok]
  refine ⟨pool, pool, ⟨rfl, rfl⟩, ?_⟩
  rw [if_neg (by rw [hopen]; exact Bool.false_ne_true), if_neg hlt]
  rfl

/-- An entry whose index is noted takes the room of the entry. -/
theorem adds_noted (c : Constant) {note : UInt16 → PoolBuilder → PoolBuilder}
    (hfrozen : ∀ index pool, (note index pool).frozen = pool.frozen)
    (hsame : ∀ index pool, (note index pool).entries = pool.entries) :
    Adds false 1 (add c >>= fun index => modify (note index) >>= fun _ => Pure.pure index) := by
  refine (adds_add c).bind (n := 0) fun index => Adds.bind (n := 0) ?_ fun _ => .pure index
  exact .note (fun pool hopen => by rw [hfrozen, hopen]) (hsame index)

theorem adds_addUtf8 (text : Text) : Adds false 1 (addUtf8 text) :=
  Adds.share (fun pool => pool.utf8s[text]?)
    (adds_noted _ (fun _ _ => rfl) fun _ _ => rfl)

theorem adds_addInteger (value : Int32) : Adds false 1 (addInteger value) :=
  Adds.share (fun pool => pool.integers[value]?)
    (adds_noted _ (fun _ _ => rfl) fun _ _ => rfl)

theorem adds_addClass (name : Text) : Adds false 2 (addClass name) := by
  refine Adds.share (fun pool => pool.classes[name]?) ?_
  refine (adds_addUtf8 name).bind (n := 1) fun nameIndex => ?_
  exact adds_noted _ (fun _ _ => rfl) fun _ _ => rfl

theorem adds_addSignature (name descriptor : Text) :
    Adds false 3 (addSignature name descriptor) := by
  refine (adds_addUtf8 name).bind (n := 2) fun nameIndex => ?_
  refine (adds_addUtf8 descriptor).bind (n := 1) fun descriptorIndex => ?_
  exact Adds.share (fun pool => pool.signatures[(nameIndex, descriptorIndex)]?)
    (adds_noted _ (fun _ _ => rfl) fun _ _ => rfl)

theorem adds_addFieldRef (owner : UInt16) (name descriptor : Text) :
    Adds false 4 (addFieldRef owner name descriptor) :=
  (adds_addSignature name descriptor).bind fun _ => adds_add _

theorem adds_addMethodRef (owner : UInt16) (name descriptor : Text) :
    Adds false 4 (addMethodRef owner name descriptor) :=
  (adds_addSignature name descriptor).bind fun _ => adds_add _

/-- A declaration of the class takes at most eight entries. -/
theorem adds_addMember (owner : UInt16) {d : Declaration} (hk : d.kind ≠ .parameter) :
    Adds false 8 (addMember owner d) := by
  unfold addMember
  cases hkind : d.kind with
  | constant =>
    exact (adds_addUtf8 _).bind fun _ => (adds_addUtf8 _).bind fun _ =>
      (adds_addInteger _).bind fun _ => (adds_addUtf8 _).bind fun _ => adds_addFieldRef _ _ _
  | var => exact (adds_addFieldRef _ _ _).mono (by omega)
  | procedure => exact (adds_addMethodRef _ _ _).mono (by omega)
  | parameter => exact absurd hkind hk

theorem adds_addMembers (p : Program) (owner : UInt16) {ids : List DeclId}
    (hk : ∀ id ∈ ids, ∀ d, p.decl? id = some d → d.kind ≠ .parameter) :
    Adds false (8 * ids.length) (addMembers p owner ids) := by
  induction ids with
  | nil => exact .pure ()
  | cons member rest ih =>
    rw [List.forall_mem_cons] at hk
    unfold addMembers
    cases hd : p.decl? member with
    | none => exact (ih hk.2).mono (by rw [List.length_cons]; omega)
    | some d =>
      refine Adds.mono ((adds_addMember owner (hk.1 d hd)).bind fun ref =>
        Adds.bind (.note (fun _ => id) fun _ => rfl) fun _ => ih hk.2) ?_
      rw [List.length_cons]
      omega

theorem adds_addIntegers (values : List Int32) :
    Adds false values.length (addIntegers values) := by
  induction values with
  | nil => exact .pure ()
  | cons value rest ih =>
    refine Adds.mono ((adds_addInteger value).bind fun _ => ih) ?_
    rw [List.length_cons]
    omega

/-! ### Programs -/

/-- A bound for the entries of the pool of a program. -/
def roomFor (p : Program) : Nat :=
  8 * p.members.length + (literalsOf p).length + 9

theorem adds_addProgram {p : Program}
    (hk : ∀ id ∈ p.members, ∀ d, p.decl? id = some d → d.kind ≠ .parameter) :
    Adds true (roomFor p) (addProgram p) := by
  refine Adds.mono (m := 2 + (0 + (2 + (0 + (8 * p.members.length + (4 + (0 +
    ((literalsOf p).length + (1 + 0))))))))) ?_ (by rw [roomFor]; omega)
  refine (adds_addClass _).bind fun this => ?_
  refine Adds.bind (.note (fun _ => id) fun _ => rfl) fun _ => ?_
  refine (adds_addClass _).bind fun super => ?_
  refine Adds.bind (.note (fun _ => id) fun _ => rfl) fun _ => ?_
  refine (adds_addMembers p this hk).bind fun _ => ?_
  refine (adds_addMethodRef _ _ _).bind fun superInit => ?_
  refine Adds.bind (.note (fun _ => id) fun _ => rfl) fun _ => ?_
  refine (adds_addIntegers _).bind fun _ => ?_
  refine (adds_addUtf8 _).bind fun _ => ?_
  exact .note (fun _ _ => rfl) fun _ => rfl

/-- A program whose declarations and numbers leave room has a pool. -/
theorem exists_of_room {p : Program} (hp : p.WellFormed) (h : roomFor p ≤ maxPoolEntries) :
    ∃ pool, ofProgram p = .ok pool := by
  obtain ⟨_, pool, hrun, -, -⟩ := adds_addProgram hp.members_ne_parameter {} rfl
    (by simpa using h)
  exact ⟨pool, by rw [ofProgram, hrun]⟩

end PoolBuilder

end Classwright
