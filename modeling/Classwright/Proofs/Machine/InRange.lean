import Classwright.Proofs.ClassFile.Access
import Classwright.Proofs.ClassFile.Checks
import Classwright.Proofs.Machine.Effects

/-!
# What operations reach

The fields, methods and operations that a linked method names by number are there, and so are the
pool entries that its instructions were resolved by, unless linking failed (`Method.Resolved`,
`Machine.resolved_of_load`).  An operation of such a method looks at values of the stack, slots,
fields and methods that are there, or it fails because the code is wrong
(`Frame.reaches_or_overruns`).
-/

namespace Classwright

/-! ### References that fail -/

/-- Whether an error says that code is wrong or that a method is missing. -/
def MachineError.isLinking : MachineError → Bool
  | badCode _ | noMethod _ => true
  | _ => false

namespace LinkContext

variable {α β : Type}

/-- A reference that can only fail because the code is wrong or a method is missing. -/
def FailsToLink (r : Except MachineError α) : Prop :=
  ∀ e, r = .error e → e.isLinking = true

theorem failsToLink_ok (a : α) : FailsToLink (.ok a) := fun _ h => nomatch h

theorem failsToLink_error {e : MachineError} (h : e.isLinking = true) :
    FailsToLink (.error e : Except MachineError α) := by
  intro e' he
  exact Except.error.inj he ▸ h

theorem FailsToLink.bind {x : Except MachineError α} {f : α → Except MachineError β}
    (hx : FailsToLink x) (hf : ∀ a, FailsToLink (f a)) : FailsToLink (x >>= f) := by
  intro e he
  rcases bind_eq_error.1 he with he | ⟨a, -, he⟩
  · exact hx e he
  · exact hf a e he

variable (f : ClassFile) (c : LinkContext) (index : Nat) (tag : Tag)

theorem failsToLink_constant : FailsToLink (constant f index tag) := by
  unfold constant
  split
  · exact failsToLink_error rfl
  · split
    · exact failsToLink_error rfl
    · split
      · exact failsToLink_ok _
      · exact failsToLink_error rfl

theorem failsToLink_inPool (r : Except ClassFileError α) : FailsToLink (inPool r) := by
  cases r with
  | error e => exact failsToLink_error rfl
  | ok a => exact failsToLink_ok a

theorem failsToLink_integer : FailsToLink (integer f index) :=
  (failsToLink_constant f index .integer).bind fun _ => failsToLink_ok _

/-- What a reference says behind its entry: the class, the name and the descriptor. -/
def memberParts (f : ClassFile) (owner signature : UInt16) :
    Except MachineError (Text × Text × Text) := do
  let owner ← inPool (f.className owner)
  match ← constant f signature.toNat .nameAndType with
  | .nameAndType name descriptor =>
    let name ← inPool (f.utf8At name)
    let descriptor ← inPool (f.utf8At descriptor)
    return (owner, name, descriptor)
  | c => .error (.badCode (.wrongTag signature.toNat c.tag .nameAndType))

theorem failsToLink_memberParts (owner signature : UInt16) :
    FailsToLink (memberParts f owner signature) := by
  refine (failsToLink_inPool _).bind fun owner => ?_
  refine (failsToLink_constant f _ _).bind fun entry => ?_
  split
  · exact (failsToLink_inPool _).bind fun name =>
      (failsToLink_inPool _).bind fun descriptor => failsToLink_ok _
  · exact failsToLink_error rfl

theorem failsToLink_memberRef : FailsToLink (memberRef f index tag) := by
  refine (failsToLink_constant f index tag).bind fun entry => ?_
  split
  · exact failsToLink_memberParts f _ _
  · exact failsToLink_memberParts f _ _
  · exact failsToLink_error rfl

theorem failsToLink_field : FailsToLink (c.field index) := by
  refine (failsToLink_memberRef _ index .fieldRef).bind fun parts => ?_
  dsimp only
  split
  · split
    · exact failsToLink_ok _
    · exact failsToLink_error rfl
  · exact failsToLink_error rfl

theorem failsToLink_method : FailsToLink (c.method index) := by
  refine (failsToLink_memberRef _ index .methodRef).bind fun parts => ?_
  dsimp only
  split
  · split
    · exact failsToLink_ok _
    · exact failsToLink_error rfl
  · exact failsToLink_error rfl

theorem failsToLink_superInit : FailsToLink (c.superInit index) := by
  refine (failsToLink_memberRef _ index .methodRef).bind fun parts => ?_
  dsimp only
  split
  · exact failsToLink_ok _
  · exact failsToLink_error rfl

end LinkContext

/-! ### Pool entries -/

/-- What an entry refers to is there, down to the texts. -/
def Constant.Grounded (entries : Array Constant) : Constant → Prop
  | fieldRef owner signature | methodRef owner signature =>
    (∃ name, NamesClass entries owner name) ∧
      ∃ name descriptor, Signs entries signature name descriptor
  | _ => True

/-- The entry with an index is there and of a given kind, and so is what it refers to. -/
def ClassFile.Reads (f : ClassFile) (index : Nat) (tag : Tag) : Prop :=
  ∃ (i : UInt16) (entry : Constant), i.toNat = index ∧ Holds f.pool i entry ∧ entry.tag = tag ∧
    entry.Grounded f.pool

namespace ClassFile

variable {f : ClassFile} {index : UInt16}

theorem holds_of_utf8At {t : Text} (h : f.utf8At index = .ok t) : Holds f.pool index (.utf8 t) := by
  obtain ⟨entry, hentry, h⟩ := bind_eq_ok.1 h
  split at h
  · obtain rfl := Except.ok.inj h
    exact constant_eq_ok.1 hentry
  · cases h

theorem namesClass_of_className {name : Text} (h : f.className index = .ok name) :
    NamesClass f.pool index name := by
  obtain ⟨entry, hentry, h⟩ := bind_eq_ok.1 h
  split at h
  · exact ⟨_, constant_eq_ok.1 hentry, holds_of_utf8At h⟩
  · cases h

end ClassFile

namespace LinkContext

variable {f : ClassFile} {c : LinkContext} {index : Nat} {tag : Tag}

theorem exists_of_constant {entry : Constant} (h : constant f index tag = .ok entry) :
    ∃ i : UInt16, i.toNat = index ∧ Holds f.pool i entry ∧ entry.tag = tag := by
  unfold constant at h
  split at h
  · cases h
  · rename_i hindex
    split at h
    · cases h
    · rename_i entry' hentry
      split at h
      · rename_i htag
        obtain rfl := Except.ok.inj h
        exact ⟨_, UInt16.toNat_ofNat_of_lt' (Nat.lt_succ_of_le (by omega)),
          ClassFile.constant_eq_ok.1 hentry, htag⟩
      · cases h

theorem eq_of_inPool {α : Type} {r : Except ClassFileError α} {a : α} (h : inPool r = .ok a) :
    r = .ok a := by
  cases r with
  | error e => cases h
  | ok a' => exact congrArg _ (Except.ok.inj h)

theorem reads_of_integer {v : Int32} (h : integer f index = .ok v) : f.Reads index .integer := by
  obtain ⟨entry, hentry, -⟩ := bind_eq_ok.1 h
  obtain ⟨i, hi, hholds, htag⟩ := exists_of_constant hentry
  obtain ⟨value, rfl⟩ := Constant.tag_eq_integer.1 htag
  exact ⟨i, _, hi, hholds, htag, trivial⟩

theorem grounded_of_memberParts {owner signature : UInt16} {parts : Text × Text × Text}
    (h : memberParts f owner signature = .ok parts) :
    (∃ name, NamesClass f.pool owner name) ∧
      ∃ name descriptor, Signs f.pool signature name descriptor := by
  obtain ⟨className, hclass, h⟩ := bind_eq_ok.1 h
  obtain ⟨entry, hentry, h⟩ := bind_eq_ok.1 h
  refine ⟨⟨className, ClassFile.namesClass_of_className (eq_of_inPool hclass)⟩, ?_⟩
  split at h
  · rename_i n d
    obtain ⟨name, hname, h⟩ := bind_eq_ok.1 h
    obtain ⟨descriptor, hdescriptor, -⟩ := bind_eq_ok.1 h
    obtain ⟨i, hi, hholds, -⟩ := exists_of_constant hentry
    obtain rfl := UInt16.toNat_inj.1 hi
    exact ⟨name, descriptor, n, d, hholds, ClassFile.holds_of_utf8At (eq_of_inPool hname),
      ClassFile.holds_of_utf8At (eq_of_inPool hdescriptor)⟩
  · cases h

theorem reads_of_memberRef {parts : Text × Text × Text} (h : memberRef f index tag = .ok parts) :
    f.Reads index tag := by
  obtain ⟨entry, hentry, h⟩ := bind_eq_ok.1 h
  obtain ⟨i, hi, hholds, htag⟩ := exists_of_constant hentry
  split at h
  · exact ⟨i, _, hi, hholds, htag, grounded_of_memberParts h⟩
  · exact ⟨i, _, hi, hholds, htag, grounded_of_memberParts h⟩
  · cases h

theorem field_eq_ok {n : Nat} : c.field index = .ok n ↔ ∃ name descriptor,
    memberRef c.file index .fieldRef = .ok (c.className, name, descriptor) ∧
      c.fields[name]? = some n := by
  rw [field, bind_eq_ok]
  constructor
  · rintro ⟨⟨owner, name, descriptor⟩, hparts, h⟩
    dsimp only at h
    split at h
    · rename_i n' hn
      split at h
      · rename_i howner
        subst howner
        obtain rfl := Except.ok.inj h
        exact ⟨name, descriptor, hparts, hn⟩
      · cases h
    · cases h
  · rintro ⟨name, descriptor, hparts, hn⟩
    refine ⟨_, hparts, ?_⟩
    simp only [hn, if_true]

theorem exists_of_method {n : Nat} {name : Text} (h : c.method index = .ok (n, name)) :
    c.file.Reads index .methodRef ∧ ∃ key : Text, c.methods[key]? = some n := by
  obtain ⟨parts, hparts, -⟩ := bind_eq_ok.1 h
  exact ⟨reads_of_memberRef hparts, exists_key_of_method h⟩

theorem reads_of_superInit (h : c.superInit index = .ok ()) : c.file.Reads index .methodRef := by
  obtain ⟨parts, hparts, -⟩ := bind_eq_ok.1 h
  exact reads_of_memberRef hparts

end LinkContext

/-! ### Linked methods -/

/-- What an operation names by a number is there. -/
def Operation.Resolved (fields methods operations : Nat) : Operation → Prop
  | getField n | putField n => n < fields
  | call n _ => n < methods
  | branch _ target | jump target => ∀ n, target = .ok n → n < operations
  | _ => True

/-- An operation that an instruction of the class file `f` was linked to: what it names is there and
so are the pool entries it was resolved by, unless linking failed. -/
structure Operation.Links (f : ClassFile) (fields methods operations : Nat) (i : Instruction)
    (op : Operation) : Prop where
  /-- What it names by a number is there. -/
  resolved : op.Resolved fields methods operations
  /-- It was linked with errors of linking only. -/
  error : ∀ e, op.error? = some e → e.isLinking = true
  /-- The pool entries are there. -/
  reads : ∀ tag, i.op.poolTag? = some tag →
    f.Reads i.operand.toNat tag ∨ ∃ e, op = .fail e

/-- A linked method of the class file `f`, which has so many fields and methods. -/
structure Method.Resolved (f : ClassFile) (fields methods : Nat) (m : Method) : Prop where
  /-- There is an instruction for each operation. -/
  size_eq : m.source.size = m.operations.size
  /-- Instructions are linked to their operations. -/
  links : ∀ (k pc : Nat) (i : Instruction) (op : Operation), m.source[k]? = some (pc, i) →
    m.operations[k]? = some op → op.Links f fields methods m.operations.size i

namespace LinkContext

variable {f : ClassFile} {fields methods operations : Nat} {i : Instruction}

theorem links_fail {e : MachineError} (h : e.isLinking = true) :
    (Operation.fail e).Links f fields methods operations i :=
  ⟨trivial, fun _ he => Option.some.inj he ▸ h, fun _ _ => Or.inr ⟨e, rfl⟩⟩

/-- An operation of an instruction that refers to no pool entry. -/
theorem links_of_poolTag?_eq_none {op : Operation} (hop : op.Resolved fields methods operations)
    (herror : ∀ e, op.error? = some e → e.isLinking = true) (htag : i.op.poolTag? = none) :
    op.Links f fields methods operations i :=
  ⟨hop, herror, fun tag h => absurd (htag.symm.trans h) (by simp)⟩

/-- An operation that cannot fail of an instruction that refers to a pool entry. -/
theorem links_of_reads {op : Operation} {tag : Tag} (hop : op.Resolved fields methods operations)
    (herror : op.error? = none) (htag : i.op.poolTag? = some tag)
    (hreads : f.Reads i.operand.toNat tag) : op.Links f fields methods operations i := by
  refine ⟨hop, fun e he => absurd (herror.symm.trans he) (by simp), fun tag' htag' => ?_⟩
  obtain rfl := Option.some.inj (htag.symm.trans htag')
  exact Or.inl hreads

theorem links_orFail {α : Type} {r : Except MachineError α} {use : α → Operation}
    (hr : FailsToLink r)
    (hok : ∀ a, r = .ok a → (use a).Links f fields methods operations i) :
    (orFail r use).Links f fields methods operations i := by
  cases r with
  | error e => exact links_fail (hr e rfl)
  | ok a => exact hok a rfl

/-- The target of a branch is an operation of the method, or finding it fails. -/
theorem target_cases (m : RawMethod) (pc : Nat) (i : Instruction) :
    (∀ n, target m (startsOf (Code.locate 0 m.code)) pc i = .ok n → n < m.code.length) ∧
      ∀ e, target m (startsOf (Code.locate 0 m.code)) pc i = .error e → e.isLinking = true := by
  refine ⟨fun n hn => ?_, fun e he => ?_⟩
  · obtain ⟨pre, j, post, hcode, rfl, -⟩ := exists_of_target hn
    simp [hcode]
  · unfold target at he
    dsimp only at he
    split at he
    · exact Except.error.inj he ▸ rfl
    · split at he
      · cases he
      · exact Except.error.inj he ▸ rfl

/-- Each instruction is linked to an operation for which everything is there. -/
theorem links_operation {c : LinkContext} {m : RawMethod}
    (hfields : ∀ (name : Text) (n : Nat), c.fields[name]? = some n → n < fields)
    (hmethods : ∀ (key : Text) (n : Nat), c.methods[key]? = some n → n < methods)
    (pc : Nat) (i : Instruction) :
    (c.operation m (startsOf (Code.locate 0 m.code)) pc i).Links c.file fields methods
      m.code.length i := by
  obtain ⟨hok, herror⟩ := target_cases m pc i
  unfold operation
  cases hop : i.op with
  | ldc | ldcW =>
    refine links_orFail (failsToLink_integer _ _) fun v hv => ?_
    exact links_of_reads trivial rfl (congrArg _ hop) (reads_of_integer hv)
  | getStatic | putStatic =>
    refine links_orFail (failsToLink_field _ _) fun n hn => ?_
    obtain ⟨name, descriptor, hparts, hname⟩ := field_eq_ok.1 hn
    exact links_of_reads (hfields name n hname) rfl (congrArg _ hop) (reads_of_memberRef hparts)
  | invokeSpecial =>
    refine links_orFail (failsToLink_superInit _ _) fun _ h => ?_
    exact links_of_reads trivial rfl (congrArg _ hop) (reads_of_superInit h)
  | invokeStatic =>
    refine links_orFail (failsToLink_method _ _) fun n hn => ?_
    obtain ⟨hreads, key, hkey⟩ := exists_of_method hn
    exact links_of_reads (hmethods key n.1 hkey) rfl (congrArg _ hop) hreads
  | ifEq | ifNe | ifLt | ifGe | ifGt | ifLe | goto =>
    -- an error of the target stays in the operation until control goes there
    refine links_of_poolTag?_eq_none hok (fun e he => ?_) (congrArg _ hop)
    dsimp only at he
    cases ht : target m (startsOf (Code.locate 0 m.code)) pc i with
    | error e' =>
      rw [ht] at he
      exact Option.some.inj he ▸ herror e' ht
    | ok n =>
      rw [ht] at he
      cases he
  | ireturn =>
    dsimp only
    split
    · exact links_of_poolTag?_eq_none trivial (by simp [Operation.error?]) (congrArg _ hop)
    · exact links_fail rfl
  | vreturn =>
    dsimp only
    split
    · exact links_fail rfl
    · exact links_of_poolTag?_eq_none trivial (by simp [Operation.error?]) (congrArg _ hop)
  | wide | unlisted => exact links_fail rfl
  | _ => exact links_of_poolTag?_eq_none trivial (by simp [Operation.error?]) (congrArg _ hop)

/-- Linked methods are resolved. -/
theorem resolved_link {c : LinkContext}
    (hfields : ∀ (name : Text) (n : Nat), c.fields[name]? = some n → n < fields)
    (hmethods : ∀ (key : Text) (n : Nat), c.methods[key]? = some n → n < methods)
    (m : RawMethod) : (c.link m).Resolved c.file fields methods := by
  have hsize : (c.link m).operations.size = m.code.length := by
    simp only [link, List.size_toArray, List.length_map, Code.length_locate]
  refine ⟨by simp only [link, List.size_toArray, List.length_map], fun k pc i op hi hop => ?_⟩
  simp only [link, List.getElem?_toArray] at hi
  simp only [link, List.getElem?_toArray, List.getElem?_map, hi, Option.map_some,
    Option.some.injEq] at hop
  subst hop
  rw [hsize]
  exact links_operation hfields hmethods pc i

end LinkContext

namespace Machine

variable {f : ClassFile}

/-- Fields are numbered below their number. -/
theorem lt_size_of_loadFields {members : List Member} {fields after : Fields}
    (h : loadFields f fields members = .ok after)
    (hfields : ∀ (name : Text) (n : Nat), fields.index[name]? = some n → n < fields.values.size) :
    ∀ (name : Text) (n : Nat), after.index[name]? = some n → n < after.values.size := by
  induction members generalizing fields with
  | nil =>
    obtain rfl := Except.ok.inj h
    exact hfields
  | cons m rest ih =>
    rw [loadFields] at h
    obtain ⟨⟨name, descriptor⟩, -, h⟩ := bind_eq_ok.1 h
    dsimp only at h
    split at h
    · cases h
    · rename_i value hvalue
      refine ih h fun name' n hn => ?_
      unfold Fields.insert at hn ⊢
      split at hn
      · rename_i k hk
        simpa only [Array.size_setIfInBounds] using hfields name' n hn
      · rename_i hnone
        rw [Std.HashMap.getElem?_insert] at hn
        rw [Array.size_push]
        split at hn
        · obtain rfl := Option.some.inj hn
          exact Nat.lt_succ_self _
        · exact Nat.lt_succ_of_lt (hfields name' n hn)

/-- Each method of a machine is resolved in the class file `f`. -/
def Resolved (f : ClassFile) (m : Machine) : Prop :=
  ∀ method ∈ m.methods, method.Resolved f m.statics.size m.methods.size

/-- The methods of a loaded class are resolved. -/
theorem resolved_of_load {limits : Limits} {m : Machine} (h : load f limits = .ok m) :
    m.Resolved f := by
  obtain ⟨className, fields, raws, -, hfields, -, rfl⟩ := load_eq_ok.1 h
  intro method hmethod
  rw [List.mem_toArray, List.mem_map] at hmethod
  obtain ⟨raw, -, rfl⟩ := hmethod
  have hbound := lt_size_of_loadFields hfields (by simp)
  refine LinkContext.resolved_link
    (c := { file := f, className, fields := fields.index, methods := indexMethods raws }) hbound
    (fun key n hn => ?_) raw
  obtain ⟨raw, hraw, -⟩ := exists_of_indexMethods hn
  rw [List.size_toArray, List.length_map]
  exact (List.getElem?_eq_some_iff.1 hraw).1

end Machine

/-! ### Stacks and slots -/

/-- Whether code is wrong because an operation reaches outside its stack or its slots. -/
def BadCode.isOverrun : BadCode → Bool
  | stackFull _ _ | stackEmpty _ | tooFewArguments _ _ _ | readsSlot _ _ _
  | writesSlot _ _ _ => true
  | _ => false

/-- The number of values that an operation takes from the stack. -/
def Operation.takes (methods : Array Method) : Operation → Nat
  | store _ | pop | returnValue | putField _ | callSuper => 1
  | arithmetic _ | branch _ _ => 2
  | call n _ => methods[n]?.elim 0 fun callee => callee.type.params
  | _ => 0

/-- The values that an operation takes and the slot it names are there. -/
def Frame.Reaches (methods : Array Method) (f : Frame) (op : Operation) : Prop :=
  op.takes methods ≤ f.stack.height ∧ ∀ slot, op.slot? = some slot → slot < f.locals.size

namespace Frame

variable {methods : Array Method} {statics : Array Int32} {f : Frame}

/-- The frame fails because its operation reaches outside. -/
def Overruns (effect : Effect) : Prop :=
  ∃ reason : BadCode, reason.isOverrun = true ∧ effect = .fail (.badCode reason)

theorem pops_cases (stack : OperandStack) (rest : Int32 → OperandStack → Effect) :
    (∃ v below, below.height + 1 = stack.height ∧ f.pops stack rest = rest v below) ∨
      Overruns (f.pops stack rest) := by
  unfold pops
  cases hpop : stack.pop? with
  | none => exact Or.inr ⟨_, rfl, rfl⟩
  | some r => exact Or.inl ⟨r.1, r.2, OperandStack.height_of_pop? hpop, rfl⟩

/-- A frame takes a value that is there. -/
theorem one_le_or_overruns (rest : Int32 → OperandStack → Effect) :
    1 ≤ f.stack.height ∨ Overruns (f.pops f.stack rest) := by
  rcases f.pops_cases f.stack rest with ⟨v, below, hheight, -⟩ | hover
  · exact Or.inl (by omega)
  · exact Or.inr hover

/-- A frame takes two values that are there. -/
theorem two_le_or_overruns (rest : Int32 → Int32 → OperandStack → Effect) :
    2 ≤ f.stack.height ∨
      Overruns (f.pops f.stack fun right below => f.pops below fun left => rest right left) := by
  rcases f.pops_cases f.stack fun right below => f.pops below fun left => rest right left with
    ⟨right, above, habove, heffect⟩ | hover
  · rw [heffect]
    rcases f.pops_cases above (rest right) with ⟨left, below, hbelow, -⟩ | hover
    · exact Or.inl (by omega)
    · exact Or.inr hover
  · exact Or.inr hover

/-- An operation that names no slot needs only its values. -/
theorem reaches_of_takes_le {op : Operation} (h : op.takes methods ≤ f.stack.height)
    (hslot : op.slot? = none) : f.Reaches methods op :=
  ⟨h, by simp [hslot]⟩

/-- **Operations stay inside**: an operation takes values and names a slot that are there, or the
frame fails because the code is wrong. -/
theorem reaches_or_overruns (methods : Array Method) (statics : Array Int32) (f : Frame)
    (op : Operation) : f.Reaches methods op ∨ Overruns (f.effect methods statics op) := by
  cases op with
  | push | jump | returnNothing | getField | fail =>
    exact Or.inl (reaches_of_takes_le (Nat.zero_le _) rfl)
  | load slot =>
    rcases Nat.lt_or_ge slot f.locals.size with hlt | hge
    · exact Or.inl ⟨Nat.zero_le _, fun _ h => Option.some.inj h ▸ hlt⟩
    · simp only [effect, Array.getElem?_eq_none hge]
      exact Or.inr ⟨_, rfl, rfl⟩
  | store slot =>
    rcases f.pops_cases f.stack _ with ⟨v, below, hheight, heffect⟩ | hover
    · rcases Nat.lt_or_ge slot f.locals.size with hlt | hge
      · exact Or.inl ⟨(by omega : 1 ≤ f.stack.height), fun _ h => Option.some.inj h ▸ hlt⟩
      · refine Or.inr ⟨.writesSlot f.method.name slot f.locals.size, rfl, heffect.trans ?_⟩
        exact if_neg (Nat.not_lt.2 hge)
    · exact Or.inr hover
  | pop | returnValue | putField | callSuper =>
    exact (one_le_or_overruns _).imp_left fun h => reaches_of_takes_le h rfl
  | arithmetic | branch => exact (two_le_or_overruns _).imp_left fun h => reaches_of_takes_le h rfl
  -- a method that does not exist takes nothing, and the call of it fails by itself
  | call n name =>
    cases hcallee : methods[n]? with
    | none =>
      refine Or.inl (reaches_of_takes_le ?_ rfl)
      simp only [Operation.takes, hcallee, Option.elim_none]
      exact Nat.zero_le _
    | some callee =>
      rcases Nat.lt_or_ge f.stack.height callee.type.params with hfew | henough
      · refine Or.inr ⟨.tooFewArguments f.method.name name f.stack.height, rfl, ?_⟩
        simp only [effect, hcallee]
        exact if_pos hfew
      · refine Or.inl (reaches_of_takes_le ?_ rfl)
        simpa only [Operation.takes, hcallee, Option.elim_some] using henough

end Frame

end Classwright
