import Classwright.ClassFile.Verify
import Classwright.Machine.Basic
import Classwright.Proofs.ClassFile.RoundTrip
import Classwright.Proofs.Emit.File

/-!
# Looking up what a class file holds

What the accessors of a class file yield for an index of a given entry, for the field of a
declaration and for a method, and what the machine resolves a reference to.
-/

namespace Classwright

namespace ClassFile

variable {f : ClassFile} {index : UInt16} {c : Constant}

theorem constant_eq_ok : f.constant index = .ok c ↔ Holds f.pool index c := by
  unfold constant Holds
  split
  · rename_i hzero
    simp [hzero]
  · rename_i hne
    split
    · rename_i c' hc
      rw [hc, Except.ok.injEq, Option.some.injEq]
      exact ⟨fun h => ⟨hne, h⟩, fun h => h.2⟩
    · rename_i hnone
      simp [hnone]

theorem utf8At_of_holds {t : Text} (h : Holds f.pool index (.utf8 t)) :
    f.utf8At index = .ok t := by
  rw [utf8At, constant_eq_ok.2 h, ok_bind]

theorem className_of_namesClass {name : Text} (h : NamesClass f.pool index name) :
    f.className index = .ok name := by
  obtain ⟨n, hclass, hname⟩ := h
  rw [className, constant_eq_ok.2 hclass, ok_bind]
  exact utf8At_of_holds hname

theorem memberName_of_holds {m : Member} {name descriptor : Text}
    (hn : Holds f.pool m.name (.utf8 name)) (hd : Holds f.pool m.descriptor (.utf8 descriptor)) :
    f.memberName m = .ok (name, descriptor) := by
  rw [memberName, utf8At_of_holds hn, ok_bind, utf8At_of_holds hd, ok_bind]
  rfl

/-- The only attribute of a member is found by its name. -/
theorem attribute?_of_holds {m : Member} {a : Attribute} (hm : m.attributes = [a]) {name : Text}
    (ha : Holds f.pool a.name (.utf8 name)) : f.attribute? m name = some a := by
  rw [attribute?, hm, List.find?_singleton, utf8At_of_holds ha]
  simp

theorem methodCode_of_methodOf {m : Member} {name descriptor : Text} {code : MethodCode}
    (h : MethodOf f.pool name descriptor code m) (hlength : code.code.length ≤ 0xFFFFFFFF) :
    f.methodCode m = .ok code := by
  obtain ⟨a, hm, ha⟩ := h.attributes
  rw [methodCode, attribute?_of_holds hm ha]
  exact MethodCode.decode_encode hlength

end ClassFile

namespace LinkContext

variable {f : ClassFile} {index : UInt16}

theorem constant_of_holds {c : Constant} (h : Holds f.pool index c) :
    constant f index.toNat c.tag = .ok c := by
  have hpos : index.toNat ≠ 0 := by
    intro hzero
    exact h.1 (UInt16.toNat_inj.1 hzero)
  have hle : ¬ 0xFFFF < index.toNat := Nat.not_lt.2 (toNat_le index)
  rw [constant, if_neg (by omega), UInt16.ofNat_toNat, ClassFile.constant_eq_ok.2 h]
  simp

theorem integer_of_holds {v : Int32} (h : Holds f.pool index (.integer v)) :
    integer f index.toNat = .ok v := by
  have hc : constant f index.toNat .integer = .ok (.integer v) := constant_of_holds h
  rw [integer, hc, ok_bind]
  rfl

/-- The parts of a reference. -/
theorem memberRef_of_holds {c : Constant} {owner s : UInt16} {className name descriptor : Text}
    (hc : c = .fieldRef owner s ∨ c = .methodRef owner s) (h : Holds f.pool index c)
    (ho : NamesClass f.pool owner className) (hs : Signs f.pool s name descriptor) :
    memberRef f index.toNat c.tag = .ok (className, name, descriptor) := by
  obtain ⟨n, d, hsign, hn, hd⟩ := hs
  have hsigned : constant f s.toNat .nameAndType = .ok (.nameAndType n d) := constant_of_holds hsign
  have hmember : constant f index.toNat c.tag = .ok c := constant_of_holds h
  rw [memberRef, hmember, ok_bind]
  rcases hc with rfl | rfl <;>
  · simp only [ClassFile.className_of_namesClass ho, inPool, ok_bind, hsigned,
      ClassFile.utf8At_of_holds hn, ClassFile.utf8At_of_holds hd]
    rfl

variable {c : LinkContext} {owner : UInt16} {d : Declaration}

/-- A reference is resolved to a method that has a number. -/
theorem exists_key_of_method {k n : Nat} {name : Text} (h : c.method k = .ok (n, name)) :
    ∃ key : Text, c.methods[key]? = some n := by
  obtain ⟨⟨owner, name, descriptor⟩, -, h⟩ := bind_eq_ok.1 h
  dsimp only at h
  split at h
  · rename_i n' hn
    split at h
    · obtain ⟨rfl, -⟩ := Prod.mk.inj (Except.ok.inj h)
      exact ⟨_, hn⟩
    · cases h
  · cases h

/-- The reference to a constant or variable is resolved to its field. -/
theorem field_of_refersTo (hc : NamesClass c.file.pool owner c.className)
    (hk : d.kind ≠ .procedure) (h : PoolBuilder.RefersTo c.file.pool owner d index) {n : Nat}
    (hn : c.fields[d.name]? = some n) : c.field index.toNat = .ok n := by
  cases h with
  | field _ hr hs =>
    have hmember : memberRef c.file index.toNat .fieldRef =
        .ok (c.className, d.name, ClassFile.intDescriptor) :=
      memberRef_of_holds (Or.inl rfl) hr hc hs
    rw [field, hmember, ok_bind]
    simp [hn]
  | method hproc => exact absurd hproc hk

/-- The reference to a procedure is resolved to its method. -/
theorem method_of_refersTo (hc : NamesClass c.file.pool owner c.className)
    (hk : d.kind = .procedure) (h : PoolBuilder.RefersTo c.file.pool owner d index) {n : Nat}
    (hn : c.methods[d.name ++ d.descriptor]? = some n) :
    c.method index.toNat = .ok (n, d.name) := by
  cases h with
  | field hvalue => simp [hk] at hvalue
  | method _ hr hs =>
    have hmember : memberRef c.file index.toNat .methodRef =
        .ok (c.className, d.name, d.descriptor) :=
      memberRef_of_holds (Or.inr rfl) hr hc hs
    rw [method, hmember, ok_bind]
    simp [hn]

end LinkContext

end Classwright
