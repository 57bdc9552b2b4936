import Classwright.Proofs.Source.Tokens
import Classwright.Proofs.Text.Modified

/-!
# Plain text

A text of ASCII characters other than NUL is valid (`Text.IsPlain.isUtf8`) and its own encoding in a
class file (`Text.IsPlain.encode`).  Identifiers are plain.
-/

namespace Classwright

namespace Text

/-- The texts of ASCII characters other than NUL. -/
def IsPlain (t : Text) : Prop :=
  ∀ b ∈ t, 0 < b.toNat ∧ b.toNat < 0x80

instance (t : Text) : Decidable t.IsPlain :=
  List.decidableBAll (fun b : UInt8 => 0 < b.toNat ∧ b.toNat < 0x80) t

namespace IsPlain

variable {t : Text}

theorem append {s : Text} (ht : t.IsPlain) (hs : s.IsPlain) : IsPlain (t ++ s) :=
  List.forall_mem_append.2 ⟨ht, hs⟩

theorem toNat_ofNat {n : Nat} (h : n < 0x80) : (Char.ofNat n).toNat = n := by
  have hvalid : n.isValidChar := Or.inl (by omega)
  rw [Char.ofNat, dif_pos hvalid]
  rfl

/-- A plain text is the UTF-8 encoding of the characters with the numbers of its bytes. -/
theorem flatMap_encode (h : t.IsPlain) :
    (t.map fun b => Char.ofNat b.toNat).flatMap Utf8.encode = t := by
  induction t with
  | nil => rfl
  | cons b rest ih =>
    obtain ⟨hb, hrest⟩ := List.forall_mem_cons.1 h
    have hchar : Utf8.encode (Char.ofNat b.toNat) = [b] := by
      simp only [Utf8.encode, toNat_ofNat hb.2, if_pos hb.2, UInt8.ofNat_toNat]
    rw [List.map_cons, List.flatMap_cons, hchar, ih hrest, List.singleton_append]

theorem isUtf8 (h : t.IsPlain) : t.IsUtf8 :=
  ⟨_, h.flatMap_encode.symm⟩

theorem characters (h : t.IsPlain) : t.characters = t.map fun b => Char.ofNat b.toNat := by
  rw [← Text.characters_flatMap_encode (t.map fun b => Char.ofNat b.toNat), h.flatMap_encode]

/-- A plain text is written as it is. -/
theorem encode (h : t.IsPlain) : ModifiedUtf8.encode t = t := by
  rw [ModifiedUtf8.encode, h.characters]
  induction t with
  | nil => rfl
  | cons b rest ih =>
    obtain ⟨hb, hrest⟩ := List.forall_mem_cons.1 h
    have hchar : ModifiedUtf8.encodeChar (Char.ofNat b.toNat) = [b] := by
      simp only [ModifiedUtf8.encodeChar, toNat_ofNat hb.2, if_neg (Nat.ne_of_gt hb.1), if_pos hb.2,
        UInt8.ofNat_toNat]
    rw [List.map_cons, List.flatMap_cons, hchar, ih hrest, List.singleton_append]

end IsPlain

theorem IsIdentifier.isWordPart {t : Text} (h : t.IsIdentifier) :
    ∀ b ∈ t, Character.isWordPart b = true := by
  obtain ⟨b, rest, rfl, hb, hrest⟩ := h.word
  exact List.forall_mem_cons.2 ⟨Character.isWordPart_iff.2 (Or.inl hb), hrest⟩

theorem IsIdentifier.isPlain {t : Text} (h : t.IsIdentifier) : t.IsPlain := by
  intro c hc
  have hword := h.isWordPart c hc
  rw [Character.isWordPart_iff, Character.isWordStart_iff, Character.isDigit_iff] at hword
  omega

end Text

end Classwright
