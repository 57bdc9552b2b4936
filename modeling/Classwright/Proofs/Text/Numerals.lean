import Classwright.Proofs.Source.Tokens
import Classwright.Text.Decimal

/-!
# Numerals

The digits of a number are read back as that number (`decimalValue_toString`), and so is a number
with its sign, if it fits the word it is read into (`readDecimal?_toString`).
-/

namespace Classwright

/-! ### Digits -/

/-- The bytes of the digits of a number. -/
theorem ofString_toString (n : Nat) :
    Text.ofString (toString n) = (Nat.toDigits 10 n).map fun c => UInt8.ofNat c.toNat := by
  have hencode : ∀ c ∈ Nat.toDigits 10 n, Utf8.encode c = [UInt8.ofNat c.toNat] := by
    intro c hc
    have hdigit := Char.isDigit_iff_toNat.1
      (Nat.isDigit_of_mem_toDigits (by decide) (by decide) hc)
    have hle : c.toNat ≤ 0x39 := hdigit.2
    rw [Utf8.encode, if_pos (by omega)]
  rw [Text.ofString, Nat.toString_eq_repr, Nat.toList_repr, List.flatMap_def,
    List.map_congr_left hencode, ← List.flatMap_def, ← List.map_eq_flatMap]

theorem toNat_of_mem_toDigits {n : Nat} {c : Char} (hc : c ∈ Nat.toDigits 10 n) :
    (UInt8.ofNat c.toNat).toNat = c.toNat ∧ 0x30 ≤ c.toNat ∧ c.toNat ≤ 0x39 := by
  have hdigit := Char.isDigit_iff_toNat.1
    (Nat.isDigit_of_mem_toDigits (by decide) (by decide) hc)
  have hle : c.toNat ≤ 0x39 := hdigit.2
  exact ⟨UInt8.toNat_ofNat_of_lt' (Nat.lt_of_le_of_lt hle (by decide)), hdigit⟩

theorem isDigit_of_mem_toString {n : Nat} {b : UInt8} (hb : b ∈ Text.ofString (toString n)) :
    Character.isDigit b = true := by
  rw [ofString_toString] at hb
  obtain ⟨c, hc, rfl⟩ := List.mem_map.1 hb
  obtain ⟨hbyte, hdigit⟩ := toNat_of_mem_toDigits hc
  rw [Character.isDigit_iff, hbyte]
  exact hdigit

/-- A number is read back from its digits. -/
theorem decimalValue_toString (n : Nat) : decimalValue (Text.ofString (toString n)) = n := by
  have hfold (cs : List Char) (hcs : ∀ c ∈ cs, c ∈ Nat.toDigits 10 n) (start : Nat) :
      (cs.map fun c => UInt8.ofNat c.toNat).foldl (fun m d => m * 10 + (d.toNat - 0x30)) start =
        Nat.ofDigitChars 10 cs start := by
    induction cs generalizing start with
    | nil => rfl
    | cons c cs ih =>
      rw [List.forall_mem_cons] at hcs
      obtain ⟨hbyte, -⟩ := toNat_of_mem_toDigits hcs.1
      rw [List.map_cons, List.foldl_cons, ih hcs.2, Nat.ofDigitChars_cons, hbyte, Nat.mul_comm]
      rfl
  rw [decimalValue, ofString_toString, hfold _ (fun c hc => hc), Nat.ofDigitChars_ten_toDigits]

theorem ofString_toString_ne_nil (n : Nat) : Text.ofString (toString n) ≠ [] := by
  rw [ofString_toString, ne_eq, List.map_eq_nil_iff]
  exact Nat.toDigits_ne_nil

theorem digits?_eq_some {t : Text} {n : Nat} : digits? t = some n ↔
    t ≠ [] ∧ (∀ b ∈ t, Character.isDigit b = true) ∧ decimalValue t = n := by
  unfold digits?
  split
  · rename_i h
    simp only [Bool.and_eq_true, Bool.not_eq_true', List.isEmpty_eq_false_iff,
      List.all_eq_true] at h
    rw [Option.some.injEq]
    exact ⟨fun heq => ⟨h.1, h.2, heq⟩, fun h => h.2.2⟩
  · rename_i h
    simp only [Bool.and_eq_true, Bool.not_eq_true', List.isEmpty_eq_false_iff,
      List.all_eq_true] at h
    constructor
    · intro hnone
      cases hnone
    · rintro ⟨hne, hall, -⟩
      exact absurd ⟨hne, hall⟩ h

theorem digits?_toString (n : Nat) : digits? (Text.ofString (toString n)) = some n :=
  digits?_eq_some.2 ⟨ofString_toString_ne_nil n, fun _ hb => isDigit_of_mem_toString hb,
    decimalValue_toString n⟩

/-! ### Signs -/

/-- A row of digits is read without a sign. -/
theorem readDecimal?_of_digits {bits : Nat} {t : Text} {n : Nat} (h : digits? t = some n) :
    readDecimal? bits t = if fitsWord bits n then some (n : Int) else none := by
  have hdigits := (digits?_eq_some.1 h).2.1
  unfold readDecimal?
  split
  · exact absurd (hdigits _ List.mem_cons_self) (by decide)
  · exact absurd (hdigits _ List.mem_cons_self) (by decide)
  · rw [h]
    rfl

/-- A number is shown with a minus sign if it is negative, and as its digits otherwise. -/
theorem ofString_toString_int (n : Int) : Text.ofString (toString n) =
    if 0 ≤ n then Text.ofString (toString n.toNat)
    else 0x2D :: Text.ofString (toString (-n).toNat) := by
  cases n with
  | ofNat n => rfl
  | negSucc n =>
    rw [if_neg (by omega)]
    exact Text.ofString_append "-" (toString (n + 1))

/-- A number is read back with its sign if it fits. -/
theorem readDecimal?_toString (bits : Nat) (n : Int) :
    readDecimal? bits (Text.ofString (toString n)) = if fitsWord bits n then some n else none := by
  rw [ofString_toString_int]
  split
  · rename_i hn
    rw [readDecimal?_of_digits (digits?_toString n.toNat), Int.toNat_of_nonneg hn]
  · rename_i hn
    have hread (m : Nat) : readDecimal? bits (0x2D :: Text.ofString (toString m)) =
        if fitsWord bits (-(m : Int)) then some (-(m : Int)) else none := by
      unfold readDecimal?
      simp only [digits?_toString]
      rfl
    have hneg : -((-n).toNat : Int) = n := by omega
    rw [hread, hneg]

end Classwright
