import Mathlib.Data.List.Nodup
import Std.Data.HashMap

/-!
# Numbering by place

Slots, methods and instructions are numbered by going through a list and inserting one key for each
item.  When no key comes twice, the number of a key is its place in the list
(`getElem?_numbering`).
-/

namespace Classwright

variable {κ α : Type} [BEq κ] [Hashable κ]

/-- Numbers the keys of some items from `start` on, on top of earlier numbers. -/
def numberFrom (key : α → κ) (numbers : Std.HashMap κ Nat) (start : Nat) (items : List α) :
    Std.HashMap κ Nat × Nat :=
  items.foldl (fun (numbers, n) x => (numbers.insert (key x) n, n + 1)) (numbers, start)

theorem numberFrom_cons (key : α → κ) (numbers : Std.HashMap κ Nat) (start : Nat) (x : α)
    (items : List α) : numberFrom key numbers start (x :: items) =
      numberFrom key (numbers.insert (key x) start) (start + 1) items := rfl

variable [LawfulBEq κ] [LawfulHashable κ]

theorem getElem?_numberFrom_of_notMem (key : α → κ) {items : List α} {k : κ}
    (hk : k ∉ items.map key) (numbers : Std.HashMap κ Nat) (start : Nat) :
    (numberFrom key numbers start items).1[k]? = numbers[k]? := by
  induction items generalizing numbers start with
  | nil => rfl
  | cons x items ih =>
    rw [List.map_cons, List.mem_cons, not_or] at hk
    rw [numberFrom_cons, ih hk.2, Std.HashMap.getElem?_insert, if_neg]
    rw [beq_iff_eq]
    exact fun h => hk.1 h.symm

theorem getElem?_numberFrom (key : α → κ) {items : List α} (h : (items.map key).Nodup)
    (numbers : Std.HashMap κ Nat) (start : Nat) {i : Nat} {k : κ}
    (hk : (items.map key)[i]? = some k) :
    (numberFrom key numbers start items).1[k]? = some (start + i) := by
  induction items generalizing numbers start i with
  | nil => simp at hk
  | cons x items ih =>
    rw [List.map_cons, List.nodup_cons] at h
    rw [numberFrom_cons]
    cases i with
    | zero =>
      simp only [List.map_cons, List.getElem?_cons_zero, Option.some.injEq] at hk
      subst hk
      rw [getElem?_numberFrom_of_notMem key h.1, Std.HashMap.getElem?_insert_self, Nat.add_zero]
    | succ i =>
      rw [List.map_cons, List.getElem?_cons_succ] at hk
      rw [ih h.2 _ _ hk, Nat.add_assoc, Nat.add_comm 1]

/-- A number that is new is the place of an item with the key. -/
theorem exists_of_getElem?_numberFrom (key : α → κ) {items : List α}
    {numbers : Std.HashMap κ Nat} {start n : Nat} {k : κ}
    (h : (numberFrom key numbers start items).1[k]? = some n) :
    numbers[k]? = some n ∨ ∃ i x, n = start + i ∧ items[i]? = some x ∧ key x = k := by
  induction items generalizing numbers start with
  | nil => exact Or.inl h
  | cons x items ih =>
    rw [numberFrom_cons] at h
    rcases ih h with hold | ⟨i, y, rfl, hy, hkey⟩
    · rw [Std.HashMap.getElem?_insert] at hold
      split at hold
      · rename_i hx
        obtain rfl := Option.some.inj hold
        exact Or.inr ⟨0, x, rfl, rfl, eq_of_beq hx⟩
      · exact Or.inl hold
    · exact Or.inr ⟨i + 1, y, by omega, hy, hkey⟩

/-- The number of a key is its place. -/
theorem getElem?_numbering (key : α → κ) {items : List α} (h : (items.map key).Nodup) (k : κ)
    (n : Nat) : (numberFrom key {} 0 items).1[k]? = some n ↔ (items.map key)[n]? = some k := by
  constructor
  · intro hn
    by_cases hk : k ∈ items.map key
    · obtain ⟨i, hi, rfl⟩ := List.getElem_of_mem hk
      have hget := List.getElem?_eq_getElem hi
      rw [getElem?_numberFrom key h {} 0 hget, Nat.zero_add, Option.some.injEq] at hn
      rw [← hn, hget]
    · rw [getElem?_numberFrom_of_notMem key hk] at hn
      simp at hn
  · intro hk
    rw [getElem?_numberFrom key h {} 0 hk, Nat.zero_add]

theorem size_numberFrom (key : α → κ) {items : List α} (h : (items.map key).Nodup)
    {numbers : Std.HashMap κ Nat} (hnew : ∀ k ∈ items.map key, k ∉ numbers) (start : Nat) :
    (numberFrom key numbers start items).1.size = numbers.size + items.length := by
  induction items generalizing numbers start with
  | nil => rfl
  | cons x items ih =>
    rw [List.map_cons, List.nodup_cons] at h
    rw [List.map_cons, List.forall_mem_cons] at hnew
    have hrest : ∀ k ∈ items.map key, k ∉ numbers.insert (key x) start := by
      intro k hk
      rw [Std.HashMap.mem_insert, not_or, beq_iff_eq]
      exact ⟨fun heq => h.1 (heq ▸ hk), hnew.2 k hk⟩
    rw [numberFrom_cons, ih h.2 hrest, Std.HashMap.size_insert, if_neg hnew.1, List.length_cons]
    omega

end Classwright
