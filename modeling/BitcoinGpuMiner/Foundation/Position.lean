import Mathlib.Algebra.Order.Ring.Int
import Mathlib.Data.List.Sort

/-! # A position of a sorted list

What stands at a position after sorting is told by two numbers: how many items are smaller, and how many are at
most as large.
-/

namespace BitcoinGpuMiner.Foundation

set_option autoImplicit false

universe u

variable {α : Type u} [LinearOrder α]

/-- The item at a position of the sorted list. -/
def sortedAt (items : List α) (k : Nat) (default : α) : α := (items.insertionSort (· ≤ ·))[k]?.getD default

theorem lt_countP_iff {sorted : List α} (hSorted : sorted.Pairwise (· ≤ ·)) {p : α → Bool}
    (hDown : ∀ a b, a ≤ b → p b = true → p a = true) {k : Nat} (hLength : k < sorted.length) :
    k < sorted.countP p ↔ p sorted[k] = true := by
  induction sorted generalizing k with
  | nil => exact absurd hLength (Nat.not_lt_zero k)
  | cons a rest ih =>
    obtain ⟨hLe, hRest⟩ := List.pairwise_cons.mp hSorted
    cases hHead : p a with
    | true =>
      rw [List.countP_cons_of_pos hHead]
      cases k with
      | zero => simp [hHead]
      | succ k =>
        rw [Nat.succ_lt_succ_iff, List.getElem_cons_succ]
        exact ih hRest (Nat.succ_lt_succ_iff.mp hLength)
    | false =>
      -- every later item is at least as large, so none has the property
      have hNone : ∀ b ∈ a :: rest, ¬ p b = true := by
        intro b hMem hB
        have hA : p a = true := by
          cases List.mem_cons.mp hMem with
          | inl hEq => rwa [← hEq]
          | inr hLater => exact hDown a b (hLe b hLater) hB
        rw [hHead] at hA
        cases hA
      have hZero : (a :: rest).countP p = 0 := List.countP_eq_zero.mpr hNone
      have hItem := hNone _ (List.getElem_mem hLength)
      rw [hZero]
      exact iff_of_false (Nat.not_lt_zero k) hItem

theorem sortedAt_eq_iff {items : List α} {k : Nat} (hLength : k < items.length) (default m : α) :
    sortedAt items k default = m ↔ items.countP (· < m) ≤ k ∧ k < items.countP (· ≤ m) := by
  have hPerm := List.perm_insertionSort (· ≤ ·) items
  have hSorted := List.pairwise_insertionSort (· ≤ ·) items
  have hBound : k < (items.insertionSort (· ≤ ·)).length := by rwa [hPerm.length_eq]
  have hLt := lt_countP_iff hSorted (p := (· < m)) (by simpa using fun a b => lt_of_le_of_lt) hBound
  have hLe := lt_countP_iff hSorted (p := (· ≤ m)) (by simpa using fun a b => le_trans) hBound
  rw [hPerm.countP_eq, decide_eq_true_iff] at hLt hLe
  rw [sortedAt, List.getElem?_eq_getElem hBound, Option.getD_some, le_antisymm_iff, ← not_lt (a := k), hLt, hLe, not_lt,
    and_comm]

end BitcoinGpuMiner.Foundation
