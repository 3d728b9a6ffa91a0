import Mathlib.Algebra.Order.Ring.Int

/-! # Multimaps as sorted lists

A list sorted by a key of its entries, with the two operations of `std::multimap` that depend on
the order: an insertion behind the entries with the same key, and the iteration from the first
entry with a given key to the end of the map.
-/

namespace BitcoinGpuMiner.Foundation

set_option autoImplicit false

section Multimap

variable {κ α : Type} [LinearOrder κ] (key : α → κ)

def insertBehind (x : α) (entries : List α) : List α :=
  let upTo (y : α) : Bool := decide (¬ key x < key y)
  entries.takeWhile upTo ++ x :: entries.dropWhile upTo

/-- The entries met from the first one with the key on. -/
def iterateFrom (k : κ) (entries : List α) : List α := entries.dropWhile fun y => decide (key y ≠ k)

theorem insertBehind_perm (x : α) (entries : List α) : (insertBehind key x entries).Perm (x :: entries) := by
  rw [insertBehind]
  refine List.perm_middle.trans ?_
  rw [List.takeWhile_append_dropWhile]

@[simp] theorem mem_insertBehind (x y : α) (entries : List α) :
    y ∈ insertBehind key x entries ↔ y = x ∨ y ∈ entries := by
  rw [(insertBehind_perm key x entries).mem_iff, List.mem_cons]

variable {key}

theorem insertBehind_cons (x y : α) (entries : List α) : insertBehind key x (y :: entries) =
    if key x < key y then x :: y :: entries else y :: insertBehind key x entries := by
  rw [insertBehind, insertBehind]
  by_cases hLt : key x < key y <;> simp [hLt, -not_lt]

theorem pairwise_insertBehind {entries : List α} (hSorted : entries.Pairwise fun y z => key y ≤ key z) (x : α) :
    (insertBehind key x entries).Pairwise fun y z => key y ≤ key z := by
  induction entries with
  | nil => exact List.pairwise_singleton ..
  | cons y rest ih =>
    obtain ⟨hHead, hRest⟩ := List.pairwise_cons.mp hSorted
    rw [insertBehind_cons]
    split
    case isTrue hLt =>
      refine List.pairwise_cons.mpr ⟨?_, hSorted⟩
      intro z hMem
      rcases List.mem_cons.mp hMem with rfl | hMem
      · exact le_of_lt hLt
      · exact le_trans (le_of_lt hLt) (hHead z hMem)
    case isFalse hNot =>
      refine List.pairwise_cons.mpr ⟨?_, ih hRest⟩
      intro z hMem
      rcases (mem_insertBehind key x z rest).mp hMem with rfl | hMem
      · exact le_of_not_gt hNot
      · exact hHead z hMem

/-- In a sorted list the iteration meets all larger keys, provided the key itself is there. -/
theorem mem_iterateFrom_iff {entries : List α} (hSorted : entries.Pairwise fun y z => key y ≤ key z) (k : κ) (y : α) :
    y ∈ iterateFrom key k entries ↔ (∃ z ∈ entries, key z = k) ∧ y ∈ entries ∧ k ≤ key y := by
  induction entries with
  | nil => simp [iterateFrom]
  | cons z rest ih =>
    obtain ⟨hHead, hRest⟩ := List.pairwise_cons.mp hSorted
    rw [iterateFrom, List.dropWhile_cons]
    by_cases hKey : key z = k
    · rw [if_neg (by simpa using hKey)]
      constructor
      · intro hMem
        refine ⟨⟨z, List.mem_cons_self, hKey⟩, hMem, ?_⟩
        rcases List.mem_cons.mp hMem with rfl | hMem
        · exact le_of_eq hKey.symm
        · exact hKey ▸ hHead y hMem
      · rintro ⟨-, hMem, -⟩
        exact hMem
    · rw [if_pos (by simpa using hKey)]
      refine (ih hRest).trans ?_
      constructor
      · rintro ⟨⟨w, hMem, hEq⟩, hIn, hLe⟩
        exact ⟨⟨w, List.mem_cons_of_mem _ hMem, hEq⟩, List.mem_cons_of_mem _ hIn, hLe⟩
      · rintro ⟨⟨w, hMem, hEq⟩, hIn, hLe⟩
        have hLater : w ∈ rest := by
          rcases List.mem_cons.mp hMem with rfl | hMem
          · exact absurd hEq hKey
          · exact hMem
        refine ⟨⟨w, hLater, hEq⟩, ?_, hLe⟩
        rcases List.mem_cons.mp hIn with rfl | hIn
        · exact absurd (le_antisymm (hEq ▸ hHead w hLater) hLe) hKey
        · exact hIn

end Multimap

end BitcoinGpuMiner.Foundation
