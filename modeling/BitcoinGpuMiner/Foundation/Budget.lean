import Mathlib.Algebra.Order.Ring.Int
import Mathlib.Data.List.Basic

/-! # Taking items from the front while they can be paid for -/

namespace BitcoinGpuMiner.Foundation

set_option autoImplicit false

universe u

variable {α : Type u}

/-- The items from the front, up to the first one that the rest of the budget does not cover. -/
def fill (cost : α → Nat) : Nat → List α → List α
  | _, [] => []
  | budget, x :: xs => if cost x ≤ budget then x :: fill cost (budget - cost x) xs else []

/-- The first item that the rest of the budget does not cover. -/
def overrun (cost : α → Nat) : Nat → List α → Option α
  | _, [] => none
  | budget, x :: xs => if cost x ≤ budget then overrun cost (budget - cost x) xs else some x

variable {cost : α → Nat} {budget : Nat}

theorem fill_cons_of_le {x : α} (hLe : cost x ≤ budget) (xs : List α) :
    fill cost budget (x :: xs) = x :: fill cost (budget - cost x) xs := by rw [fill, if_pos hLe]

theorem fill_cons_of_lt {x : α} (hLt : budget < cost x) (xs : List α) : fill cost budget (x :: xs) = [] := by
  rw [fill, if_neg (Nat.not_le.mpr hLt)]

theorem overrun_cons_of_le {x : α} (hLe : cost x ≤ budget) (xs : List α) :
    overrun cost budget (x :: xs) = overrun cost (budget - cost x) xs := by rw [overrun, if_pos hLe]

theorem overrun_cons_of_lt {x : α} (hLt : budget < cost x) (xs : List α) : overrun cost budget (x :: xs) = some x := by
  rw [overrun, if_neg (Nat.not_le.mpr hLt)]

theorem prefix_fill (cost : α → Nat) (budget : Nat) (xs : List α) : fill cost budget xs <+: xs := by
  induction xs generalizing budget with
  | nil => exact List.prefix_rfl
  | cons x xs ih =>
    by_cases hLe : cost x ≤ budget
    · rw [fill_cons_of_le hLe, List.prefix_cons_inj]
      exact ih _
    · rw [fill_cons_of_lt (Nat.not_le.mp hLe)]
      exact List.nil_prefix

theorem sum_fill_le (cost : α → Nat) (budget : Nat) (xs : List α) : ((fill cost budget xs).map cost).sum ≤ budget := by
  induction xs generalizing budget with
  | nil => exact Nat.zero_le _
  | cons x xs ih =>
    by_cases hLe : cost x ≤ budget
    · have hRest := ih (budget - cost x)
      rw [fill_cons_of_le hLe, List.map_cons, List.sum_cons]
      omega
    · rw [fill_cons_of_lt (Nat.not_le.mp hLe)]
      exact Nat.zero_le _

theorem fill_eq_self {xs : List α} (hSum : (xs.map cost).sum ≤ budget) : fill cost budget xs = xs := by
  induction xs generalizing budget with
  | nil => rfl
  | cons x xs ih =>
    rw [List.map_cons, List.sum_cons] at hSum
    rw [fill_cons_of_le (by omega), ih (by omega)]

theorem overrun_eq_some {xs : List α} {x : α} (hOver : overrun cost budget xs = some x) :
    x ∈ xs ∧ budget < ((fill cost budget xs).map cost).sum + cost x := by
  induction xs generalizing budget with
  | nil => cases hOver
  | cons y ys ih =>
    by_cases hLe : cost y ≤ budget
    · rw [overrun_cons_of_le hLe] at hOver
      obtain ⟨hMem, hLt⟩ := ih hOver
      rw [fill_cons_of_le hLe, List.map_cons, List.sum_cons]
      exact ⟨List.mem_cons_of_mem _ hMem, by omega⟩
    · rw [overrun_cons_of_lt (Nat.not_le.mp hLe)] at hOver
      cases hOver
      rw [fill_cons_of_lt (Nat.not_le.mp hLe), List.map_nil, List.sum_nil, Nat.zero_add]
      exact ⟨List.mem_cons_self, Nat.not_le.mp hLe⟩

end BitcoinGpuMiner.Foundation
