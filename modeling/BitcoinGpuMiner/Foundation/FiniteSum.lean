import Mathlib.Algebra.Order.BigOperators.Group.Finset
import Mathlib.Algebra.Order.Ring.Int
import Mathlib.Data.Finset.Basic

/-! # Amounts over finite sets of keys

A step takes some keys away from a set, with their amounts, and adds others. What it can do to the
total is bounded by what it takes and what it makes.
-/

namespace BitcoinGpuMiner.Foundation

set_option autoImplicit false

universe u v w

variable {K : Type u}

/-- The keys that are not made by the step were there before, with the same amount, and are not
among the taken ones. -/
theorem sum_step_le [DecidableEq K] {before after taken : Finset K} {amount amount' : K → Int} (made : K → Prop) [DecidablePred made]
    (hNonneg : ∀ k ∈ before, 0 ≤ amount k) (hTaken : taken ⊆ before)
    (hKept : ∀ k ∈ after, ¬ made k → k ∈ before ∧ k ∉ taken ∧ amount' k = amount k) :
    ∑ k ∈ after, amount' k + ∑ k ∈ taken, amount k ≤
      ∑ k ∈ before, amount k + ∑ k ∈ after with made k, amount' k := by
  have hOld : ∑ k ∈ after with ¬ made k, amount' k ≤ ∑ k ∈ before \ taken, amount k := by
    calc ∑ k ∈ after with ¬ made k, amount' k
        = ∑ k ∈ after with ¬ made k, amount k := by
          apply Finset.sum_congr rfl
          intro k hk
          rw [Finset.mem_filter] at hk
          exact (hKept k hk.1 hk.2).2.2
      _ ≤ ∑ k ∈ before \ taken, amount k := by
          apply Finset.sum_le_sum_of_subset_of_nonneg
          · intro k hk
            rw [Finset.mem_filter] at hk
            obtain ⟨hBefore, hNot, -⟩ := hKept k hk.1 hk.2
            exact Finset.mem_sdiff.mpr ⟨hBefore, hNot⟩
          · intro k hk _
            exact hNonneg k (Finset.mem_sdiff.mp hk).1
  have hSplit := Finset.sum_filter_add_sum_filter_not after made amount'
  have hDiff := Finset.sum_sdiff hTaken (f := amount)
  omega

/-- A bound for each item of a list bounds the keys that carry the label of one of the items. -/
theorem sum_labels_le {L : Type v} [DecidableEq L] {ι : Type w} (label : K → L) (after : Finset K) (amount : K → Int)
    (hNonneg : ∀ k ∈ after, 0 ≤ amount k) (items : List ι) (tag : ι → L) (bound : ι → Int)
    (hBound : ∀ i ∈ items, ∑ k ∈ after with label k = tag i, amount k ≤ bound i) :
    ∑ k ∈ after with label k ∈ items.map tag, amount k ≤ (items.map bound).sum := by
  induction items with
  | nil => simp
  | cons i items ih =>
    have hHead := hBound i List.mem_cons_self
    have hTail := ih fun j hj => hBound j (List.mem_cons_of_mem _ hj)
    have hSplit : ∑ k ∈ after with label k ∈ (i :: items).map tag, amount k ≤
        ∑ k ∈ after with label k = tag i, amount k + ∑ k ∈ after with label k ∈ items.map tag, amount k := by
      rw [Finset.sum_filter, Finset.sum_filter, Finset.sum_filter, ← Finset.sum_add_distrib]
      apply Finset.sum_le_sum
      intro k hk
      have hAmount := hNonneg k hk
      rcases Decidable.em (label k = tag i) with hEq | hNe
      · rw [List.map_cons, hEq, if_pos List.mem_cons_self, if_pos rfl]
        split <;> omega
      · simp [hNe]
    have hSum : ((i :: items).map bound).sum = bound i + (items.map bound).sum := by
      rw [List.map_cons, List.sum_cons]
    omega

/-- Keys that are told apart by an index into a list of amounts sum to at most the list's sum. -/
theorem sum_getElem_le (amounts : List Int) (hNonneg : ∀ x ∈ amounts, 0 ≤ x) (keys : Finset K) (index : K → Nat)
    (hInj : Set.InjOn index keys) :
    ∑ k ∈ keys, (amounts[index k]?).getD 0 ≤ amounts.sum := by
  have hGet : ∀ i : Nat, 0 ≤ (amounts[i]?).getD 0 := by
    intro i
    cases hSome : amounts[i]? with
    | none => simp
    | some x => exact hNonneg x (List.mem_of_getElem? hSome)
  have hRange : ∑ i ∈ Finset.range amounts.length, (amounts[i]?).getD 0 = amounts.sum := by
    clear hNonneg hGet
    induction amounts with
    | nil => simp
    | cons x amounts ih =>
      rw [List.length_cons, Finset.sum_range_succ', List.sum_cons, ← ih]
      simp [Int.add_comm]
  calc ∑ k ∈ keys, (amounts[index k]?).getD 0
      = ∑ i ∈ keys.image index, (amounts[i]?).getD 0 :=
        (Finset.sum_image (f := fun i : Nat => (amounts[i]?).getD 0) hInj).symm
    _ = ∑ i ∈ keys.image index with i < amounts.length, (amounts[i]?).getD 0 := by
        rw [Finset.sum_filter]
        apply Finset.sum_congr rfl
        intro i _
        split
        case isTrue => rfl
        case isFalse hLarge => rw [List.getElem?_eq_none (Nat.le_of_not_lt hLarge), Option.getD_none]
    _ ≤ ∑ i ∈ Finset.range amounts.length, (amounts[i]?).getD 0 := by
        apply Finset.sum_le_sum_of_subset_of_nonneg
        · intro i hi
          exact Finset.mem_range.mpr (Finset.mem_filter.mp hi).2
        · intro i _ _
          exact hGet i
    _ = amounts.sum := hRange

end BitcoinGpuMiner.Foundation
