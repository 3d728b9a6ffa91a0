import Std.Data.ExtTreeMap

/-! # The first entry of greatest rank in an ordered map

A scan that replaces its candidate only by something strictly better ends at the greatest
rank, and among the entries of that rank at the smallest key.
-/

namespace BitcoinGpuMiner.Foundation

set_option autoImplicit false

universe u v

section Scan

variable {α : Type u} (rank : α → Int)

def keepFirst (best : Option α) (x : α) : Option α :=
  match best with
  | none => some x
  | some y => if rank x > rank y then some x else some y

/-- A scan from `y` ends at `y`, if nothing beats it, or at the first entry of greatest rank. -/
theorem foldl_keepFirst_some (xs : List α) (y : α) :
    ∃ z, xs.foldl (keepFirst rank) (some y) = some z ∧
      ((z = y ∧ ∀ x ∈ xs, rank x ≤ rank y) ∨
        ∃ before after, xs = before ++ z :: after ∧ rank y < rank z ∧
          (∀ x ∈ before, rank x < rank z) ∧ ∀ x ∈ after, rank x ≤ rank z) := by
  induction xs generalizing y with
  | nil => exact ⟨y, rfl, .inl ⟨rfl, by simp⟩⟩
  | cons x xs ih =>
    rw [List.foldl_cons, keepFirst]
    split
    case isTrue hBetter =>
      obtain ⟨z, hFold, ⟨rfl, hRest⟩ | ⟨before, after, rfl, hLt, hBefore, hAfter⟩⟩ := ih x
      · exact ⟨z, hFold, .inr ⟨[], xs, rfl, hBetter, by simp, hRest⟩⟩
      · refine ⟨z, hFold, .inr ⟨x :: before, after, rfl, by omega, ?_, hAfter⟩⟩
        rintro w (_ | ⟨_, hMem⟩)
        · exact hLt
        · exact hBefore w hMem
    case isFalse hWorse =>
      obtain ⟨z, hFold, ⟨rfl, hRest⟩ | ⟨before, after, rfl, hLt, hBefore, hAfter⟩⟩ := ih y
      · refine ⟨z, hFold, .inl ⟨rfl, ?_⟩⟩
        rintro w (_ | ⟨_, hMem⟩)
        · omega
        · exact hRest w hMem
      · refine ⟨z, hFold, .inr ⟨x :: before, after, rfl, hLt, ?_, hAfter⟩⟩
        rintro w (_ | ⟨_, hMem⟩)
        · omega
        · exact hBefore w hMem

theorem foldl_keepFirst_none {xs : List α} (hNonempty : xs ≠ []) :
    ∃ z before after, xs.foldl (keepFirst rank) none = some z ∧ xs = before ++ z :: after ∧
      (∀ x ∈ before, rank x < rank z) ∧ ∀ x ∈ after, rank x ≤ rank z := by
  cases xs with
  | nil => exact absurd rfl hNonempty
  | cons x xs =>
    obtain ⟨z, hFold, ⟨rfl, hRest⟩ | ⟨before, after, rfl, hLt, hBefore, hAfter⟩⟩ :=
      foldl_keepFirst_some rank xs x
    · exact ⟨z, [], xs, hFold, rfl, by simp, hRest⟩
    · refine ⟨z, x :: before, after, hFold, rfl, ?_, hAfter⟩
      rintro w (_ | ⟨_, hMem⟩)
      · exact hLt
      · exact hBefore w hMem

end Scan

section Map

variable {K : Type u} {V : Type v} {cmp : K → K → Ordering} [Std.TransCmp cmp] [Std.LawfulEqCmp cmp]
variable (rank : V → Int)

/-- `v` is stored at `k`, no rank is greater, and no smaller key has the same rank. -/
def IsFirstMax (m : Std.ExtTreeMap K V cmp) (k : K) (v : V) : Prop :=
  m[k]? = some v ∧
    ∀ k' v', m[k']? = some v' → rank v' < rank v ∨ (rank v' = rank v ∧ (cmp k k').isLE = true)

def firstMax (m : Std.ExtTreeMap K V cmp) : Option V :=
  m.foldl (fun best _ v => keepFirst rank best v) none

omit [Std.LawfulEqCmp cmp] in
theorem firstMax_eq (m : Std.ExtTreeMap K V cmp) :
    firstMax rank m = (m.toList.map Prod.snd).foldl (keepFirst rank) none := by
  rw [firstMax, Std.ExtTreeMap.foldl_eq_foldl_toList, List.foldl_map]

theorem IsFirstMax.key_unique {m : Std.ExtTreeMap K V cmp} {k k' : K} {v v' : V}
    (h : IsFirstMax rank m k v) (h' : IsFirstMax rank m k' v') : k = k' := by
  have hForward := h.2 k' v' h'.1
  have hBackward := h'.2 k v h.1
  have hLe : (cmp k k').isLE = true := by
    rcases hForward with hLt | ⟨-, hLe⟩
    · omega
    · exact hLe
  have hGe : (cmp k' k).isLE = true := by
    rcases hBackward with hLt | ⟨-, hGe⟩
    · omega
    · exact hGe
  exact Std.LawfulEqCmp.eq_of_compare (Std.OrientedCmp.isLE_antisymm hLe hGe)

theorem exists_isFirstMax {m : Std.ExtTreeMap K V cmp} (hNonempty : m.toList ≠ []) :
    ∃ k v, firstMax rank m = some v ∧ IsFirstMax rank m k v := by
  have hValues : m.toList.map Prod.snd ≠ [] := by simpa using hNonempty
  obtain ⟨z, before, after, hFold, hSplit, hBefore, hAfter⟩ := foldl_keepFirst_none rank hValues
  obtain ⟨before', rest, hList, rfl, hRest⟩ := List.map_eq_append_iff.mp hSplit
  obtain ⟨⟨k, v⟩, after', rfl, rfl, rfl⟩ := List.map_eq_cons_iff.mp hRest
  have hSorted := Std.ExtTreeMap.ordered_keys_toList (t := m)
  rw [hList, List.pairwise_append] at hSorted
  obtain ⟨-, hTail, hCross⟩ := hSorted
  refine ⟨k, v, (firstMax_eq rank m).trans hFold, ?_, ?_⟩
  · rw [← Std.ExtTreeMap.mem_toList_iff_getElem?_eq_some, hList]
    simp
  · intro k' v' hGet
    have hMem := Std.ExtTreeMap.mem_toList_iff_getElem?_eq_some.mpr hGet
    rw [hList, List.mem_append, List.mem_cons] at hMem
    rcases hMem with hMem | hEq | hMem
    · exact .inl (hBefore v' (List.mem_map_of_mem hMem))
    · cases hEq
      exact .inr ⟨rfl, Std.ReflCmp.isLE_rfl⟩
    · have hLe : rank v' ≤ rank v := hAfter v' (List.mem_map_of_mem hMem)
      have hLt := (List.pairwise_cons.mp hTail).1 (k', v') hMem
      by_cases hEq : rank v' = rank v
      · exact .inr ⟨hEq, by rw [hLt]; rfl⟩
      · exact .inl (by omega)

theorem firstMax_eq_some_iff (m : Std.ExtTreeMap K V cmp) (v : V) :
    firstMax rank m = some v ↔ ∃ k, IsFirstMax rank m k v := by
  constructor
  · intro h
    have hNonempty : m.toList ≠ [] := by
      intro hNil
      rw [firstMax_eq, hNil] at h
      cases h
    obtain ⟨k, w, hMax, hFirst⟩ := exists_isFirstMax rank hNonempty
    cases hMax.symm.trans h
    exact ⟨k, hFirst⟩
  · rintro ⟨k, hFirst⟩
    have hNonempty : m.toList ≠ [] := by
      intro hNil
      have hMem := Std.ExtTreeMap.mem_toList_iff_getElem?_eq_some.mpr hFirst.1
      rw [hNil] at hMem
      cases hMem
    obtain ⟨k', w, hMax, hFirst'⟩ := exists_isFirstMax rank hNonempty
    obtain rfl := hFirst.key_unique rank hFirst'
    rw [hMax, ← hFirst'.1, hFirst.1]

end Map

end BitcoinGpuMiner.Foundation
