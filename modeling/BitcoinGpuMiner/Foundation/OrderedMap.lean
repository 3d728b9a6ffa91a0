import Mathlib.Data.List.Nodup
import Std.Data.ExtTreeMap

/-! # Lookups in ordered maps with decidable key equality

The lookup lemmas of the map decide by the comparison function; here they decide by
equality of keys, which is what the invariants speak about. A list of writes is read back
by its last entry for the key.
-/

namespace BitcoinGpuMiner.Foundation

set_option autoImplicit false

universe u v w

variable {K : Type u} {V : Type v} {cmp : K → K → Ordering}
variable [Std.TransCmp cmp] [Std.LawfulEqCmp cmp] [DecidableEq K]

theorem lookup_insert (m : Std.ExtTreeMap K V cmp) (k a : K) (v : V) :
    (m.insert k v)[a]? = if k = a then some v else m[a]? := by
  rw [Std.ExtTreeMap.getElem?_insert]
  simp only [Std.LawfulEqCmp.compare_eq_iff_eq]

theorem lookup_erase (m : Std.ExtTreeMap K V cmp) (k a : K) :
    (m.erase k)[a]? = if k = a then none else m[a]? := by
  rw [Std.ExtTreeMap.getElem?_erase]
  simp only [Std.LawfulEqCmp.compare_eq_iff_eq]

theorem lookup_insert_self (m : Std.ExtTreeMap K V cmp) (k : K) (v : V) : (m.insert k v)[k]? = some v := by
  rw [lookup_insert, if_pos rfl]

theorem lookup_insert_ne (m : Std.ExtTreeMap K V cmp) {k a : K} (v : V) (hNe : k ≠ a) :
    (m.insert k v)[a]? = m[a]? := by
  rw [lookup_insert, if_neg hNe]

theorem lookup_insert_eq_some_iff (m : Std.ExtTreeMap K V cmp) (k a : K) (v x : V) :
    (m.insert k v)[a]? = some x ↔ (a = k ∧ x = v) ∨ (k ≠ a ∧ m[a]? = some x) := by
  rw [lookup_insert]
  split
  case isTrue hEq => simp [hEq, eq_comm]
  case isFalse hNe => simp [hNe, Ne.symm hNe]

omit [Std.LawfulEqCmp cmp] [DecidableEq K] in
theorem contains_eq_isSome (m : Std.ExtTreeMap K V cmp) (k : K) : m.contains k = m[k]?.isSome := by
  simp

omit [Std.LawfulEqCmp cmp] [DecidableEq K] in
theorem contains_iff_exists (m : Std.ExtTreeMap K V cmp) (k : K) :
    m.contains k = true ↔ ∃ v, m[k]? = some v := by
  rw [contains_eq_isSome, Option.isSome_iff_exists]

theorem lookup_foldl_insert {ι : Type w} (key : ι → K) (val : ι → V) (writes : List ι)
    (m : Std.ExtTreeMap K V cmp) (k : K) :
    (writes.foldl (fun m i => m.insert (key i) (val i)) m)[k]? =
      ((writes.reverse.find? fun i => decide (key i = k)).map val).or m[k]? := by
  induction writes generalizing m with
  | nil => simp
  | cons i writes ih =>
    rw [List.foldl_cons, ih, lookup_insert, List.reverse_cons, List.find?_append]
    cases writes.reverse.find? fun i => decide (key i = k) with
    | some j => simp
    | none =>
      by_cases hKey : key i = k
      · simp [hKey]
      · simp [hKey]

/-- Entries with different keys are all found again. -/
theorem lookup_foldl_insert_empty_iff {entries : List (K × V)} (hNodup : (entries.map Prod.fst).Nodup) (k : K) (v : V) :
    (entries.foldl (fun m entry => m.insert entry.1 entry.2) (∅ : Std.ExtTreeMap K V cmp))[k]? = some v ↔
      (k, v) ∈ entries := by
  rw [lookup_foldl_insert Prod.fst Prod.snd, Std.ExtTreeMap.getElem?_empty, Option.or_none]
  constructor
  · intro hFound
    obtain ⟨entry, hFind, rfl⟩ := Option.map_eq_some_iff.mp hFound
    have hDecide := List.find?_some hFind
    have hKey : entry.1 = k := of_decide_eq_true hDecide
    rw [← hKey]
    exact List.mem_reverse.mp (List.mem_of_find?_eq_some hFind)
  · intro hMem
    cases hFind : entries.reverse.find? fun entry => decide (entry.1 = k) with
    | none => exact absurd rfl (of_decide_eq_false (Bool.eq_false_iff.mpr
        (List.find?_eq_none.mp hFind _ (List.mem_reverse.mpr hMem))))
    | some entry =>
      have hDecide := List.find?_some hFind
      have hKey : entry.1 = k := of_decide_eq_true hDecide
      have hSame := List.inj_on_of_nodup_map hNodup (List.mem_reverse.mp (List.mem_of_find?_eq_some hFind)) hMem hKey
      rw [hSame, Option.map_some]

theorem lookup_foldl_erase {ι : Type w} (key : ι → K) (erased : List ι) (m : Std.ExtTreeMap K V cmp) (k : K) :
    (erased.foldl (fun m i => m.erase (key i)) m)[k]? = if k ∈ erased.map key then none else m[k]? := by
  induction erased generalizing m with
  | nil => simp
  | cons i erased ih =>
    rw [List.foldl_cons, ih, lookup_erase, List.map_cons]
    by_cases hRest : k ∈ erased.map key
    · rw [if_pos hRest, if_pos (List.mem_cons_of_mem _ hRest)]
    · by_cases hKey : key i = k
      · rw [if_neg hRest, if_pos hKey, if_pos (hKey ▸ List.mem_cons_self)]
      · rw [if_neg hRest, if_neg hKey, if_neg]
        rw [List.mem_cons, not_or]
        exact ⟨Ne.symm hKey, hRest⟩

theorem lookup_foldl_toList (m writes : Std.ExtTreeMap K V cmp) (k : K) :
    (writes.toList.foldl (fun m entry => m.insert entry.1 entry.2) m)[k]? = writes[k]?.or m[k]? := by
  rw [lookup_foldl_insert Prod.fst Prod.snd]
  cases hFind : writes.toList.reverse.find? fun entry => decide (entry.1 = k) with
  | none =>
    have hNone : writes[k]? = none := by
      rw [Option.eq_none_iff_forall_ne_some]
      intro v hGet
      have hMem := List.mem_reverse.mpr (Std.ExtTreeMap.mem_toList_iff_getElem?_eq_some.mpr hGet)
      exact absurd rfl (of_decide_eq_false (Bool.eq_false_iff.mpr (List.find?_eq_none.mp hFind _ hMem)))
    rw [hNone]
    rfl
  | some entry =>
    have hMem := List.mem_reverse.mp (List.mem_of_find?_eq_some hFind)
    have hDecide := List.find?_some hFind
    have hKey : entry.1 = k := of_decide_eq_true hDecide
    rw [← hKey, Std.ExtTreeMap.mem_toList_iff_getElem?_eq_some.mp hMem]
    rfl

theorem lookup_insertIfNew (m : Std.ExtTreeMap K V cmp) (k a : K) (v : V) :
    (m.insertIfNew k v)[a]? = m[a]?.or (if k = a then some v else none) := by
  rw [Std.ExtTreeMap.getElem?_insertIfNew]
  simp only [Std.LawfulEqCmp.compare_eq_iff_eq]
  by_cases hEq : k = a
  · subst hEq
    cases hGet : m[k]? with
    | none => simp [Std.ExtTreeMap.mem_iff_isSome_getElem?, hGet]
    | some x => simp [Std.ExtTreeMap.mem_iff_isSome_getElem?, hGet]
  · simp [hEq]

/-- Of the entries with one key, the first one stays. -/
theorem lookup_foldl_insertIfNew (entries : List (K × V)) (m : Std.ExtTreeMap K V cmp) (k : K) :
    (entries.foldl (fun m entry => m.insertIfNew entry.1 entry.2) m)[k]? =
      m[k]?.or ((entries.find? fun entry => decide (entry.1 = k)).map Prod.snd) := by
  induction entries generalizing m with
  | nil => simp
  | cons entry entries ih =>
    rw [List.foldl_cons, ih, lookup_insertIfNew, Option.or_assoc, List.find?_cons]
    by_cases hKey : entry.1 = k
    · simp [hKey]
    · simp [hKey]

theorem lookup_eq_find?_toList (m : Std.ExtTreeMap K V cmp) (k : K) :
    m[k]? = (m.toList.find? fun entry => decide (entry.1 = k)).map Prod.snd := by
  cases hFind : m.toList.find? fun entry => decide (entry.1 = k) with
  | none =>
    rw [Option.map_none, Option.eq_none_iff_forall_ne_some]
    intro v hGet
    have hMem := Std.ExtTreeMap.mem_toList_iff_getElem?_eq_some.mpr hGet
    exact absurd rfl (of_decide_eq_false (Bool.eq_false_iff.mpr (List.find?_eq_none.mp hFind _ hMem)))
  | some entry =>
    have hDecide := List.find?_some hFind
    have hKey : entry.1 = k := of_decide_eq_true hDecide
    rw [← hKey]
    exact Std.ExtTreeMap.mem_toList_iff_getElem?_eq_some.mp (List.mem_of_find?_eq_some hFind)

theorem foldl_insertIfNew_toList (m : Std.ExtTreeMap K V cmp) :
    m.toList.foldl (fun m entry => m.insertIfNew entry.1 entry.2) ∅ = m := by
  apply Std.ExtTreeMap.ext_getElem?
  intro k
  rw [lookup_foldl_insertIfNew, Std.ExtTreeMap.getElem?_empty, Option.none_or, ← lookup_eq_find?_toList]

omit [DecidableEq K] in
theorem nodup_keys (m : Std.ExtTreeMap K V cmp) : (m.toList.map Prod.fst).Nodup := by
  rw [List.Nodup, List.pairwise_map]
  apply (Std.ExtTreeMap.distinct_keys_toList (t := m)).imp
  intro a b hNe hEq
  exact hNe (Std.LawfulEqCmp.compare_eq_iff_eq.mpr hEq)

def AllEntries (p : K → V → Prop) (m : Std.ExtTreeMap K V cmp) : Prop := ∀ (k : K) (v : V), m[k]? = some v → p k v

namespace AllEntries

variable {p : K → V → Prop} {m : Std.ExtTreeMap K V cmp}

omit [Std.LawfulEqCmp cmp] [DecidableEq K] in
theorem empty : AllEntries p (∅ : Std.ExtTreeMap K V cmp) := by
  intro k v hGet
  rw [Std.ExtTreeMap.getElem?_empty] at hGet
  cases hGet

theorem insert (hAll : AllEntries p m) {k : K} {v : V} (hEntry : p k v) : AllEntries p (m.insert k v) := by
  intro a x hGet
  rcases (lookup_insert_eq_some_iff ..).mp hGet with ⟨rfl, rfl⟩ | ⟨-, hOld⟩
  · exact hEntry
  · exact hAll a x hOld

theorem erase (hAll : AllEntries p m) (k : K) : AllEntries p (m.erase k) := by
  intro a x hGet
  rw [lookup_erase] at hGet
  split at hGet
  · cases hGet
  · exact hAll a x hGet

end AllEntries

/-- Every value is stored under its own key. -/
def KeyedBy (key : V → K) (m : Std.ExtTreeMap K V cmp) : Prop := ∀ k v, m[k]? = some v → key v = k

namespace KeyedBy

variable {key : V → K} {m : Std.ExtTreeMap K V cmp}

omit [Std.LawfulEqCmp cmp] [DecidableEq K] in
theorem empty : KeyedBy key (∅ : Std.ExtTreeMap K V cmp) := @AllEntries.empty K V cmp _ fun k v => key v = k

theorem insert (hKeyed : KeyedBy key m) {k : K} {v : V} (hKey : key v = k) : KeyedBy key (m.insert k v) :=
  @AllEntries.insert K V cmp _ _ _ (fun k v => key v = k) m hKeyed k v hKey

theorem erase (hKeyed : KeyedBy key m) (k : K) : KeyedBy key (m.erase k) :=
  @AllEntries.erase K V cmp _ _ _ (fun k v => key v = k) m hKeyed k

omit [DecidableEq K] in
theorem nodup_toList (hKeyed : KeyedBy key m) : (m.toList.map fun entry => key entry.2).Nodup := by
  rw [List.Nodup, List.pairwise_map]
  refine (Std.ExtTreeMap.distinct_keys_toList (t := m)).imp_of_mem ?_
  intro a b hA hB hNe hEq
  rw [hKeyed a.1 a.2 (Std.ExtTreeMap.mem_toList_iff_getElem?_eq_some.mp hA),
    hKeyed b.1 b.2 (Std.ExtTreeMap.mem_toList_iff_getElem?_eq_some.mp hB)] at hEq
  exact hNe (Std.LawfulEqCmp.compare_eq_iff_eq.mpr hEq)

end KeyedBy

end BitcoinGpuMiner.Foundation
