import BitcoinGpuMiner.Foundation.FirstMaximum
import BitcoinGpuMiner.Foundation.OrderedMap
import BitcoinGpuMiner.Model.Store

/-! # The tip map and the active tip

The active tip is the highest entry and, among the highest, the one with the smallest hash.
-/

namespace BitcoinGpuMiner.BlockTipManager

open Foundation

set_option autoImplicit false

def Keyed (map : HashMap BlockIndex) : Prop := KeyedBy BlockIndex.hash map

/-- `tip` is an entry that none of the others beats. -/
structure IsActive (map : HashMap BlockIndex) (tip : BlockIndex) : Prop where
  entry : map[tip.hash]? = some tip
  highest : ∀ (h : Uint256) (other : BlockIndex), map[h]? = some other → other.height ≤ tip.height
  smallest : ∀ (h : Uint256) (other : BlockIndex), map[h]? = some other →
    other.height = tip.height → ¬ h < tip.hash

def Beats (new active : BlockIndex) : Prop :=
  active.height < new.height ∨ (new.height = active.height ∧ new.hash < active.hash)

instance (new active : BlockIndex) : Decidable (Beats new active) :=
  inferInstanceAs (Decidable (_ ∨ _))

@[simp] theorem getBlockTipMap_addTip (manager : BlockTipManager) (index : BlockIndex) :
    (manager.addTip index).getBlockTipMap = manager.getBlockTipMap.insert index.hash index := by
  simp [addTip, getBlockTipMap]

@[simp] theorem updateTip_eq_addTip (manager : BlockTipManager) (index : BlockIndex) :
    manager.updateTip index = manager.addTip index := rfl

theorem getActiveTip_eq_firstMax (manager : BlockTipManager) :
    manager.getActiveTip = firstMax BlockIndex.height manager.getBlockTipMap := by
  have hPick : pickActive = keepFirst BlockIndex.height := by
    funext active tip
    cases active <;> rfl
  rw [getActiveTip, firstMax, hPick]

theorem isLE_iff_not_lt (h k : Uint256) : (compare h k).isLE = true ↔ ¬ k < h := by
  rw [Uint256.compare_eq, Uint256.lt_iff, Nat.isLE_compare, Nat.not_lt]

theorem isActive_iff {map : HashMap BlockIndex} (hKeyed : Keyed map) (tip : BlockIndex) :
    IsActive map tip ↔ ∃ h, IsFirstMax BlockIndex.height map h tip := by
  constructor
  · rintro ⟨hEntry, hHighest, hSmallest⟩
    refine ⟨tip.hash, hEntry, fun h other hOther => ?_⟩
    have hLe := hHighest h other hOther
    by_cases hEq : other.height = tip.height
    · exact .inr ⟨hEq, (isLE_iff_not_lt _ _).mpr (hSmallest h other hOther hEq)⟩
    · exact .inl (by omega)
  · rintro ⟨h, hEntry, hBest⟩
    obtain rfl := hKeyed h tip hEntry
    refine ⟨hEntry, fun k other hOther => ?_, fun k other hOther hEq => ?_⟩
    · rcases hBest k other hOther with hLt | ⟨hEq, -⟩ <;> omega
    · rcases hBest k other hOther with hLt | ⟨-, hLe⟩
      · omega
      · exact (isLE_iff_not_lt _ _).mp hLe

theorem getActiveTip_eq_some_iff {manager : BlockTipManager} (hKeyed : Keyed manager.getBlockTipMap)
    (tip : BlockIndex) : manager.getActiveTip = some tip ↔ IsActive manager.getBlockTipMap tip := by
  rw [getActiveTip_eq_firstMax, firstMax_eq_some_iff, isActive_iff hKeyed]

theorem getActiveTip_isSome {manager : BlockTipManager} {h : Uint256} {tip : BlockIndex}
    (hEntry : manager.getBlockTipMap[h]? = some tip) : ∃ active, manager.getActiveTip = some active := by
  have hNonempty : manager.getBlockTipMap.toList ≠ [] := by
    intro hNil
    have hMem := Std.ExtTreeMap.mem_toList_iff_getElem?_eq_some.mpr hEntry
    rw [hNil] at hMem
    cases hMem
  obtain ⟨_, active, hMax, -⟩ := exists_isFirstMax BlockIndex.height hNonempty
  exact ⟨active, (getActiveTip_eq_firstMax manager).trans hMax⟩

theorem isActive_insert {map : HashMap BlockIndex} {active new : BlockIndex} (hActive : IsActive map active)
    (hNew : map[new.hash]? = none) :
    IsActive (map.insert new.hash new) (if Beats new active then new else active) := by
  have hNe : new.hash ≠ active.hash := by
    intro hEq
    rw [hEq, hActive.entry] at hNew
    cases hNew
  split
  case isTrue hBeats =>
    refine ⟨lookup_insert_self .., fun h other hGet => ?_, fun h other hGet hEq hLt => ?_⟩
    · rcases (lookup_insert_eq_some_iff ..).mp hGet with ⟨-, rfl⟩ | ⟨-, hOld⟩
      · exact Int.le_refl _
      · have := hActive.highest h other hOld
        rcases hBeats with hHigher | ⟨hSame, -⟩ <;> omega
    · rcases (lookup_insert_eq_some_iff ..).mp hGet with ⟨rfl, -⟩ | ⟨-, hOld⟩
      · exact Nat.lt_irrefl _ hLt
      · have hLe := hActive.highest h other hOld
        rcases hBeats with hHigher | ⟨hSame, hHash⟩
        · omega
        · exact hActive.smallest h other hOld (by omega) (Nat.lt_trans hLt hHash)
  case isFalse hBeats =>
    have hNotHigher : ¬ active.height < new.height := fun h => hBeats (.inl h)
    refine ⟨?_, fun h other hGet => ?_, fun h other hGet hEq hLt => ?_⟩
    · rw [lookup_insert_ne _ _ hNe, hActive.entry]
    · rcases (lookup_insert_eq_some_iff ..).mp hGet with ⟨-, rfl⟩ | ⟨-, hOld⟩
      · omega
      · exact hActive.highest h other hOld
    · rcases (lookup_insert_eq_some_iff ..).mp hGet with ⟨rfl, rfl⟩ | ⟨-, hOld⟩
      · exact hBeats (.inr ⟨hEq, hLt⟩)
      · exact hActive.smallest h other hOld hEq hLt

/-- Adding a tip under a new hash: it takes over exactly when it beats the active tip. -/
theorem getActiveTip_addTip {manager : BlockTipManager} {active new : BlockIndex}
    (hKeyed : Keyed manager.getBlockTipMap) (hActive : manager.getActiveTip = some active)
    (hNew : manager.getBlockTipMap[new.hash]? = none) :
    (manager.addTip new).getActiveTip = some (if Beats new active then new else active) := by
  have hKeyed' : Keyed (manager.addTip new).getBlockTipMap := by
    rw [getBlockTipMap_addTip]
    exact KeyedBy.insert hKeyed rfl
  rw [getActiveTip_eq_some_iff hKeyed', getBlockTipMap_addTip]
  exact isActive_insert ((getActiveTip_eq_some_iff hKeyed active).mp hActive) hNew

end BitcoinGpuMiner.BlockTipManager
