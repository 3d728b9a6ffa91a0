import BitcoinGpuMiner.Chain.Tips
import BitcoinGpuMiner.Model.TipStore

/-! # Restarts of the tip manager

The map that comes back from the database is the one that was written, so a restart is not seen, as long as the
position in what is read stays below 4 GiB. An entry takes 136 bytes: the limit is reached before the number of
entries that a size may have.
-/

namespace BitcoinGpuMiner

open Foundation

set_option autoImplicit false

/-- The largest number of tips for which the last field of the last entry starts at a position of 32 bits. -/
def maxTips : Nat := 31580642

/-- The range of the height's type. -/
def BlockIndex.FitsHeight (index : BlockIndex) : Prop := -2 ^ 63 ≤ index.height ∧ index.height < 2 ^ 63

instance (index : BlockIndex) : Decidable index.FitsHeight := inferInstanceAs (Decidable (_ ∧ _))

def HeightsFit (map : HashMap BlockIndex) : Prop := AllEntries (fun _ index => index.FitsHeight) map

section Entries

variable {stale : Nat → UInt8}

/-- An entry without its last field, the hash of the next block. -/
def serializeHead (entry : Uint256 × BlockIndex) : Bytes :=
  entry.1.bytes ++ (writeInt 8 entry.2.height ++ (entry.2.hash.bytes ++ entry.2.hashPrevBlock.bytes))

def unserializeHead (stale : Nat → UInt8) : Reader (Uint256 × Int × Uint256 × Uint256) := do
  let key ← readUint256
  let height ← readInt stale 8
  let hash ← readUint256
  let hashPrevBlock ← readUint256
  pure (key, height, hash, hashPrevBlock)

theorem unserializeEntry_eq_head : unserializeEntry stale = unserializeHead stale >>= fun head =>
    readUint256 >>= fun hashNextBlock => pure (head.1, ⟨head.2.1, head.2.2.1, head.2.2.2, hashNextBlock⟩) := by
  simp only [unserializeEntry, BlockIndex.unserialize, unserializeHead, bind_assoc, pure_bind]

theorem serializeEntry_eq_head (entry : Uint256 × BlockIndex) :
    serializeEntry entry = serializeHead entry ++ entry.2.hashNextBlock.bytes := by
  simp only [serializeEntry, BlockIndex.serialize, serializeHead, List.append_assoc]

@[simp] theorem length_serializeHead (entry : Uint256 × BlockIndex) : (serializeHead entry).length = 104 := by
  simp [serializeHead, writeInt]

@[simp] theorem length_serializeEntry (entry : Uint256 × BlockIndex) : (serializeEntry entry).length = 136 := by
  simp [serializeEntry_eq_head]

theorem reads_head {entry : Uint256 × BlockIndex} (hFits : entry.2.FitsHeight) :
    Reads (unserializeHead stale) (serializeHead entry)
      (entry.1, entry.2.height, entry.2.hash, entry.2.hashPrevBlock) := by
  obtain ⟨hLow, hHigh⟩ := hFits
  have hHeight : Reads (readInt stale 8) (writeInt 8 entry.2.height) entry.2.height := reads_int (by omega) (by omega)
  exact (reads_uint256 _).bind (hHeight.bind ((reads_uint256 _).bind (reads_uint256 _).map))

/-- An entry may end behind the positions of 32 bits, as long as its last field starts before. -/
theorem readsFrom_entry {entry : Uint256 × BlockIndex} (hFits : entry.2.FitsHeight) :
    ReadsFrom (unserializeEntry stale) 104 (serializeEntry entry) entry := by
  have hStart : 104 = (serializeHead entry).length + 0 := by rw [length_serializeHead]
  rw [unserializeEntry_eq_head, serializeEntry_eq_head, hStart]
  exact (reads_head hFits).bindFrom (readsFrom_uint256 _).map

theorem reads_entry {entry : Uint256 × BlockIndex} (hFits : entry.2.FitsHeight) :
    Reads (unserializeEntry stale) (serializeEntry entry) entry :=
  (readsFrom_entry hFits).reads (by rw [length_serializeEntry]; decide)

theorem readsFrom_entries {front : List (Uint256 × BlockIndex)} {last : Uint256 × BlockIndex}
    (hFits : ∀ entry ∈ front ++ [last], entry.2.FitsHeight) :
    ReadsFrom (Parser.many (unserializeEntry stale) (front ++ [last]).length) (136 * front.length + 104)
      ((front ++ [last]).flatMap serializeEntry) (front ++ [last]) := by
  have hFront : ∀ entry ∈ front, Reads (unserializeEntry stale) (serializeEntry entry) entry :=
    fun entry hMem => reads_entry (hFits entry (List.mem_append_left _ hMem))
  have hLast : ReadsFrom (unserializeEntry stale) 104 (serializeEntry last) last :=
    readsFrom_entry (hFits last (List.mem_append_right _ (List.mem_singleton_self last)))
  have hAll := Reads.manyFrom hFront hLast
  rw [length_flatMap_of_length length_serializeEntry, List.map_id'] at hAll
  exact hAll

/-- The map from the entries that come after the size. -/
theorem unserializeTips_of_entries {count : Nat} (hCount : count ≤ maxSize) {body : Bytes}
    {entries : List (Uint256 × BlockIndex)} {last : Cursor UInt8}
    (hEntries : Parser.many (unserializeEntry stale) count
      ⟨writeCompactSize count ++ body, .ofNat (writeCompactSize count).length, false⟩ = .ok (entries, last)) :
    unserializeTips stale ⟨writeCompactSize count ++ body, 0, false⟩ = .ok (insertEntries entries, last) := by
  have hLength := length_writeCompactSize_le count
  have hSize : readCompactSize stale ⟨writeCompactSize count ++ body, 0, false⟩ = _ :=
    (reads_compactSize hCount).run (by omega) body
  have hVector : readVector stale (unserializeEntry stale) ⟨writeCompactSize count ++ body, 0, false⟩ =
      .ok (entries, last) := by
    rw [readVector, Parser.run_bind hSize]
    exact hEntries
  rw [unserializeTips, Parser.run_bind hVector]
  rfl

theorem HeightsFit.of_mem {map : HashMap BlockIndex} (hHeights : HeightsFit map) {entry : Uint256 × BlockIndex}
    (hMem : entry ∈ map.toList) : entry.2.FitsHeight :=
  hHeights entry.1 entry.2 (Std.ExtTreeMap.mem_toList_iff_getElem?_eq_some.mp hMem)

/-- The map that was written comes back. -/
theorem unserializeTips_serializeTips (stale : Nat → UInt8) {map : HashMap BlockIndex} (hNonempty : map.isEmpty = false)
    (hSize : map.size ≤ maxTips) (hHeights : HeightsFit map) :
    ∃ last, unserializeTips stale ⟨serializeTips map, 0, false⟩ = .ok (map, last) := by
  have hMax : maxTips = 31580642 := rfl
  have hMaxSize : maxSize = 0x02000000 := rfl
  have hNe : map.toList ≠ [] := by
    intro hNil
    rw [Std.ExtTreeMap.toList_eq_nil_iff] at hNil
    rw [hNil] at hNonempty
    cases hNonempty
  have hCount : map.toList.length = map.size := Std.ExtTreeMap.length_toList
  have hFits : ∀ entry ∈ map.toList, entry.2.FitsHeight := fun entry hMem => hHeights.of_mem hMem
  have hPrefix := length_writeCompactSize_le map.toList.length
  obtain ⟨front, last, hList⟩ := (List.eq_nil_or_concat' map.toList).resolve_left hNe
  have hLength : map.toList.length = front.length + 1 := by
    rw [hList, List.length_append, List.length_singleton]
  rw [hList] at hFits
  have hReads : ReadsFrom (Parser.many (unserializeEntry stale) (front ++ [last]).length) _ _ _ :=
    readsFrom_entries hFits
  have hEntries := hReads (writeCompactSize map.toList.length) [] false (by omega)
  rw [List.append_nil, ← hList] at hEntries
  have hTips := unserializeTips_of_entries (by omega) hEntries
  rw [insertEntries, foldl_insertIfNew_toList] at hTips
  exact ⟨_, hTips⟩

end Entries

namespace TipStore

/-- The store stands for a map: that map is in the database, and in memory unless it has been lost. -/
structure Stands (store : TipStore) (map : HashMap BlockIndex) : Prop where
  memory : store.tipMap = map ∨ store.tipMap = ∅
  database : store.tipAll = if map.isEmpty then none else some (serializeTips map)

section Loading

variable {stale : Nat → UInt8} {store : TipStore} {map : HashMap BlockIndex}

theorem stands_fresh : Stands fresh ∅ := ⟨.inl rfl, rfl⟩

/-- Nothing is read while the map is in memory. -/
theorem getBlockTipMap_of_memory (hMemory : store.tipMap = map) (hStands : Stands store map) :
    store.getBlockTipMap stale = .ok store := by
  rw [getBlockTipMap, hMemory, hStands.database]
  split
  case isTrue hEmpty => rfl
  case isFalse hNonempty => rfl

theorem getBlockTipMap_of_lost (hLost : store.tipMap = ∅) (hNonempty : map.isEmpty = false) (hStands : Stands store map)
    (hSize : map.size ≤ maxTips) (hHeights : HeightsFit map) :
    store.getBlockTipMap stale = .ok { store with tipMap := map } := by
  obtain ⟨last, hRead⟩ := unserializeTips_serializeTips stale hNonempty hSize hHeights
  have hDatabase := hStands.database
  rw [hNonempty, if_neg Bool.false_ne_true] at hDatabase
  rw [getBlockTipMap, hLost, if_pos Std.ExtTreeMap.isEmpty_empty, hDatabase]
  dsimp only
  rw [hRead]
  rfl

theorem Stands.getBlockTipMap_eq (stale : Nat → UInt8) (hStands : Stands store map) (hSize : map.size ≤ maxTips)
    (hHeights : HeightsFit map) : store.getBlockTipMap stale = .ok { store with tipMap := map } := by
  cases hNonempty : map.isEmpty with
  | true =>
    have hMemory : store.tipMap = map := by
      rw [Std.ExtTreeMap.isEmpty_iff] at hNonempty
      rw [hNonempty]
      rw [hNonempty] at hStands
      exact hStands.memory.elim id id
    rw [getBlockTipMap_of_memory hMemory hStands, ← hMemory]
  | false =>
    cases hStands.memory with
    | inl hMemory => rw [getBlockTipMap_of_memory hMemory hStands, ← hMemory]
    | inr hLost => exact getBlockTipMap_of_lost hLost hNonempty hStands hSize hHeights

theorem Stands.loaded (hStands : Stands store map) : Stands { store with tipMap := map } map :=
  ⟨.inl rfl, hStands.database⟩

theorem stands_updateBlockTipMap (index : BlockIndex) (tipAll : Option Bytes) :
    Stands (updateBlockTipMap ⟨map.insert index.hash index, tipAll⟩) (map.insert index.hash index) := by
  refine ⟨.inl rfl, ?_⟩
  rw [updateBlockTipMap, if_neg]
  simp

theorem addTip_eq (hLoad : store.getBlockTipMap stale = .ok { store with tipMap := map }) (index : BlockIndex) :
    store.addTip stale index = .ok (updateBlockTipMap ⟨map.insert index.hash index, store.tipAll⟩) := by
  rw [addTip, hLoad]
  rfl

theorem Stands.updateTip_eq (hStands : Stands store map) (hSize : map.size ≤ maxTips) (hHeights : HeightsFit map)
    (tip : BlockIndex) :
    store.updateTip stale tip = .ok (updateBlockTipMap ⟨map.insert tip.hash tip, store.tipAll⟩) := by
  rw [updateTip, hStands.getBlockTipMap_eq stale hSize hHeights]
  exact addTip_eq (getBlockTipMap_of_memory rfl hStands.loaded) tip

theorem Stands.getTip_eq (hStands : Stands store map) (hSize : map.size ≤ maxTips) (hHeights : HeightsFit map)
    (hash : Uint256) : store.getTip stale hash = .ok map[hash]? := by
  rw [getTip, hStands.getBlockTipMap_eq stale hSize hHeights]
  rfl

theorem Stands.getActiveTip_eq (hStands : Stands store map) (hSize : map.size ≤ maxTips) (hHeights : HeightsFit map) :
    store.getActiveTip stale = .ok (map.foldl (fun active _ tip => BlockTipManager.pickActive active tip) none) := by
  rw [getActiveTip, hStands.getBlockTipMap_eq stale hSize hHeights]
  rfl

end Loading

end TipStore

namespace TipCall

/-- What a call does to the map. A restart does nothing. -/
def onMap (map : HashMap BlockIndex) (call : TipCall) : HashMap BlockIndex :=
  call.tip?.elim map fun tip => map.insert tip.hash tip

/-- The tips that the calls have added. -/
def tips (calls : List TipCall) : HashMap BlockIndex := calls.foldl onMap ∅

def HeightFits (call : TipCall) : Prop := ∀ tip ∈ call.tip?, tip.FitsHeight

instance (call : TipCall) : Decidable call.HeightFits :=
  inferInstanceAs (Decidable (∀ tip ∈ call.tip?, tip.FitsHeight))

/-- The answers after the calls are those after the same calls without restarts. -/
def SameAnswers (stale : Nat → UInt8) (calls : List TipCall) : Prop :=
  ∃ store plain : TipStore, run stale calls = .ok store ∧ run stale (calls.filter (· ≠ restart)) = .ok plain ∧
    (∀ hash, ∃ tip, store.getTip stale hash = .ok tip ∧ plain.getTip stale hash = .ok tip) ∧
    ∃ tip, store.getActiveTip stale = .ok tip ∧ plain.getActiveTip stale = .ok tip

section Runs

variable {stale : Nat → UInt8} {store : TipStore} {map : HashMap BlockIndex} {call : TipCall} {calls : List TipCall}

theorem heightsFit_onMap (hFits : call.HeightFits) (hHeights : HeightsFit map) : HeightsFit (onMap map call) := by
  cases hTip : call.tip? with
  | none =>
    rw [onMap, hTip]
    exact hHeights
  | some tip =>
    rw [onMap, hTip]
    exact AllEntries.insert hHeights (hFits tip hTip)

theorem size_le_onMap (map : HashMap BlockIndex) (call : TipCall) : map.size ≤ (onMap map call).size := by
  cases hTip : call.tip? with
  | none =>
    rw [onMap, hTip]
    exact Nat.le_refl _
  | some tip =>
    rw [onMap, hTip]
    exact Std.ExtTreeMap.size_le_size_insert

theorem size_le_foldl_onMap (map : HashMap BlockIndex) (calls : List TipCall) :
    map.size ≤ (calls.foldl onMap map).size := by
  induction calls generalizing map with
  | nil => exact Nat.le_refl _
  | cons call calls ih => exact Nat.le_trans (size_le_onMap map call) (ih (onMap map call))

theorem foldl_onMap_filter (map : HashMap BlockIndex) (calls : List TipCall) :
    (calls.filter (· ≠ restart)).foldl onMap map = calls.foldl onMap map := by
  induction calls generalizing map with
  | nil => rfl
  | cons call calls ih =>
    by_cases hRestart : call = restart
    · rw [List.filter_cons_of_neg (by simp [hRestart]), ih, hRestart]
      rfl
    · rw [List.filter_cons_of_pos (by simp [hRestart]), List.foldl_cons, ih, List.foldl_cons]

/-- One call keeps the store in step with the map. -/
theorem exists_after (stale : Nat → UInt8) (call : TipCall) (hStands : store.Stands map) (hSize : map.size ≤ maxTips)
    (hHeights : HeightsFit map) : ∃ store', after stale store call = .ok store' ∧ store'.Stands (onMap map call) := by
  have hLoad := hStands.getBlockTipMap_eq stale hSize hHeights
  cases call with
  | addTip index => exact ⟨_, TipStore.addTip_eq hLoad index, TipStore.stands_updateBlockTipMap index _⟩
  | updateTip tip => exact ⟨_, hStands.updateTip_eq hSize hHeights tip, TipStore.stands_updateBlockTipMap tip _⟩
  | getTip hash => exact ⟨_, hLoad, hStands.loaded⟩
  | getActiveTip => exact ⟨_, hLoad, hStands.loaded⟩
  | restart => exact ⟨_, rfl, .inr rfl, hStands.database⟩

theorem exists_foldlM_after (stale : Nat → UInt8) (hStands : store.Stands map) (hHeights : HeightsFit map)
    (hFits : ∀ call ∈ calls, call.HeightFits) (hSize : (calls.foldl onMap map).size ≤ maxTips) :
    ∃ store', calls.foldlM (after stale) store = .ok store' ∧ store'.Stands (calls.foldl onMap map) ∧
      HeightsFit (calls.foldl onMap map) := by
  induction calls generalizing store map with
  | nil => exact ⟨store, rfl, hStands, hHeights⟩
  | cons call calls ih =>
    obtain ⟨hCall, hCalls⟩ := List.forall_mem_cons.mp hFits
    have hBefore : map.size ≤ maxTips := Nat.le_trans (size_le_foldl_onMap map (call :: calls)) hSize
    obtain ⟨next, hNext, hStandsNext⟩ := exists_after stale call hStands hBefore hHeights
    obtain ⟨last, hLast, hRest⟩ := ih hStandsNext (heightsFit_onMap hCall hHeights) hCalls hSize
    refine ⟨last, ?_, hRest⟩
    rw [List.foldlM_cons, hNext]
    exact hLast

theorem exists_run (stale : Nat → UInt8) (hFits : ∀ call ∈ calls, call.HeightFits)
    (hSize : (tips calls).size ≤ maxTips) :
    ∃ store, run stale calls = .ok store ∧ store.Stands (tips calls) ∧ HeightsFit (tips calls) :=
  exists_foldlM_after stale TipStore.stands_fresh AllEntries.empty hFits hSize

end Runs

end TipCall

namespace BlockTipManager

/-- The same calls to the manager whose database holds the map itself. -/
def after (manager : BlockTipManager) : TipCall → BlockTipManager
  | .addTip index => manager.addTip index
  | .updateTip tip => manager.updateTip tip
  | .getTip _ => manager
  | .getActiveTip => manager
  | .restart => { manager with tipMap := ∅ }

/-- The database holds what is in use. -/
def Saved (manager : BlockTipManager) : Prop := manager.tipAll.getD ∅ = manager.getBlockTipMap

theorem Saved.after {manager : BlockTipManager} (hSaved : manager.Saved) (call : TipCall) :
    (manager.after call).Saved ∧ (manager.after call).getBlockTipMap = call.onMap manager.getBlockTipMap := by
  have hAdd (index : BlockIndex) : (manager.addTip index).Saved ∧
      (manager.addTip index).getBlockTipMap = manager.getBlockTipMap.insert index.hash index :=
    ⟨(getBlockTipMap_addTip manager index).symm, getBlockTipMap_addTip manager index⟩
  cases call with
  | addTip index => exact hAdd index
  | updateTip tip => exact hAdd tip
  | getTip hash => exact ⟨hSaved, rfl⟩
  | getActiveTip => exact ⟨hSaved, rfl⟩
  | restart =>
    have hLoad : (manager.after .restart).getBlockTipMap = manager.tipAll.getD ∅ := by
      rw [getBlockTipMap, BlockTipManager.after, if_pos Std.ExtTreeMap.isEmpty_empty]
    exact ⟨hLoad.symm, hLoad.trans hSaved⟩

theorem getBlockTipMap_foldl_after (calls : List TipCall) :
    (calls.foldl after empty).getBlockTipMap = TipCall.tips calls := by
  have hRun : ∀ (calls : List TipCall) (manager : BlockTipManager), manager.Saved →
      (calls.foldl after manager).getBlockTipMap = calls.foldl TipCall.onMap manager.getBlockTipMap := by
    intro calls
    induction calls with
    | nil => exact fun _ _ => rfl
    | cons call calls ih =>
      intro manager hSaved
      obtain ⟨hNext, hMap⟩ := hSaved.after call
      rw [List.foldl_cons, ih _ hNext, hMap, List.foldl_cons]
  exact hRun calls empty rfl

end BlockTipManager

namespace TipCall

/-- Over bytes the manager answers as it does over maps. -/
theorem run_refines (stale : Nat → UInt8) {calls : List TipCall} (hFits : ∀ call ∈ calls, call.HeightFits)
    (hSize : (tips calls).size ≤ maxTips) : ∃ store, run stale calls = .ok store ∧
      (∀ hash, store.getTip stale hash = .ok ((calls.foldl BlockTipManager.after .empty).getTip hash)) ∧
      store.getActiveTip stale = .ok (calls.foldl BlockTipManager.after .empty).getActiveTip := by
  obtain ⟨store, hRun, hStands, hHeights⟩ := exists_run stale hFits hSize
  refine ⟨store, hRun, ?_, ?_⟩
  · intro hash
    rw [hStands.getTip_eq hSize hHeights, BlockTipManager.getTip, BlockTipManager.getBlockTipMap_foldl_after]
  · rw [hStands.getActiveTip_eq hSize hHeights, BlockTipManager.getActiveTip,
      BlockTipManager.getBlockTipMap_foldl_after]

/-- Restarts are not seen while the tips fit. -/
theorem sameAnswers_of_size_le (stale : Nat → UInt8) (calls : List TipCall) (hFits : ∀ call ∈ calls, call.HeightFits)
    (hSize : (tips calls).size ≤ maxTips) : SameAnswers stale calls := by
  have hTips : tips (calls.filter (· ≠ restart)) = tips calls := foldl_onMap_filter ∅ calls
  have hPlainFits : ∀ call ∈ calls.filter (· ≠ restart), call.HeightFits :=
    fun call hMem => hFits call (List.mem_of_mem_filter hMem)
  obtain ⟨store, hRun, hStands, hHeights⟩ := exists_run stale hFits hSize
  obtain ⟨plain, hPlainRun, hPlain, -⟩ := exists_run stale hPlainFits (by rw [hTips]; exact hSize)
  rw [hTips] at hPlain
  refine ⟨store, plain, hRun, hPlainRun, ?_, ?_⟩
  · intro hash
    exact ⟨_, hStands.getTip_eq hSize hHeights hash, hPlain.getTip_eq hSize hHeights hash⟩
  · exact ⟨_, hStands.getActiveTip_eq hSize hHeights, hPlain.getActiveTip_eq hSize hHeights⟩

/-- Two tips on one chain, with a restart after each of them. -/
theorem sameAnswers_of_size_le_two : SameAnswers (fun _ => 0)
    [addTip (.make 0 (Uint256.ofNat 5) Uint256.null), restart, getActiveTip,
      updateTip (.make 1 (Uint256.ofNat 3) (Uint256.ofNat 5)), restart] :=
  sameAnswers_of_size_le _ _ (by decide) (by decide)

end TipCall

end BitcoinGpuMiner
