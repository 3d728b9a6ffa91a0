import BitcoinGpuMiner.Chain.Restart

/-! # One tip too many

With one entry more than a position of 32 bits allows, the last one is read from the start of the buffer: there the
bytes are zero if the first tips have small hashes, so that the first tip is read a second time and the last one is
not there after a restart.
-/

namespace BitcoinGpuMiner

open Foundation

set_option autoImplicit false

section Zeros

def zeroTip : BlockIndex := ⟨0, Uint256.null, Uint256.null, Uint256.null⟩

theorem serializeEntry_zero : serializeEntry (Uint256.null, zeroTip) = List.replicate 136 0 := by decide

theorem writeBE_of_lt {n : Nat} (hLt : n < 256 ^ 16) : writeBE 32 n = List.replicate 16 0 ++ writeBE 16 n := by
  have hRead : readBE (List.replicate 16 0 ++ writeBE 16 n) = readBE (writeBE 16 n) := by
    rw [readBE, List.foldl_append]
    rfl
  have hWrite := writeBE_readBE (List.replicate 16 0 ++ writeBE 16 n)
  rw [hRead, readBE_writeBE, Nat.mod_eq_of_lt hLt, List.length_append, List.length_replicate, length_writeBE] at hWrite
  exact hWrite

/-- The first bytes of what is written for tips with small hashes, and the zero entry that is found there. -/
theorem exists_zeros {entries : List (Uint256 × BlockIndex)} (hHead : entries.head? = some (Uint256.null, zeroTip))
    (hSmall : ∀ entry ∈ entries, entry.1.val < 256 ^ 16) (hLong : 2 ≤ entries.length) : ∃ tail,
      entries.flatMap serializeEntry = List.replicate 16 0 ++ serializeEntry (Uint256.null, zeroTip) ++ tail := by
  cases entries with
  | nil => cases hHead
  | cons first entries =>
    cases hHead
    cases entries with
    | nil => exact absurd hLong (by decide)
    | cons second entries =>
      have hSecond := hSmall second (List.mem_cons_of_mem _ List.mem_cons_self)
      refine ⟨writeBE 16 second.1.val ++ (second.2.serialize ++ entries.flatMap serializeEntry), ?_⟩
      rw [List.flatMap_cons, List.flatMap_cons, serializeEntry_zero, serializeEntry, Uint256.bytes,
        writeBE_of_lt hSecond, List.replicate_append_replicate]
      simp only [← List.append_assoc, List.replicate_append_replicate]

end Zeros

/-- Tips that are one too many for the positions of 32 bits. -/
structure Excess (map : HashMap BlockIndex) : Prop where
  size : map.size = maxTips + 1
  first : map[Uint256.null]? = some zeroTip
  small : ∀ (hash : Uint256) (tip : BlockIndex), map[hash]? = some tip → hash.val < 256 ^ 16
  heights : HeightsFit map

section Lost

variable {map : HashMap BlockIndex}

theorem head?_toList (hFirst : map[Uint256.null]? = some zeroTip) : map.toList.head? = some (Uint256.null, zeroTip) := by
  have hMem := Std.ExtTreeMap.mem_toList_iff_getElem?_eq_some.mpr hFirst
  have hOrdered := Std.ExtTreeMap.ordered_keys_toList (t := map)
  cases hList : map.toList with
  | nil =>
    rw [hList] at hMem
    cases hMem
  | cons entry entries =>
    rw [hList] at hMem hOrdered
    cases List.mem_cons.mp hMem with
    | inl hEq => rw [hEq, List.head?_cons]
    | inr hLater =>
      have hLt := (List.pairwise_cons.mp hOrdered).1 _ hLater
      rw [Uint256.compare_eq, Nat.compare_eq_lt] at hLt
      exact absurd hLt (Nat.not_lt_zero _)

theorem lookup_insertEntries_eq_none {entries : List (Uint256 × BlockIndex)} {hash : Uint256}
    (hNew : ∀ entry ∈ entries, entry.1 ≠ hash) : (insertEntries entries)[hash]? = none := by
  have hNone : entries.find? (fun entry => decide (entry.1 = hash)) = none := by
    apply List.find?_eq_none.mpr
    intro entry hMem hEq
    exact hNew entry hMem (of_decide_eq_true hEq)
  rw [insertEntries, lookup_foldl_insertIfNew, hNone, Std.ExtTreeMap.getElem?_empty]
  rfl

theorem ne_of_nodup_keys {before : List (Uint256 × BlockIndex)} {lost : Uint256 × BlockIndex}
    (hNodup : ((before ++ [lost]).map Prod.fst).Nodup) {entry : Uint256 × BlockIndex} (hMem : entry ∈ before) :
    entry.1 ≠ lost.1 := by
  rw [List.map_append, List.nodup_append] at hNodup
  exact hNodup.2.2 entry.1 (List.mem_map_of_mem hMem) lost.1 List.mem_cons_self

/-- All entries but the last one, and then the one that the position has come back to. -/
theorem many_wrapped (stale : Nat → UInt8) {front : List (Uint256 × BlockIndex)} {last lost : Uint256 × BlockIndex}
    (hFits : ∀ entry ∈ front ++ [last], entry.2.FitsHeight) (hLength : front.length + 1 = maxTips)
    {size tail : Bytes} (hSize : size.length = 5)
    (hZeros : (front ++ [last] ++ [lost]).flatMap serializeEntry =
      List.replicate 16 0 ++ serializeEntry (Uint256.null, zeroTip) ++ tail) :
    ∃ next, Parser.many (unserializeEntry stale) (maxTips + 1)
        ⟨size ++ (front ++ [last] ++ [lost]).flatMap serializeEntry, .ofNat size.length, false⟩ =
      .ok (front ++ [last] ++ [(Uint256.null, zeroTip)], next) := by
  have hMax : maxTips = 31580642 := rfl
  have hZeroFits : zeroTip.FitsHeight := ⟨by decide, by decide⟩
  have hReads : ReadsFrom (Parser.many (unserializeEntry stale) (front ++ [last]).length) _ _ _ :=
    readsFrom_entries hFits
  have hFirst := hReads size (serializeEntry lost) false (by omega)
  have hCount : (front ++ [last]).length = maxTips := by rw [List.length_append, List.length_singleton, hLength]
  have hBytes : size ++ (front ++ [last]).flatMap serializeEntry ++ serializeEntry lost =
      size ++ (front ++ [last] ++ [lost]).flatMap serializeEntry := by
    simp only [List.flatMap_append, List.flatMap_singleton, List.append_assoc]
  -- 5 + 136 * 31580642 is 2 ^ 32 + 21, and 21 are the size and sixteen bytes
  have hPos : UInt32.ofNat (size.length + ((front ++ [last]).flatMap serializeEntry).length) =
      UInt32.ofNat (size ++ List.replicate 16 (0 : UInt8)).length := by
    rw [length_flatMap_of_length length_serializeEntry, hCount, List.length_append, hSize, hMax, List.length_replicate]
    rfl
  have hZeroReads : ReadsFrom (unserializeEntry stale) 104 (serializeEntry (Uint256.null, zeroTip)) _ :=
    readsFrom_entry hZeroFits
  have hZero := hZeroReads (size ++ List.replicate 16 0) tail false
    (by rw [List.length_append, hSize, List.length_replicate]; decide)
  have hBytes' : size ++ List.replicate 16 0 ++ serializeEntry (Uint256.null, zeroTip) ++ tail =
      size ++ (front ++ [last] ++ [lost]).flatMap serializeEntry := by
    rw [hZeros]
    simp only [List.append_assoc]
  rw [hBytes, hPos, hCount] at hFirst
  rw [hBytes'] at hZero
  exact ⟨_, Parser.run_many_succ hFirst hZero⟩

theorem exists_concat {α : Type} {items : List α} {n : Nat} (hLength : items.length = n + 1) :
    ∃ (front : List α) (last : α), items = front ++ [last] ∧ front.length = n := by
  obtain ⟨front, last, rfl⟩ := (List.eq_nil_or_concat' items).resolve_left (List.ne_nil_of_length_eq_add_one hLength)
  rw [List.length_append, List.length_singleton] at hLength
  exact ⟨front, last, rfl, Nat.succ.inj hLength⟩

theorem Excess.exists_split (hExcess : Excess map) : ∃ (front : List (Uint256 × BlockIndex))
    (last lost : Uint256 × BlockIndex), map.toList = front ++ [last] ++ [lost] ∧ front.length + 1 = maxTips := by
  obtain ⟨before, lost, hLost, hBefore⟩ := exists_concat (Std.ExtTreeMap.length_toList.trans hExcess.size)
  obtain ⟨front, last, rfl, hFront⟩ := exists_concat (hBefore.trans (rfl : maxTips = 31580641 + 1))
  exact ⟨front, last, lost, hLost, congrArg (· + 1) hFront⟩

/-- The entry behind the positions of 32 bits is not among those that come back. -/
theorem Excess.exists_lost (hExcess : Excess map) (stale : Nat → UInt8) :
    ∃ (lost : Uint256 × BlockIndex) (loaded : HashMap BlockIndex) (next : Cursor UInt8), lost ∈ map.toList ∧
      unserializeTips stale ⟨serializeTips map, 0, false⟩ = .ok (loaded, next) ∧ loaded[lost.1]? = none := by
  have hCount : map.toList.length = maxTips + 1 := Std.ExtTreeMap.length_toList.trans hExcess.size
  have hMaxSize : maxTips + 1 ≤ maxSize := by decide
  have hHead := head?_toList hExcess.first
  have hNodup := nodup_keys map
  have hFits : ∀ entry ∈ map.toList, entry.2.FitsHeight := fun entry hMem => hExcess.heights.of_mem hMem
  have hSmall : ∀ entry ∈ map.toList, entry.1.val < 256 ^ 16 := fun entry hMem =>
    hExcess.small entry.1 entry.2 (Std.ExtTreeMap.mem_toList_iff_getElem?_eq_some.mp hMem)
  obtain ⟨tail, hZeros⟩ := exists_zeros hHead hSmall (by rw [hCount]; decide)
  obtain ⟨front, last, lost, hList, hLength⟩ := hExcess.exists_split
  rw [hList] at hFits hZeros hNodup hHead
  have hSize : (writeCompactSize (maxTips + 1)).length = 5 := by rfl
  obtain ⟨next, hMany⟩ := many_wrapped stale (fun entry hEntry => hFits entry (List.mem_append_left _ hEntry)) hLength
    hSize hZeros
  have hTips := unserializeTips_of_entries hMaxSize hMany
  rw [← hCount, ← hList, ← writeVector, ← serializeTips] at hTips
  refine ⟨lost, _, next, ?_, hTips, ?_⟩
  · rw [hList]
    exact List.mem_append_right _ (List.mem_singleton_self lost)
  · apply lookup_insertEntries_eq_none
    intro entry hEntry
    apply ne_of_nodup_keys hNodup
    cases List.mem_append.mp hEntry with
    | inl hEarlier => exact hEarlier
    | inr hZero =>
      rw [List.head?_append_of_ne_nil _ (List.append_ne_nil_of_right_ne_nil _ (List.cons_ne_nil _ _))] at hHead
      rw [List.mem_singleton.mp hZero]
      exact List.mem_of_mem_head? hHead

end Lost

namespace TipCall

section Numbered

/-- Tips whose hashes are the first numbers. -/
def numberedTip (i : Nat) : BlockIndex := ⟨0, Uint256.ofNat i, Uint256.null, Uint256.null⟩

def numberedCalls (count : Nat) : List TipCall := (List.range count).map fun i => addTip (numberedTip i)

theorem fitsHeight_numberedTip (i : Nat) : (numberedTip i).FitsHeight :=
  ⟨(by decide : (-2 ^ 63 : Int) ≤ 0), (by decide : (0 : Int) < 2 ^ 63)⟩

theorem tips_numberedCalls_succ (count : Nat) : tips (numberedCalls (count + 1)) =
    (tips (numberedCalls count)).insert (Uint256.ofNat count) (numberedTip count) := by
  rw [tips, numberedCalls, List.range_succ, List.map_append, List.foldl_append]
  rfl

theorem lookup_tips_numberedCalls {count : Nat} (hCount : count ≤ 2 ^ 256) (hash : Uint256) :
    (tips (numberedCalls count))[hash]? = if hash.val < count then some (numberedTip hash.val) else none := by
  induction count with
  | zero =>
    rw [if_neg (Nat.not_lt_zero _)]
    exact Std.ExtTreeMap.getElem?_empty
  | succ count ih =>
    have hVal : (Uint256.ofNat count).val = count := Nat.mod_eq_of_lt hCount
    rw [tips_numberedCalls_succ, lookup_insert, ih (by omega)]
    by_cases hEq : Uint256.ofNat count = hash
    · rw [if_pos hEq, ← hEq, hVal, if_pos (Nat.lt_succ_self count)]
    · have hNe : hash.val ≠ count := fun hSame => hEq (Uint256.ext (hVal.trans hSame.symm))
      rw [if_neg hEq]
      by_cases hLt : hash.val < count
      · rw [if_pos hLt, if_pos (by omega)]
      · rw [if_neg hLt, if_neg (by omega)]

theorem size_tips_numberedCalls {count : Nat} (hCount : count ≤ 2 ^ 256) : (tips (numberedCalls count)).size = count := by
  induction count with
  | zero => exact Std.ExtTreeMap.size_empty
  | succ count ih =>
    have hVal : (Uint256.ofNat count).val = count := Nat.mod_eq_of_lt hCount
    have hNew : (tips (numberedCalls count)).contains (Uint256.ofNat count) = false := by
      rw [contains_eq_isSome, lookup_tips_numberedCalls (by omega), hVal, if_neg (Nat.lt_irrefl count)]
      rfl
    rw [tips_numberedCalls_succ, Std.ExtTreeMap.size_insert, hNew, if_neg Bool.false_ne_true, ih (by omega)]

theorem excess_numberedCalls : Excess (tips (numberedCalls (maxTips + 1))) := by
  have hCount : maxTips + 1 ≤ 2 ^ 256 := by decide
  have hTip {hash : Uint256} {tip : BlockIndex} (hGet : (tips (numberedCalls (maxTips + 1)))[hash]? = some tip) :
      hash.val < maxTips + 1 ∧ tip = numberedTip hash.val := by
    rw [lookup_tips_numberedCalls hCount] at hGet
    split at hGet
    case isTrue hLt =>
      cases hGet
      exact ⟨hLt, rfl⟩
    case isFalse => cases hGet
  refine ⟨size_tips_numberedCalls hCount, ?_, ?_, ?_⟩
  · rw [lookup_tips_numberedCalls hCount, if_pos (by decide)]
    rfl
  · intro hash tip hGet
    exact Nat.lt_trans (hTip hGet).1 (by decide)
  · intro hash tip hGet
    rw [(hTip hGet).2]
    exact fitsHeight_numberedTip _

end Numbered

section Live

/-- Without restarts nothing is read back, so any number of tips can be added. -/
theorem exists_foldlM_addTip (stale : Nat → UInt8) (indexes : List BlockIndex) {store : TipStore}
    (hStands : store.Stands store.tipMap) : ∃ store', (indexes.map addTip).foldlM (after stale) store = .ok store' ∧
      store'.tipMap = (indexes.map addTip).foldl onMap store.tipMap ∧ store'.Stands store'.tipMap := by
  induction indexes generalizing store with
  | nil => exact ⟨store, rfl, rfl, hStands⟩
  | cons index indexes ih =>
    have hLoad : store.getBlockTipMap stale = .ok { store with tipMap := store.tipMap } :=
      TipStore.getBlockTipMap_of_memory rfl hStands
    have hNext : after stale store (addTip index) = _ := TipStore.addTip_eq hLoad index
    obtain ⟨last, hLast, hMap, hEnd⟩ := ih (TipStore.stands_updateBlockTipMap index store.tipAll)
    refine ⟨last, ?_, hMap, hEnd⟩
    rw [List.map_cons, List.foldlM_cons, hNext]
    exact hLast

theorem tips_append_restart (calls : List TipCall) : tips (calls ++ [restart]) = tips calls := by
  rw [tips, List.foldl_append]
  rfl

theorem filter_append_restart (indexes : List BlockIndex) :
    (indexes.map addTip ++ [restart]).filter (· ≠ restart) = indexes.map addTip := by
  have hKept : ∀ call ∈ indexes.map addTip, decide (call ≠ restart) = true := by
    intro call hMem
    obtain ⟨index, -, rfl⟩ := List.mem_map.mp hMem
    exact decide_eq_true TipCall.noConfusion
  rw [List.filter_append, List.filter_eq_self.mpr hKept]
  exact List.append_nil _

theorem not_sameAnswers_of_excess {indexes : List BlockIndex} (hExcess : Excess (tips (indexes.map addTip)))
    (stale : Nat → UInt8) : ¬ SameAnswers stale (indexes.map addTip ++ [restart]) := by
  rintro ⟨store, plain, hRun, hPlainRun, hSame, -⟩
  obtain ⟨live, hLive, hMap, hStands⟩ := exists_foldlM_addTip stale indexes TipStore.stands_fresh
  have hMap : live.tipMap = tips (indexes.map addTip) := hMap
  obtain ⟨lost, loaded, next, hMem, hLoaded, hMissing⟩ := hExcess.exists_lost stale
  obtain ⟨tip, hTip, hPlainTip⟩ := hSame lost.1
  -- without the restart the last tip is found in memory
  rw [filter_append_restart, run, hLive] at hPlainRun
  cases hPlainRun
  have hFound : plain.getTip stale lost.1 = .ok (some lost.2) := by
    have hGet := Std.ExtTreeMap.mem_toList_iff_getElem?_eq_some.mp hMem
    rw [← hMap] at hGet
    rw [TipStore.getTip, TipStore.getBlockTipMap_of_memory rfl hStands]
    exact congrArg Except.ok hGet
  -- with it the map is read from the database
  rw [run, List.foldlM_append, hLive] at hRun
  cases hRun
  have hDatabase : plain.tipAll = some (serializeTips (tips (indexes.map addTip))) := by
    rw [hStands.database, hMap, if_neg]
    intro hEmpty
    rw [Std.ExtTreeMap.isEmpty_iff] at hEmpty
    rw [hEmpty] at hMem
    cases hMem
  have hNone : TipStore.getTip stale { plain with tipMap := ∅ } lost.1 = .ok none := by
    rw [TipStore.getTip, TipStore.getBlockTipMap, if_pos Std.ExtTreeMap.isEmpty_empty, hDatabase]
    dsimp only
    rw [hLoaded]
    exact congrArg Except.ok hMissing
  cases hFound.symm.trans (hPlainTip.trans (hTip.symm.trans hNone))

end Live

/-- More tips than come back, and fewer than a size allows. -/
theorem exists_not_sameAnswers : ∃ calls : List TipCall, (∀ call ∈ calls, call.HeightFits) ∧
    (tips calls).size ≤ maxSize ∧ ∀ stale, ¬ SameAnswers stale calls := by
  have hCount : maxTips + 1 ≤ 2 ^ 256 := by decide
  refine ⟨numberedCalls (maxTips + 1) ++ [restart], ?_, ?_, ?_⟩
  · intro call hMem tip hTip
    cases List.mem_append.mp hMem with
    | inl hAdded =>
      obtain ⟨i, -, rfl⟩ := List.mem_map.mp hAdded
      cases hTip
      exact fitsHeight_numberedTip i
    | inr hRestart =>
      rw [List.mem_singleton.mp hRestart] at hTip
      cases hTip
  · rw [tips_append_restart, size_tips_numberedCalls hCount]
    decide
  · intro stale
    have hExcess := excess_numberedCalls
    rw [numberedCalls, ← Function.comp_def, ← List.map_map] at hExcess ⊢
    exact not_sameAnswers_of_excess hExcess stale

end TipCall

end BitcoinGpuMiner
