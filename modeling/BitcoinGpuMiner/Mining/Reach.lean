import BitcoinGpuMiner.Chain.PlainBlock
import BitcoinGpuMiner.Foundation.Budget
import BitcoinGpuMiner.Mining.Template
import BitcoinGpuMiner.Wire.Connection

/-! # What the selection can reach

The transactions that pay a fee are taken in the order of their hashes, as many from the front as the weight allows.
They go from `_pool` to `_miningPool`. The weight has 32 bits: only a transaction that no message can carry would make it
wrap.
-/

namespace BitcoinGpuMiner

open Foundation

set_option autoImplicit false

namespace Ledger

/-- The part of the weight that a pool entry takes. -/
def entryWeight (entry : Uint256 × NetMessageTransaction) : Nat := entry.2.getSerializeSize * witnessScaleFactor

/-- The entries that pay a fee, as many from the front as the weight allows. -/
def withinReach (ledger : Ledger) (weight : Nat) (entries : List (Uint256 × NetMessageTransaction)) :
    List (Uint256 × NetMessageTransaction) :=
  fill entryWeight weight (entries.filter fun entry => ledger.getFees entry.2 ≠ 0)

/-- The entry that the weight has no room for does not look small enough in the 32 bits of `nBlockWeight`. -/
def Stops (ledger : Ledger) (weight : Nat) (entries : List (Uint256 × NetMessageTransaction)) : Prop :=
  ∀ entry, overrun entryWeight (nBlockMaxWeight - weight) (entries.filter fun entry => ledger.getFees entry.2 ≠ 0) =
      some entry →
    nBlockMaxWeight < (weight + weightOf ((ledger.withinReach (nBlockMaxWeight - weight) entries).map Prod.snd) +
      entryWeight entry) % 2 ^ 32

def feesOf (ledger : Ledger) (txs : List NetMessageTransaction) : Int := (txs.map ledger.getFees).sum

theorem toInt64_eq_self_iff {n : Int} (hNonneg : 0 ≤ n) : toInt64 n = n ↔ n < 2 ^ 63 := by
  rw [toInt64, Int.bmod_def]
  constructor
  · intro hEq
    split at hEq <;> omega
  · intro hLt
    rw [if_pos] <;> omega

theorem toInt64_toInt64_add (a b : Int) : toInt64 (toInt64 a + b) = toInt64 (a + b) := by
  rw [toInt64, toInt64, toInt64, Int.bmod_add_bmod]

section Fees

variable (ledger : Ledger)

theorem getFees_nonneg (tx : NetMessageTransaction) : 0 ≤ ledger.getFees tx := by
  rw [getFees]
  cases ledger.sumInputs tx.vin 0 with
  | none => exact Int.le_refl 0
  | some inValue =>
    dsimp only
    split
    case isTrue hPos => exact Int.le_of_lt hPos
    case isFalse => exact Int.le_refl 0

theorem feesOf_nonneg (txs : List NetMessageTransaction) : 0 ≤ ledger.feesOf txs := by
  induction txs with
  | nil => exact Int.le_refl 0
  | cons tx txs ih =>
    have hFee := ledger.getFees_nonneg tx
    rw [feesOf] at ih
    rw [feesOf, List.map_cons, List.sum_cons]
    omega

theorem getFees_plainSpend {pt : OutPoint} {idx : TxIdx} {out : TxOut} {nValue : Int}
    (hIdx : ledger.txIndex[pt.hashTransaction]? = some idx) (hOut : idx.tx.vout[pt.outPutIdx.toNat]? = some out)
    (hNonneg : 0 ≤ nValue) (hLt : nValue < out.nValue) (hMax : out.nValue ≤ maxMoney) :
    ledger.getFees (plainSpend pt nValue) = out.nValue - nValue := by
  have hMoney : maxMoney = 2100000000000000 := rfl
  have hExact : ∀ n : Int, 0 ≤ n → n ≤ maxMoney → toInt64 n = n := by
    intro n hLow hHigh
    rw [toInt64_eq_self_iff hLow]
    omega
  have hIn : ledger.sumInputs (plainSpend pt nValue).vin 0 = some out.nValue := by
    simp only [plainSpend, sumInputs, hIdx, hOut, Int.zero_add, hExact _ (by omega) hMax]
  have hValueOut : (plainSpend pt nValue).getValueOut = nValue := by
    have hRange : moneyRange nValue = true := (moneyRange_iff _).mpr ⟨hNonneg, by omega⟩
    simp only [plainSpend, NetMessageTransaction.getValueOut, NetMessageTransaction.sumValueOut, Int.zero_add,
      hExact nValue hNonneg (by omega), hRange, Bool.not_true, Bool.or_self, Bool.false_eq_true, if_false]
  rw [getFees, hIn]
  dsimp only
  rw [hValueOut, hExact _ (by omega) (by omega), if_pos (by omega)]

theorem sumInputs_replicate (pt : OutPoint) {idx : TxIdx} (out : TxOut)
    (hIdx : ledger.txIndex[pt.hashTransaction]? = some idx) (hOut : idx.tx.vout[pt.outPutIdx.toNat]? = some out)
    (hNonneg : 0 ≤ out.nValue) (rest : List TxIn) (count : Nat) (inValue : Int) (hStart : 0 ≤ inValue)
    (hFits : inValue + count * out.nValue < 2 ^ 63) :
    ledger.sumInputs (List.replicate count ⟨pt, [], 0xffffffff, []⟩ ++ rest) inValue =
      ledger.sumInputs rest (inValue + count * out.nValue) := by
  induction count generalizing inValue with
  | zero => simp
  | succ count ih =>
    have hStep : inValue + ((count + 1 : Nat) : Int) * out.nValue = inValue + out.nValue + count * out.nValue := by
      rw [Int.natCast_succ, Int.add_mul, Int.one_mul]
      omega
    have hCount : 0 ≤ (count : Int) * out.nValue := Int.mul_nonneg (Int.natCast_nonneg _) hNonneg
    rw [hStep] at hFits ⊢
    have hExact : toInt64 (inValue + out.nValue) = inValue + out.nValue := by
      rw [toInt64_eq_self_iff (by omega)]
      omega
    simp only [List.replicate_succ, List.cons_append, sumInputs, hIdx, hOut, hExact]
    exact ih _ (by omega) hFits

end Fees

end Ledger

namespace TXMemPool

/-- What the loop does to the pool for an entry it takes. -/
def move (memPool : TXMemPool) (entry : Uint256 × NetMessageTransaction) : TXMemPool :=
  { memPool with miningPool := memPool.miningPool.insert entry.1 entry.2, pool := memPool.pool.erase entry.1 }

section Move

variable (entries : List (Uint256 × NetMessageTransaction)) (memPool : TXMemPool)

theorem pool_foldl_move : (entries.foldl move memPool).pool =
    entries.foldl (fun pool entry => pool.erase entry.1) memPool.pool := by
  induction entries generalizing memPool with
  | nil => rfl
  | cons entry entries ih => exact ih (memPool.move entry)

theorem miningPool_foldl_move : (entries.foldl move memPool).miningPool =
    entries.foldl (fun miningPool entry => miningPool.insert entry.1 entry.2) memPool.miningPool := by
  induction entries generalizing memPool with
  | nil => rfl
  | cons entry entries ih => exact ih (memPool.move entry)

end Move

end TXMemPool

/-- The loop has taken the given entries. -/
structure Takes (ledger : Ledger) (before : Selection) (taken : List (Uint256 × NetMessageTransaction))
    (after : Selection) : Prop where
  vtx : after.vtx = before.vtx ++ taken.map Prod.snd
  memPool : after.memPool = taken.foldl TXMemPool.move before.memPool
  nFees : after.nFees = taken.foldl (fun nFees entry => toInt64 (nFees + ledger.getFees entry.2)) before.nFees

section Loop

variable {ledger : Ledger}

theorem withinReach_cons_of_free {entry : Uint256 × NetMessageTransaction} (hFree : ledger.getFees entry.2 = 0)
    (weight : Nat) (rest : List (Uint256 × NetMessageTransaction)) :
    ledger.withinReach weight (entry :: rest) = ledger.withinReach weight rest := by
  rw [Ledger.withinReach, List.filter_cons_of_neg (by simp [hFree]), Ledger.withinReach]

theorem withinReach_cons_of_paying {entry : Uint256 × NetMessageTransaction} (hPays : ledger.getFees entry.2 ≠ 0)
    (weight : Nat) (rest : List (Uint256 × NetMessageTransaction)) :
    ledger.withinReach weight (entry :: rest) = if Ledger.entryWeight entry ≤ weight then
      entry :: ledger.withinReach (weight - Ledger.entryWeight entry) rest else [] := by
  rw [Ledger.withinReach, List.filter_cons_of_pos (by simp [hPays]), fill, Ledger.withinReach]

theorem stops_cons_of_free {entry : Uint256 × NetMessageTransaction} (hFree : ledger.getFees entry.2 = 0)
    (weight : Nat) (rest : List (Uint256 × NetMessageTransaction)) :
    ledger.Stops weight (entry :: rest) ↔ ledger.Stops weight rest := by
  rw [Ledger.Stops, List.filter_cons_of_neg (by simp [hFree]), withinReach_cons_of_free hFree, Ledger.Stops]

theorem stops_cons_of_le {entry : Uint256 × NetMessageTransaction} (hPays : ledger.getFees entry.2 ≠ 0) {weight : Nat}
    (hFits : Ledger.entryWeight entry ≤ nBlockMaxWeight - weight) (rest : List (Uint256 × NetMessageTransaction)) :
    ledger.Stops weight (entry :: rest) ↔ ledger.Stops (weight + Ledger.entryWeight entry) rest := by
  have hWeight : ∀ txs : List NetMessageTransaction,
      weight + weightOf (entry.2 :: txs) = weight + Ledger.entryWeight entry + weightOf txs := by
    intro txs
    rw [weightOf, List.map_cons, List.sum_cons, ← Nat.add_assoc]
    rfl
  rw [Ledger.Stops, List.filter_cons_of_pos (by simp [hPays]), overrun_cons_of_le hFits,
    withinReach_cons_of_paying hPays, if_pos hFits, List.map_cons, hWeight, Nat.sub_sub, Ledger.Stops]

theorem stops_cons_of_lt {entry : Uint256 × NetMessageTransaction} (hPays : ledger.getFees entry.2 ≠ 0) {weight : Nat}
    (hOver : nBlockMaxWeight - weight < Ledger.entryWeight entry) (rest : List (Uint256 × NetMessageTransaction)) :
    ledger.Stops weight (entry :: rest) ↔ nBlockMaxWeight < (weight + Ledger.entryWeight entry) % 2 ^ 32 := by
  rw [Ledger.Stops, List.filter_cons_of_pos (by simp [hPays]), overrun_cons_of_lt hOver,
    withinReach_cons_of_paying hPays, if_neg (Nat.not_le.mpr hOver)]
  constructor
  · intro hStops
    exact hStops entry rfl
  · intro hLt other hOther
    cases hOther
    exact hLt

/-- No transaction of the network is so large that the weight would exceed its 32 bits. -/
theorem stops_of_sizes {entries : List (Uint256 × NetMessageTransaction)}
    (hSizes : ∀ entry ∈ entries, entry.2.getSerializeSize ≤ maxProtocolMessageLength) {weight : Nat}
    (hWeight : weight ≤ nBlockMaxWeight) : ledger.Stops weight entries := by
  intro entry hOver
  obtain ⟨hMem, hLt⟩ := overrun_eq_some hOver
  have hSum := sum_fill_le Ledger.entryWeight (nBlockMaxWeight - weight)
    (entries.filter fun entry => ledger.getFees entry.2 ≠ 0)
  have hSize := hSizes entry (List.mem_of_mem_filter hMem)
  have hMax : nBlockMaxWeight = 3996000 := rfl
  have hLimit : maxProtocolMessageLength = 4000000 := rfl
  have hEntry : Ledger.entryWeight entry = entry.2.getSerializeSize * 4 := rfl
  rw [weightOf, List.map_map]
  change nBlockMaxWeight < (weight + ((fill Ledger.entryWeight (nBlockMaxWeight - weight)
    (entries.filter fun entry => ledger.getFees entry.2 ≠ 0)).map Ledger.entryWeight).sum + _) % 2 ^ 32
  omega

/-- The loop takes the entries in reach, if it stops after them. -/
theorem takes_selectTxs {entries : List (Uint256 × NetMessageTransaction)} (selection : Selection)
    (hWeight : selection.nBlockWeight ≤ nBlockMaxWeight) (hStops : ledger.Stops selection.nBlockWeight entries) :
    Takes ledger selection (ledger.withinReach (nBlockMaxWeight - selection.nBlockWeight) entries)
      (selectTxs ledger entries selection) := by
  induction entries generalizing selection with
  | nil => exact ⟨(List.append_nil _).symm, rfl, rfl⟩
  | cons entry rest ih =>
    have hMax : nBlockMaxWeight = 3996000 := rfl
    rw [selectTxs]
    dsimp only
    rw [← Ledger.entryWeight]
    split
    case isTrue hFree =>
      rw [withinReach_cons_of_free hFree]
      exact ih selection hWeight ((stops_cons_of_free hFree ..).mp hStops)
    case isFalse hPays =>
    rw [withinReach_cons_of_paying hPays]
    by_cases hFits : Ledger.entryWeight entry ≤ nBlockMaxWeight - selection.nBlockWeight
    case neg =>
      rw [if_neg hFits, if_pos ((stops_cons_of_lt hPays (Nat.not_le.mp hFits) _).mp hStops)]
      exact ⟨(List.append_nil _).symm, rfl, rfl⟩
    case pos =>
      rw [if_pos hFits, Nat.mod_eq_of_lt (by omega), if_neg (by omega), Nat.sub_sub]
      have hNext := ih ⟨selection.memPool.move entry, toInt64 (selection.nFees + ledger.getFees entry.2),
        selection.nBlockWeight + Ledger.entryWeight entry, selection.vtx ++ [entry.2]⟩ (by dsimp only; omega)
        ((stops_cons_of_le hPays hFits _).mp hStops)
      exact ⟨hNext.vtx.trans (List.append_cons _ _ _).symm, hNext.memPool, hNext.nFees⟩

/-- Otherwise it takes a transaction that is too large for any block. -/
theorem exists_oversized {entries : List (Uint256 × NetMessageTransaction)} (selection : Selection)
    (hWeight : selection.nBlockWeight ≤ nBlockMaxWeight) (hNot : ¬ ledger.Stops selection.nBlockWeight entries) :
    ∃ tx ∈ (selectTxs ledger entries selection).vtx, maxBlockWeight < tx.getSerializeSize * witnessScaleFactor := by
  induction entries generalizing selection with
  | nil => exact absurd (fun entry hOver => by cases hOver) hNot
  | cons entry rest ih =>
    have hMax : nBlockMaxWeight = 3996000 := rfl
    have hBound : maxBlockWeight = 4000000 := rfl
    have hEntry : Ledger.entryWeight entry = entry.2.getSerializeSize * witnessScaleFactor := rfl
    rw [selectTxs]
    dsimp only
    rw [← hEntry]
    split
    case isTrue hFree => exact ih selection hWeight (hNot ∘ (stops_cons_of_free hFree ..).mpr)
    case isFalse hPays =>
    by_cases hFits : Ledger.entryWeight entry ≤ nBlockMaxWeight - selection.nBlockWeight
    case neg =>
      rw [stops_cons_of_lt hPays (Nat.not_le.mp hFits)] at hNot
      rw [if_neg hNot]
      obtain ⟨txs, hVtx, -⟩ := exists_selected ledger rest ⟨selection.memPool.move entry,
        toInt64 (selection.nFees + ledger.getFees entry.2),
        (selection.nBlockWeight + Ledger.entryWeight entry) % 2 ^ 32, selection.vtx ++ [entry.2]⟩
      refine ⟨entry.2, ?_, by omega⟩
      exact hVtx ▸ List.mem_append_left _ (List.mem_append_right _ List.mem_cons_self)
    case pos =>
      rw [Nat.mod_eq_of_lt (by omega), if_neg (by omega)]
      exact ih ⟨selection.memPool.move entry, toInt64 (selection.nFees + ledger.getFees entry.2),
        selection.nBlockWeight + Ledger.entryWeight entry, selection.vtx ++ [entry.2]⟩ (by dsimp only; omega)
        (hNot ∘ (stops_cons_of_le hPays hFits _).mpr)

end Loop

/-- What `GetNewBlockTxs` can take from a pool. -/
def TXMemPool.inReach (ledger : Ledger) (memPool : TXMemPool) : List (Uint256 × NetMessageTransaction) :=
  ledger.withinReach (nBlockMaxWeight - 80) memPool.pool.toList

section Reach

variable {ledger : Ledger} {memPool : TXMemPool}

theorem sublist_inReach (ledger : Ledger) (memPool : TXMemPool) : (memPool.inReach ledger).Sublist memPool.pool.toList :=
  (prefix_fill _ _ _).sublist.trans List.filter_sublist

theorem lookup_of_mem_inReach {entry : Uint256 × NetMessageTransaction} (hMem : entry ∈ memPool.inReach ledger) :
    memPool.pool[entry.1]? = some entry.2 :=
  Std.ExtTreeMap.mem_toList_iff_getElem?_eq_some.mp ((sublist_inReach ledger memPool).subset hMem)

theorem nodup_inReach (ledger : Ledger) (memPool : TXMemPool) : ((memPool.inReach ledger).map Prod.fst).Nodup :=
  (nodup_keys memPool.pool).sublist ((sublist_inReach ledger memPool).map Prod.fst)

theorem getFees_pos_of_mem_inReach {entry : Uint256 × NetMessageTransaction} (hMem : entry ∈ memPool.inReach ledger) :
    0 < ledger.getFees entry.2 := by
  have hPaying := List.of_mem_filter ((prefix_fill _ _ _).subset hMem)
  have hNe : ledger.getFees entry.2 ≠ 0 := of_decide_eq_true hPaying
  have hNonneg := ledger.getFees_nonneg entry.2
  omega

theorem weight_inReach (ledger : Ledger) (memPool : TXMemPool) :
    80 + 4 * ((memPool.inReach ledger).map fun entry => entry.2.getSerializeSize).sum ≤ maxBlockWeight - 4000 := by
  have hSum : weightOf ((memPool.inReach ledger).map Prod.snd) ≤ nBlockMaxWeight - 80 := by
    rw [weightOf, List.map_map]
    exact sum_fill_le _ _ _
  have hMax : nBlockMaxWeight = 3996000 := rfl
  have hBound : maxBlockWeight = 4000000 := rfl
  have hFactor : witnessScaleFactor = 4 := rfl
  rw [weightOf_eq, List.map_map, Function.comp_def, hFactor] at hSum
  omega

theorem foldl_toInt64_fees (ledger : Ledger) (taken : List (Uint256 × NetMessageTransaction)) (start : Int) :
    taken.foldl (fun nFees entry => toInt64 (nFees + ledger.getFees entry.2)) (toInt64 start) =
      toInt64 (start + ledger.feesOf (taken.map Prod.snd)) := by
  induction taken generalizing start with
  | nil => rw [List.foldl_nil, List.map_nil, Ledger.feesOf, List.map_nil, List.sum_nil, Int.add_zero]
  | cons entry taken ih =>
    rw [List.foldl_cons, Ledger.toInt64_toInt64_add, ih, List.map_cons, Ledger.feesOf, Ledger.feesOf, List.map_cons,
      List.sum_cons, Int.add_assoc]

/-- The transactions of a pool, as the network layer admits them. -/
def TXMemPool.SizesOk (memPool : TXMemPool) : Prop :=
  AllEntries (fun _ tx => tx.getSerializeSize ≤ maxProtocolMessageLength) memPool.pool

/-- The selection ends with the entries in reach. -/
def TXMemPool.Stops (ledger : Ledger) (memPool : TXMemPool) : Prop := ledger.Stops 80 memPool.pool.toList

theorem TXMemPool.SizesOk.stops (ledger : Ledger) (hSizes : memPool.SizesOk) : memPool.Stops ledger := by
  refine stops_of_sizes ?_ (by decide)
  intro entry hEntry
  exact hSizes entry.1 entry.2 (Std.ExtTreeMap.mem_toList_iff_getElem?_eq_some.mp hEntry)

theorem takes_getNewBlockTxs (hStops : memPool.Stops ledger) :
    Takes ledger ⟨{ memPool with miningPool := ∅ }, 0, 80, []⟩ (memPool.inReach ledger)
      (getNewBlockTxs ledger memPool) :=
  takes_selectTxs ⟨_, 0, 80, []⟩ (show 80 ≤ nBlockMaxWeight by decide) hStops

theorem oversized_of_not_stops (hNot : ¬ memPool.Stops ledger) : ∃ tx ∈ (getNewBlockTxs ledger memPool).vtx,
    maxBlockWeight < tx.getSerializeSize * witnessScaleFactor :=
  exists_oversized ⟨_, 0, 80, []⟩ (show 80 ≤ nBlockMaxWeight by decide) hNot

theorem vtx_getNewBlockTxs (hStops : memPool.Stops ledger) :
    (getNewBlockTxs ledger memPool).vtx = (memPool.inReach ledger).map Prod.snd :=
  (takes_getNewBlockTxs hStops).vtx

theorem nFees_getNewBlockTxs (hStops : memPool.Stops ledger) :
    (getNewBlockTxs ledger memPool).nFees = toInt64 (ledger.feesOf ((memPool.inReach ledger).map Prod.snd)) := by
  have hFold := foldl_toInt64_fees ledger (memPool.inReach ledger) 0
  rw [Int.zero_add] at hFold
  exact (takes_getNewBlockTxs hStops).nFees.trans hFold

theorem pool_getNewBlockTxs (ledger : Ledger) (hSizes : memPool.SizesOk) (hash : Uint256) :
    (getNewBlockTxs ledger memPool).memPool.pool[hash]? =
      if hash ∈ (memPool.inReach ledger).map Prod.fst then none else memPool.pool[hash]? := by
  rw [(takes_getNewBlockTxs (hSizes.stops ledger)).memPool, TXMemPool.pool_foldl_move, lookup_foldl_erase Prod.fst]

theorem miningPool_getNewBlockTxs (ledger : Ledger) (hSizes : memPool.SizesOk) (hash : Uint256)
    (tx : NetMessageTransaction) : (getNewBlockTxs ledger memPool).memPool.miningPool[hash]? = some tx ↔
      (hash, tx) ∈ memPool.inReach ledger := by
  rw [(takes_getNewBlockTxs (hSizes.stops ledger)).memPool, TXMemPool.miningPool_foldl_move]
  exact lookup_foldl_insert_empty_iff (nodup_inReach ledger memPool) hash tx

/-- A pool that fits into a block as a whole, and of which every transaction pays. -/
theorem inReach_eq_toList (hPays : ∀ entry ∈ memPool.pool.toList, ledger.getFees entry.2 ≠ 0)
    (hWeight : (memPool.pool.toList.map Ledger.entryWeight).sum ≤ nBlockMaxWeight - 80) :
    memPool.inReach ledger = memPool.pool.toList := by
  have hAll : (memPool.pool.toList.filter fun entry => ledger.getFees entry.2 ≠ 0) = memPool.pool.toList :=
    List.filter_eq_self.mpr fun entry hEntry => decide_eq_true (hPays entry hEntry)
  rw [TXMemPool.inReach, Ledger.withinReach, hAll, fill_eq_self hWeight]

end Reach

/-! Pools of two transactions. -/

namespace Node

def poolOf (first second : NetMessageTransaction) : HashMap NetMessageTransaction :=
  ((∅ : HashMap NetMessageTransaction).insert first.getHash first).insert second.getHash second

def withTwo (node : Node) (first second : NetMessageTransaction) : Node :=
  { node with memPool := ⟨poolOf first second, ∅, ∅⟩ }

section Two

variable {node : Node} {tip : BlockIndex} {first second : NetMessageTransaction}

theorem lookup_poolOf (hNe : first.getHash ≠ second.getHash) (hash : Uint256) (tx : NetMessageTransaction) :
    (poolOf first second)[hash]? = some tx ↔
      (hash, tx) = (first.getHash, first) ∨ (hash, tx) = (second.getHash, second) := by
  rw [poolOf, lookup_insert_eq_some_iff, lookup_insert_eq_some_iff]
  simp only [Prod.mk.injEq]
  constructor
  · rintro (⟨rfl, rfl⟩ | ⟨-, ⟨rfl, rfl⟩ | ⟨-, hNone⟩⟩)
    · exact .inr ⟨rfl, rfl⟩
    · exact .inl ⟨rfl, rfl⟩
    · simp at hNone
  · rintro (⟨rfl, rfl⟩ | ⟨rfl, rfl⟩)
    · exact .inr ⟨hNe.symm, .inl ⟨rfl, rfl⟩⟩
    · exact .inl ⟨rfl, rfl⟩

theorem contains_single (hNe : first.getHash ≠ second.getHash) :
    ((∅ : HashMap NetMessageTransaction).insert first.getHash first).contains second.getHash = false := by
  rw [contains_eq_isSome, lookup_insert_ne _ _ hNe]
  simp

theorem History.acceptTwo (hHistory : History anyScript node) (hEmpty : node.memPool = TXMemPool.empty)
    (hTip : node.tips.getActiveTip = some tip) (hNe : first.getHash ≠ second.getHash)
    (hFound : node.ledger.allInputsFound first = true ∧ node.ledger.allInputsFound second = true)
    (hOk : VtxValid anyScript node.ledger (tip.height + 1) [first, second]) :
    History anyScript (node.withTwo first second) := by
  obtain ⟨hFirstOk, hSecondOk, -⟩ := List.forall_mem_cons.mp hOk |>.imp_right List.forall_mem_cons.mp
  have hFirst : node.acceptTx anyScript node.memPool first =
      .ok (⟨(∅ : HashMap NetMessageTransaction).insert first.getHash first, ∅, ∅⟩, true) := by
    rw [hEmpty]
    exact acceptTx_of_txOk hTip (by simp [TXMemPool.empty]) hFound.1 hFirstOk
  have hSecond : Node.acceptTx anyScript
      { node with memPool := ⟨(∅ : HashMap NetMessageTransaction).insert first.getHash first, ∅, ∅⟩ }
      ⟨(∅ : HashMap NetMessageTransaction).insert first.getHash first, ∅, ∅⟩ second =
      .ok (⟨poolOf first second, ∅, ∅⟩, true) :=
    acceptTx_of_txOk hTip (by rw [contains_single hNe]; simp) hFound.2 hSecondOk
  exact (hHistory.tail (.acceptTx hFirst)).tail (.acceptTx hSecond)

/-- Transactions with an unknown input go into `_miningPool` and from there into `_pool`. -/
theorem History.orphanTwo {verifyScript : VerifyScript} (hHistory : History verifyScript node)
    (hEmpty : node.memPool = TXMemPool.empty) (hNe : first.getHash ≠ second.getHash)
    (hMissing : node.ledger.allInputsFound first = false ∧ node.ledger.allInputsFound second = false) :
    History verifyScript (node.withTwo first second) := by
  have hFirst : node.acceptTx verifyScript node.memPool first =
      .ok (⟨∅, ∅, (∅ : HashMap NetMessageTransaction).insert first.getHash first⟩, true) := by
    rw [hEmpty]
    exact acceptTx_orphan verifyScript (by simp [TXMemPool.knows, TXMemPool.empty]) hMissing.1
  have hSecond : Node.acceptTx verifyScript
      { node with memPool := ⟨∅, ∅, (∅ : HashMap NetMessageTransaction).insert first.getHash first⟩ }
      ⟨∅, ∅, (∅ : HashMap NetMessageTransaction).insert first.getHash first⟩ second =
      .ok (⟨∅, ∅, poolOf first second⟩, true) :=
    acceptTx_orphan verifyScript (by rw [TXMemPool.knows, contains_single hNe]; simp) hMissing.2
  have hUndo : TXMemPool.undoMiningTxs ⟨∅, ∅, poolOf first second⟩ = ⟨poolOf first second, ∅, ∅⟩ := by
    have hPool : (TXMemPool.undoMiningTxs ⟨∅, ∅, poolOf first second⟩).pool = poolOf first second := by
      apply Std.ExtTreeMap.ext_getElem?
      intro hash
      rw [TXMemPool.lookup_undoMiningTxs]
      simp
    exact congrArg (fun pool => (⟨pool, ∅, ∅⟩ : TXMemPool)) hPool
  have hRun := ((hHistory.tail (.acceptTx hFirst)).tail (.acceptTx hSecond)).tail (.undoMiningTxs _)
  dsimp only at hRun
  rw [hUndo] at hRun
  exact hRun

theorem perm_toList {pool : HashMap NetMessageTransaction} (hNe : first.getHash ≠ second.getHash)
    (hPool : ∀ (hash : Uint256) (tx : NetMessageTransaction), pool[hash]? = some tx ↔
      (hash, tx) = (first.getHash, first) ∨ (hash, tx) = (second.getHash, second)) :
    pool.toList.Perm [(first.getHash, first), (second.getHash, second)] := by
  have hNodup : pool.toList.Nodup := (nodup_keys pool).of_map
  rw [List.perm_ext_iff_of_nodup hNodup (by simp [hNe])]
  rintro ⟨hash, tx⟩
  rw [Std.ExtTreeMap.mem_toList_iff_getElem?_eq_some, hPool, List.mem_pair]

/-- Both are in reach if both pay and there is room for them. -/
theorem inReach_two {ledger : Ledger} {memPool : TXMemPool}
    (hPerm : memPool.pool.toList.Perm [(first.getHash, first), (second.getHash, second)])
    (hPays : ledger.getFees first ≠ 0 ∧ ledger.getFees second ≠ 0)
    (hSizes : first.getSerializeSize + second.getSerializeSize ≤ 900000) :
    memPool.inReach ledger = memPool.pool.toList := by
  apply inReach_eq_toList
  · intro entry hEntry
    rcases List.mem_pair.mp (hPerm.mem_iff.mp hEntry) with rfl | rfl
    · exact hPays.1
    · exact hPays.2
  · have hMax : nBlockMaxWeight = 3996000 := rfl
    have hWeight : (memPool.pool.toList.map Ledger.entryWeight).sum =
        first.getSerializeSize * 4 + second.getSerializeSize * 4 := by
      rw [(hPerm.map _).sum_eq, List.map_cons, List.map_singleton, List.sum_cons, List.sum_singleton]
      rfl
    rw [hWeight]
    omega

theorem feesOf_inReach_two {ledger : Ledger} {memPool : TXMemPool} (hNe : first.getHash ≠ second.getHash)
    (hPool : ∀ (hash : Uint256) (tx : NetMessageTransaction), memPool.pool[hash]? = some tx ↔
      (hash, tx) = (first.getHash, first) ∨ (hash, tx) = (second.getHash, second))
    (hPays : ledger.getFees first ≠ 0 ∧ ledger.getFees second ≠ 0)
    (hSizes : first.getSerializeSize + second.getSerializeSize ≤ 900000) :
    ledger.feesOf ((memPool.inReach ledger).map Prod.snd) = ledger.getFees first + ledger.getFees second := by
  have hPerm := perm_toList hNe hPool
  rw [inReach_two hPerm hPays hSizes, Ledger.feesOf, List.map_map, (hPerm.map _).sum_eq, List.map_cons,
    List.map_singleton, List.sum_cons, List.sum_singleton]
  rfl

end Two

end Node

end BitcoinGpuMiner
