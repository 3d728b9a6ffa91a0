import BitcoinGpuMiner.Chain.PlainBlock
import BitcoinGpuMiner.Ledger.Utxo

/-! # Undoing transactions

`UnCacheUTXO` removes what a transaction made and frees what it spent. A reorganisation calls it oldest
block first, and within a block first transaction first, so an output may be removed before the
transaction that spent it is undone. The order does not matter.
-/

namespace BitcoinGpuMiner

open Foundation

set_option autoImplicit false

namespace UtxoSet

def cacheAll (utxo : UtxoSet) (txs : List TxIdx) : UtxoSet :=
  txs.foldl (fun utxo idx => utxo.cacheUTXO idx.tx idx.hashBlock idx.height) utxo

def unCacheAll (utxo : UtxoSet) (txs : List NetMessageTransaction) : UtxoSet := txs.foldl unCacheUTXO utxo

/-- Recorded one after the other, each transaction finds what it spends unspent. -/
def SpendsInOrder (utxo : UtxoSet) : List TxIdx → Prop
  | [] => True
  | idx :: rest => (∀ pt ∈ idx.tx.spends, utxo.Unspent pt) ∧
      SpendsInOrder (utxo.cacheUTXO idx.tx idx.hashBlock idx.height) rest

section Lookup

variable {pt : OutPoint}

theorem lookup_unCacheUTXO (hPt : pt ≠ OutPoint.null) (utxo : UtxoSet) (tx : NetMessageTransaction) :
    (utxo.unCacheUTXO tx)[pt]? =
      if pt ∈ tx.outPoints then none
      else if pt ∈ tx.spends then utxo[pt]?.map fun entry => { entry with isUsed := false }
      else utxo[pt]? := by
  have hErased := lookup_foldl_erase id tx.outPoints (tx.spends.foldl unUsed utxo) pt
  rw [List.map_id] at hErased
  exact hErased.trans (congrArg _ (lookup_foldl_setUsed hPt false tx.spends utxo))

theorem lookup_null_unCacheUTXO (utxo : UtxoSet) (tx : NetMessageTransaction) :
    (utxo.unCacheUTXO tx)[OutPoint.null]? =
      if OutPoint.null ∈ tx.outPoints then none else utxo[OutPoint.null]? := by
  have hErased := lookup_foldl_erase id tx.outPoints (tx.spends.foldl unUsed utxo) OutPoint.null
  rw [List.map_id] at hErased
  exact hErased.trans (congrArg _ (lookup_null_foldl_setUsed false tx.spends utxo))

/-- The order of the transactions does not show in what is left after undoing them. -/
theorem lookup_unCacheAll (hPt : pt ≠ OutPoint.null) (utxo : UtxoSet) (txs : List NetMessageTransaction) :
    (utxo.unCacheAll txs)[pt]? =
      if ∃ tx ∈ txs, pt ∈ tx.outPoints then none
      else if ∃ tx ∈ txs, pt ∈ tx.spends then utxo[pt]?.map fun entry => { entry with isUsed := false }
      else utxo[pt]? := by
  induction txs generalizing utxo with
  | nil => simp [unCacheAll]
  | cons tx txs ih =>
    refine (ih (utxo.unCacheUTXO tx)).trans ?_
    rw [lookup_unCacheUTXO hPt]
    -- A removed output stays away: freeing an output that is not there does nothing.
    by_cases hMade : pt ∈ tx.outPoints
    · simp [hMade]
    · by_cases hSpent : pt ∈ tx.spends
      · cases utxo[pt]? <;> simp [hMade, hSpent]
      · simp [hMade, hSpent]

theorem lookup_null_unCacheAll (utxo : UtxoSet) (txs : List NetMessageTransaction) :
    (utxo.unCacheAll txs)[OutPoint.null]? =
      if ∃ tx ∈ txs, OutPoint.null ∈ tx.outPoints then none else utxo[OutPoint.null]? := by
  induction txs generalizing utxo with
  | nil => simp [unCacheAll]
  | cons tx txs ih =>
    refine (ih (utxo.unCacheUTXO tx)).trans ?_
    rw [lookup_null_unCacheUTXO]
    by_cases hMade : OutPoint.null ∈ tx.outPoints
    · simp [hMade]
    · simp [hMade]

theorem lookup_cacheAll (hPt : pt ≠ OutPoint.null) (utxo : UtxoSet) (txs : List TxIdx)
    (hMade : ∀ idx ∈ txs, pt ∉ idx.tx.outPoints) : (utxo.cacheAll txs)[pt]? =
      if ∃ idx ∈ txs, pt ∈ idx.tx.spends then utxo[pt]?.map fun entry => { entry with isUsed := true }
      else utxo[pt]? := by
  have hRecord := Ledger.lookup_foldl_record txs ⟨∅, utxo⟩ hPt hMade
  rw [Ledger.foldl_record_utxo] at hRecord
  simpa only [List.mem_flatMap, cacheAll] using hRecord

theorem lookup_null_cacheAll (utxo : UtxoSet) (txs : List TxIdx) :
    (utxo.cacheAll txs)[OutPoint.null]? = utxo[OutPoint.null]? := by
  induction txs generalizing utxo with
  | nil => rfl
  | cons idx txs ih => exact (ih _).trans (lookup_null_cacheUTXO ..)

/-- What is spent and not made on the way was there before, unspent. -/
theorem SpendsInOrder.unspent (hPt : pt ≠ OutPoint.null) {utxo : UtxoSet} {txs : List TxIdx}
    (hSpends : utxo.SpendsInOrder txs) (hMade : ∀ idx ∈ txs, pt ∉ idx.tx.outPoints)
    (hSpent : ∃ idx ∈ txs, pt ∈ idx.tx.spends) : utxo.Unspent pt := by
  induction txs generalizing utxo with
  | nil => simp at hSpent
  | cons idx txs ih =>
    obtain ⟨hHead, hRest⟩ := hSpends
    rw [List.exists_mem_cons_iff] at hSpent
    rw [List.forall_mem_cons] at hMade
    cases hSpent with
    | inl hSpent => exact hHead pt hSpent
    | inr hSpent =>
      have hLater := ih hRest hMade.2 hSpent
      rw [unspent_cacheUTXO_iff hPt] at hLater
      exact (hLater.resolve_left hMade.1).2

theorem Unspent.map_unused {utxo : UtxoSet} (hUnspent : utxo.Unspent pt) :
    (utxo[pt]?.map fun entry => { entry with isUsed := false }) = utxo[pt]? := by
  obtain ⟨entry, hEntry, hUnused⟩ := hUnspent
  rw [hEntry, Option.map_some, ← hUnused]

end Lookup

/-- Transactions that were recorded in order, each spending unspent outputs and making new ones, can be undone
in any order. -/
theorem unCacheAll_cacheAll {utxo : UtxoSet} {txs : List TxIdx} (hSpends : utxo.SpendsInOrder txs)
    (hFresh : ∀ idx ∈ txs, ∀ pt ∈ idx.tx.outPoints, utxo[pt]? = none) {undone : List NetMessageTransaction}
    (hPerm : undone.Perm (txs.map TxIdx.tx)) : (utxo.cacheAll txs).unCacheAll undone = utxo := by
  have hExists : ∀ p : NetMessageTransaction → Prop, (∃ tx ∈ undone, p tx) ↔ ∃ idx ∈ txs, p idx.tx := by
    intro p
    simp only [hPerm.mem_iff, List.mem_map, exists_exists_and_eq_and]
  refine Std.ExtTreeMap.ext_getElem? fun {pt} => ?_
  by_cases hNew : ∃ idx ∈ txs, pt ∈ idx.tx.outPoints
  case pos =>
    obtain ⟨idx, hIdx, hMade⟩ := hNew
    have hUndone : ∃ tx ∈ undone, pt ∈ tx.outPoints := (hExists _).mpr ⟨idx, hIdx, hMade⟩
    rw [hFresh idx hIdx pt hMade]
    by_cases hPt : pt = OutPoint.null
    · rw [hPt] at hUndone ⊢
      rw [lookup_null_unCacheAll, if_pos hUndone]
    · rw [lookup_unCacheAll hPt, if_pos hUndone]
  case neg =>
    -- spent at most once, and free before that
    have hKept : ¬ ∃ tx ∈ undone, pt ∈ tx.outPoints := mt (hExists _).mp hNew
    by_cases hPt : pt = OutPoint.null
    · rw [hPt] at hKept ⊢
      rw [lookup_null_unCacheAll, if_neg hKept, lookup_null_cacheAll]
    · have hMade : ∀ idx ∈ txs, pt ∉ idx.tx.outPoints := by simpa using hNew
      rw [lookup_unCacheAll hPt, if_neg hKept, lookup_cacheAll hPt _ _ hMade]
      by_cases hSpent : ∃ idx ∈ txs, pt ∈ idx.tx.spends
      · rw [if_pos ((hExists _).mpr hSpent), if_pos hSpent, Option.map_map]
        exact (hSpends.unspent hPt hMade hSpent).map_unused
      · rw [if_neg (mt (hExists _).mp hSpent), if_neg hSpent]

section OldestFirst

def oldCoinbase : NetMessageTransaction := plainCoinbase [1, 0] (50 * coin)

/-- The set before the two transactions: one unspent coinbase output. -/
def oldUTXO : UtxoSet := cacheUTXO ∅ oldCoinbase params.hashGenesisBlock 1

def firstSpend : NetMessageTransaction := plainSpend ⟨oldCoinbase.getHash, 0⟩ (50 * coin)

def secondSpend : NetMessageTransaction := plainSpend ⟨firstSpend.getHash, 0⟩ (50 * coin)

def twoSpends : List TxIdx := [⟨params.hashGenesisBlock, 2, firstSpend⟩, ⟨params.hashGenesisBlock, 3, secondSpend⟩]

theorem unspent_cacheUTXO_first {utxo : UtxoSet} {tx : NetMessageTransaction} (hashBlock : Uint256) (height : Int)
    (hMade : ⟨tx.getHash, 0⟩ ∈ tx.outPoints) : (utxo.cacheUTXO tx hashBlock height).Unspent ⟨tx.getHash, 0⟩ := by
  have hNe : (⟨tx.getHash, 0⟩ : OutPoint) ≠ OutPoint.null := by
    intro hEq
    cases congrArg OutPoint.outPutIdx hEq
  exact (unspent_cacheUTXO_iff hNe ..).mpr (.inl hMade)

theorem eq_of_mem_spends_plainSpend {pt pt' : OutPoint} {nValue : Int} (hPt : pt' ∈ (plainSpend pt nValue).spends) :
    pt' = pt := by
  rw [NetMessageTransaction.spends] at hPt
  split at hPt
  case isTrue => cases hPt
  case isFalse => exact List.mem_singleton.mp hPt

theorem twoSpends_spendsInOrder : oldUTXO.SpendsInOrder twoSpends := by
  refine ⟨?_, ?_, trivial⟩
  · intro pt hPt
    rw [eq_of_mem_spends_plainSpend hPt]
    exact unspent_cacheUTXO_first _ _ List.mem_cons_self
  · intro pt hPt
    rw [eq_of_mem_spends_plainSpend hPt]
    exact unspent_cacheUTXO_first _ _ List.mem_cons_self

theorem twoSpends_fresh : ∀ idx ∈ twoSpends, ∀ pt ∈ idx.tx.outPoints, oldUTXO[pt]? = none := by
  decide +kernel

/-- The first transaction is undone before the one that spends its output. -/
theorem unCacheAll_cacheAll_oldestFirst : oldUTXO.SpendsInOrder twoSpends ∧
    (oldUTXO.cacheAll twoSpends).unCacheAll [firstSpend, secondSpend] = oldUTXO :=
  ⟨twoSpends_spendsInOrder, unCacheAll_cacheAll twoSpends_spendsInOrder twoSpends_fresh (List.Perm.refl _)⟩

end OldestFirst

end UtxoSet

end BitcoinGpuMiner
