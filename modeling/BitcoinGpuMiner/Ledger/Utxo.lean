import Mathlib.Data.List.Basic
import Mathlib.Data.List.Induction
import BitcoinGpuMiner.Foundation.OrderedMap
import BitcoinGpuMiner.Ledger.Replay

/-! # What the UTXO set says about a chain

An entry is unspent in the replay of a chain exactly when the last transaction that made the
output is followed by no transaction that spends it.
-/

namespace BitcoinGpuMiner

open Foundation

set_option autoImplicit false

namespace UtxoSet

def Unspent (utxo : UtxoSet) (pt : OutPoint) : Prop := ∃ entry, utxo[pt]? = some entry ∧ entry.isUsed = false

theorem canUse_iff {utxo : UtxoSet} {pt : OutPoint} : (∃ entry, utxo.canUse pt = some entry) ↔ utxo.Unspent pt := by
  unfold UtxoSet.canUse UtxoSet.Unspent
  cases utxo[pt]? with
  | none => simp
  | some entry => cases hUsed : entry.isUsed <;> simp [hUsed]

section Lookup

variable {pt : OutPoint} (hPt : pt ≠ OutPoint.null)

include hPt

theorem lookup_put (utxo : UtxoSet) (key : OutPoint) (entry : UtxoEntry) :
    (utxo.put key entry)[pt]? = if key = pt then some entry else utxo[pt]? := by
  rw [put]
  split
  case isTrue hNull =>
    rw [OutPoint.isNull_iff] at hNull
    rw [if_neg]
    intro hEq
    exact hPt (hEq.symm.trans hNull)
  case isFalse => exact lookup_insert ..

theorem lookup_setUsed (isUsed : Bool) (utxo : UtxoSet) (key : OutPoint) : (setUsed isUsed utxo key)[pt]? =
    if key = pt then utxo[pt]?.map fun entry => { entry with isUsed := isUsed } else utxo[pt]? := by
  rw [setUsed]
  split
  case h_1 hNone =>
    split
    case isTrue hEq => rw [← hEq, hNone, Option.map_none]
    case isFalse => rfl
  case h_2 entry hSome =>
    rw [lookup_put hPt]
    split
    case isTrue hEq => rw [← hEq, hSome, Option.map_some]
    case isFalse => rfl

theorem lookup_foldl_setUsed (isUsed : Bool) (keys : List OutPoint) (utxo : UtxoSet) :
    (keys.foldl (setUsed isUsed) utxo)[pt]? =
      if pt ∈ keys then utxo[pt]?.map fun entry => { entry with isUsed := isUsed } else utxo[pt]? := by
  induction keys generalizing utxo with
  | nil => simp
  | cons key keys ih =>
    rw [List.foldl_cons, ih, lookup_setUsed hPt]
    rcases Decidable.em (key = pt) with rfl | hNe
    · cases utxo[key]? <;> simp
    · simp [hNe, Ne.symm hNe]

theorem lookup_foldl_put (keys : List OutPoint) (entry : UtxoEntry) (utxo : UtxoSet) :
    (keys.foldl (fun utxo key => utxo.put key entry) utxo)[pt]? = if pt ∈ keys then some entry else utxo[pt]? := by
  induction keys generalizing utxo with
  | nil => simp
  | cons key keys ih =>
    rw [List.foldl_cons, ih, lookup_put hPt]
    rcases Decidable.em (key = pt) with rfl | hNe
    · simp
    · simp [hNe, Ne.symm hNe]

theorem lookup_cacheUTXO (utxo : UtxoSet) (tx : NetMessageTransaction) (hashBlock : Uint256) (height : Int) :
    (utxo.cacheUTXO tx hashBlock height)[pt]? =
      if pt ∈ tx.outPoints then some ⟨hashBlock, height, false⟩
      else if pt ∈ tx.spends then utxo[pt]?.map fun entry => { entry with isUsed := true }
      else utxo[pt]? := by
  rw [cacheUTXO, lookup_foldl_put hPt]
  exact congrArg _ (lookup_foldl_setUsed hPt true tx.spends utxo)

theorem unspent_cacheUTXO_iff (utxo : UtxoSet) (tx : NetMessageTransaction) (hashBlock : Uint256) (height : Int) :
    (utxo.cacheUTXO tx hashBlock height).Unspent pt ↔
      pt ∈ tx.outPoints ∨ (pt ∉ tx.spends ∧ utxo.Unspent pt) := by
  rw [Unspent, lookup_cacheUTXO hPt]
  split
  case isTrue hMade => simp [hMade]
  case isFalse hMade =>
    split
    case isTrue hSpent => cases utxo[pt]? <;> simp [hMade, hSpent]
    case isFalse hSpent => simp [hMade, hSpent, Unspent]

end Lookup

section Null

theorem lookup_null_put (utxo : UtxoSet) (key : OutPoint) (entry : UtxoEntry) :
    (utxo.put key entry)[OutPoint.null]? = utxo[OutPoint.null]? := by
  rw [put]
  split
  case isTrue => rfl
  case isFalse hNull =>
    rw [OutPoint.isNull_iff] at hNull
    exact lookup_insert_ne _ _ hNull

theorem lookup_null_setUsed (isUsed : Bool) (utxo : UtxoSet) (key : OutPoint) :
    (setUsed isUsed utxo key)[OutPoint.null]? = utxo[OutPoint.null]? := by
  rw [setUsed]
  split
  · rfl
  · exact lookup_null_put ..

theorem lookup_null_foldl_setUsed (isUsed : Bool) (keys : List OutPoint) (utxo : UtxoSet) :
    (keys.foldl (setUsed isUsed) utxo)[OutPoint.null]? = utxo[OutPoint.null]? := by
  induction keys generalizing utxo with
  | nil => rfl
  | cons key keys ih => rw [List.foldl_cons, ih, lookup_null_setUsed]

theorem lookup_null_foldl_put (keys : List OutPoint) (entry : UtxoEntry) (utxo : UtxoSet) :
    (keys.foldl (fun utxo key => utxo.put key entry) utxo)[OutPoint.null]? = utxo[OutPoint.null]? := by
  induction keys generalizing utxo with
  | nil => rfl
  | cons key keys ih => rw [List.foldl_cons, ih, lookup_null_put]

/-- Nothing is ever stored under the null output. -/
theorem lookup_null_cacheUTXO (utxo : UtxoSet) (tx : NetMessageTransaction) (hashBlock : Uint256) (height : Int) :
    (utxo.cacheUTXO tx hashBlock height)[OutPoint.null]? = utxo[OutPoint.null]? :=
  (lookup_null_foldl_put ..).trans (lookup_null_foldl_setUsed true tx.spends utxo)

end Null

end UtxoSet

/-- The last transaction of the list that made the output is followed by none that spends it. -/
def UnspentIn (txs : List TxIdx) (pt : OutPoint) : Prop :=
  ∃ before idx after, txs = before ++ idx :: after ∧ pt ∈ idx.tx.outPoints ∧
    ∀ later ∈ after, pt ∉ later.tx.outPoints ∧ pt ∉ later.tx.spends

theorem unspentIn_append_singleton_iff (txs : List TxIdx) (idx : TxIdx) (pt : OutPoint) :
    UnspentIn (txs ++ [idx]) pt ↔ pt ∈ idx.tx.outPoints ∨ (pt ∉ idx.tx.spends ∧ UnspentIn txs pt) := by
  constructor
  · rintro ⟨before, made, after, hTxs, hMade, hAfter⟩
    rcases List.eq_nil_or_concat' after with rfl | ⟨after, last, rfl⟩
    · obtain ⟨-, hLast⟩ := List.append_inj' hTxs rfl
      cases hLast
      exact .inl hMade
    · rw [← List.cons_append, ← List.append_assoc] at hTxs
      obtain ⟨rfl, hLast⟩ := List.append_inj' hTxs rfl
      cases hLast
      refine .inr ⟨(hAfter idx (by simp)).2, before, made, after, rfl, hMade, ?_⟩
      intro later hLater
      exact hAfter later (List.mem_append_left _ hLater)
  · intro h
    rcases Decidable.em (pt ∈ idx.tx.outPoints) with hMade | hNot
    · exact ⟨txs, idx, [], rfl, hMade, by simp⟩
    rcases h with hMade | ⟨hSpent, before, made, after, rfl, hMade, hAfter⟩
    · exact absurd hMade hNot
    refine ⟨before, made, after ++ [idx], by simp, hMade, ?_⟩
    intro later hLater
    rcases List.mem_append.mp hLater with hLater | hLater
    · exact hAfter later hLater
    · rw [List.mem_singleton.mp hLater]
      exact ⟨hNot, hSpent⟩

theorem UnspentIn.append {txs : List TxIdx} {pt : OutPoint} (hUnspent : UnspentIn txs pt) {more : List TxIdx}
    (hMore : ∀ idx ∈ more, pt ∉ idx.tx.outPoints ∧ pt ∉ idx.tx.spends) : UnspentIn (txs ++ more) pt := by
  obtain ⟨before, idx, after, rfl, hMade, hAfter⟩ := hUnspent
  refine ⟨before, idx, after ++ more, by simp, hMade, ?_⟩
  intro later hLater
  rcases List.mem_append.mp hLater with hLater | hLater
  · exact hAfter later hLater
  · exact hMore later hLater

theorem NetMessageTransaction.hash_of_mem_outPoints {tx : NetMessageTransaction} {pt : OutPoint}
    (hPt : pt ∈ tx.outPoints) : pt.hashTransaction = tx.getHash := by
  obtain ⟨i, -, rfl⟩ := List.mem_map.mp hPt
  rfl

namespace Ledger

theorem lastTx_append {txs more : List TxIdx} {hash : Uint256} (hMore : ∀ idx ∈ more, idx.tx.getHash ≠ hash) :
    lastTx (txs ++ more) hash = lastTx txs hash := by
  have hNone : more.reverse.find? (fun idx => decide (idx.tx.getHash = hash)) = none := by
    rw [List.find?_eq_none]
    intro idx hIdx
    simpa using hMore idx (List.mem_reverse.mp hIdx)
  rw [lastTx, List.reverse_append, List.find?_append, hNone, Option.none_or, lastTx]

theorem lastTx_append_singleton_self (txs : List TxIdx) (idx : TxIdx) :
    lastTx (txs ++ [idx]) idx.tx.getHash = some idx := by
  simp [lastTx]

theorem lookup_null_replay (txs : List TxIdx) : (replay txs).utxo[OutPoint.null]? = none := by
  induction txs using List.reverseRecOn with
  | nil => simp [replay, empty]
  | append_singleton txs idx ih =>
    rw [replay_append, ← ih]
    exact UtxoSet.lookup_null_cacheUTXO ..

theorem unspent_replay_iff (txs : List TxIdx) {pt : OutPoint} (hPt : pt ≠ OutPoint.null) :
    (replay txs).utxo.Unspent pt ↔ UnspentIn txs pt := by
  induction txs using List.reverseRecOn with
  | nil => simp [replay, empty, UtxoSet.Unspent, UnspentIn]
  | append_singleton txs idx ih =>
    rw [unspentIn_append_singleton_iff, ← ih, replay_append]
    exact UtxoSet.unspent_cacheUTXO_iff hPt ..

/-- Transactions that do not make an output can only mark it as used. -/
theorem lookup_foldl_record (txs : List TxIdx) (ledger : Ledger) {pt : OutPoint} (hPt : pt ≠ OutPoint.null)
    (hMade : ∀ idx ∈ txs, pt ∉ idx.tx.outPoints) : (txs.foldl record ledger).utxo[pt]? =
      if pt ∈ txs.flatMap (fun idx => idx.tx.spends) then
        ledger.utxo[pt]?.map fun entry => { entry with isUsed := true }
      else ledger.utxo[pt]? := by
  induction txs generalizing ledger with
  | nil => rfl
  | cons idx txs ih =>
    have hHead : (ledger.record idx).utxo[pt]? = if pt ∈ idx.tx.spends then
        ledger.utxo[pt]?.map fun entry => { entry with isUsed := true } else ledger.utxo[pt]? := by
      refine (UtxoSet.lookup_cacheUTXO hPt ..).trans ?_
      rw [if_neg (hMade idx List.mem_cons_self)]
    rw [List.foldl_cons, ih _ fun other hOther => hMade other (List.mem_cons_of_mem _ hOther), hHead,
      List.flatMap_cons]
    rcases Decidable.em (pt ∈ idx.tx.spends) with hSpent | hNot
    · cases ledger.utxo[pt]? <;> simp [hSpent]
    · simp [hNot]

end Ledger

end BitcoinGpuMiner
