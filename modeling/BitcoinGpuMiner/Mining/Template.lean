import BitcoinGpuMiner.Chain.Contents
import BitcoinGpuMiner.Chain.Transactions
import BitcoinGpuMiner.Encoding.SigOps
import BitcoinGpuMiner.Mining.Operations

/-! # Block templates

The coinbase of a template that pays to a witness program is small and has no signature operations, and
the selected transactions leave room for it.
-/

namespace BitcoinGpuMiner

open Foundation

set_option autoImplicit false

theorem NetMessageTransaction.getSerializeSize_le (tx : NetMessageTransaction) : tx.getSerializeSize ≤
    10 + (writeVector TxIn.serialize tx.vin).length + (writeVector TxOut.serialize tx.vout).length +
      (tx.vin.flatMap fun txIn => writeVector writeBytes txIn.scriptWitness).length := by
  rw [getSerializeSize, serialize]
  split
  · simp only [List.length_append, length_writeInt, length_writeLE, List.length_cons, List.length_nil]
    omega
  · simp only [List.length_append, length_writeInt, length_writeLE, List.length_nil]
    omega

section Coinbase

variable (height nValue : Int) (witnessRoot : Uint256) {script : CScript}

theorem isCoinBase_coinbaseTransaction (script : CScript) :
    (coinbaseTransaction height script nValue witnessRoot).isCoinBase = true := rfl

theorem prevOuts_coinbaseTransaction (script : CScript) :
    (coinbaseTransaction height script nValue witnessRoot).prevOuts = [OutPoint.null] := rfl

theorem length_commitmentScript : (commitmentScript witnessRoot).length = 38 := by
  rw [commitmentScript, List.length_append, Uint256.length_bytes]
  rfl

theorem getSigOpCount_commitmentScript : CScript.getSigOpCount (commitmentScript witnessRoot) = 0 := by
  have hLength : ([0xaa, 0x21, 0xa9, 0xed] ++
      (Sha256.doubleHash256 (witnessRoot.bytes ++ List.replicate 32 0)).bytes : Bytes).length = 36 := by
    rw [List.length_append, Uint256.length_bytes]
    rfl
  have hOpcode : (0x6a : UInt8) = 0x00 ∨ ((0x4e : UInt8) < 0x6a ∧ (0x6a : UInt8) < 0xac) := .inr ⟨by decide, by decide⟩
  have hPush := CScript.getSigOpCount_push hOpcode (by rw [hLength]; decide)
  rw [hLength] at hPush
  exact hPush

theorem getLegacySigOpCount_coinbaseTransaction (hScript : WitnessScript script) :
    (coinbaseTransaction height script nValue witnessRoot).getLegacySigOpCount = 0 := by
  simp only [NetMessageTransaction.getLegacySigOpCount, coinbaseTransaction, List.foldl_cons, List.foldl_nil,
    (CScript.numberScript height).2.2, CScript.getSigOpCount_witness hScript, getSigOpCount_commitmentScript]
  rfl

theorem length_vin_coinbaseTransaction_le (script : CScript) :
    (writeVector TxIn.serialize (coinbaseTransaction height script nValue witnessRoot).vin).length ≤ 69 := by
  have hSig := (CScript.numberScript height).2.1
  have hOne := length_writeCompactSize_le 1
  have hSigSize := length_writeCompactSize_le (CScript.pushInt64 [] height ++ [0x00]).length
  simp only [coinbaseTransaction, length_writeVector, TxIn.serialize, OutPoint.serialize, List.length_append,
    length_writeLE, length_writeBytes, Uint256.length_bytes, List.length_singleton, List.map_singleton,
    List.sum_singleton] at hSig hSigSize ⊢
  omega

theorem length_vout_coinbaseTransaction_le (hScript : WitnessScript script) :
    (writeVector TxOut.serialize (coinbaseTransaction height script nValue witnessRoot).vout).length ≤ 123 := by
  have hPay := hScript.length_le
  have hTwo := length_writeCompactSize_le 2
  have hPaySize := length_writeCompactSize_le script.length
  have hCommitSize := length_writeCompactSize_le 38
  simp only [coinbaseTransaction, length_writeVector, TxOut.serialize, List.length_append, length_writeInt,
    length_writeBytes, length_commitmentScript, List.length_cons, List.length_nil, List.map_cons, List.map_nil,
    List.sum_cons, List.sum_nil, Nat.zero_add, Nat.reduceAdd]
  -- as atoms the lengths would be compared by evaluation
  generalize (writeCompactSize 2).length = count at hTwo ⊢
  generalize (writeCompactSize 38).length = commitSize at hCommitSize ⊢
  generalize (writeCompactSize script.length).length = paySize at hPaySize ⊢
  omega

theorem getSerializeSize_coinbaseTransaction_le (hScript : WitnessScript script) :
    (coinbaseTransaction height script nValue witnessRoot).getSerializeSize ≤ 400 := by
  have hWitness : (writeVector writeBytes
      (if height ≥ params.segwitHeight then [List.replicate 32 0x00] else [])).length ≤ 50 := by
    have hOne := length_writeCompactSize_le 1
    have hReserved := length_writeCompactSize_le 32
    split
    · simp only [length_writeVector, List.length_singleton, List.map_singleton, List.sum_singleton, length_writeBytes,
        List.length_replicate]
      omega
    · decide
  have hVin := length_vin_coinbaseTransaction_le height nValue witnessRoot script
  have hVout := length_vout_coinbaseTransaction_le height nValue witnessRoot hScript
  have hSize := NetMessageTransaction.getSerializeSize_le (coinbaseTransaction height script nValue witnessRoot)
  have hWitnesses : (coinbaseTransaction height script nValue witnessRoot).vin.flatMap
      (fun txIn => writeVector writeBytes txIn.scriptWitness) =
      writeVector writeBytes (if height ≥ params.segwitHeight then [List.replicate 32 0x00] else []) := by
    rw [coinbaseTransaction, List.flatMap_singleton]
  rw [hWitnesses] at hSize
  omega

/-- All that can be wrong with the coinbase is its amount. -/
theorem txFormat_coinbaseTransaction_iff (hScript : WitnessScript script) :
    TxFormat (coinbaseTransaction height script nValue witnessRoot) ↔ moneyRange nValue = true := by
  have hSum : (coinbaseTransaction height script nValue witnessRoot).sumOut = nValue := by
    simp [NetMessageTransaction.sumOut, coinbaseTransaction]
  rw [moneyRange_iff]
  constructor
  · intro hFormat
    have hMax := hFormat.sumOut
    rw [hSum] at hMax
    exact ⟨hFormat.outNonneg _ List.mem_cons_self, hMax⟩
  · rintro ⟨hNonneg, hMax⟩
    have hSize := getSerializeSize_coinbaseTransaction_le height nValue witnessRoot hScript
    refine ⟨List.cons_ne_nil _ _, List.cons_ne_nil _ _, ?_, ?_, ?_, ?_⟩
    · rw [witnessScaleFactor, maxBlockWeight]
      omega
    · intro out hOut
      rcases List.mem_cons.mp hOut with rfl | hOut
      · exact hNonneg
      · rw [List.mem_singleton.mp hOut]
    · rwa [hSum]
    · intro _ txIn hTxIn
      obtain ⟨hShort, hLong, -⟩ := CScript.numberScript height
      rw [List.mem_singleton.mp hTxIn]
      exact ⟨hShort, Nat.le_trans hLong (by decide)⟩

end Coinbase

section Selection

/-- Four times the sizes, as the selection counts them. -/
def weightOf (txs : List NetMessageTransaction) : Nat :=
  (txs.map fun tx => tx.getSerializeSize * witnessScaleFactor).sum

theorem weightOf_eq (txs : List NetMessageTransaction) :
    weightOf txs = (txs.map NetMessageTransaction.getSerializeSize).sum * witnessScaleFactor := by
  induction txs with
  | nil => rfl
  | cons tx txs ih =>
    rw [weightOf] at ih
    rw [weightOf, List.map_cons, List.sum_cons, ih, List.map_cons, List.sum_cons, Nat.add_mul]

theorem getSerializeSize_pos (tx : NetMessageTransaction) : 0 < tx.getSerializeSize := by
  rw [NetMessageTransaction.getSerializeSize, NetMessageTransaction.serialize]
  simp only [List.length_append, length_writeLE]
  omega

theorem length_le_weightOf (txs : List NetMessageTransaction) : txs.length * witnessScaleFactor ≤ weightOf txs := by
  induction txs with
  | nil => exact Nat.le_refl 0
  | cons tx txs ih =>
    have hPos := getSerializeSize_pos tx
    rw [weightOf] at ih
    rw [weightOf, List.map_cons, List.sum_cons, List.length_cons, Nat.add_mul, Nat.add_comm]
    exact Nat.add_le_add (Nat.mul_le_mul_right _ hPos) ih

/-- The loop takes some of the entries in order and keeps their weight within its bound. -/
theorem exists_selected (ledger : Ledger) (entries : List (Uint256 × NetMessageTransaction)) (selection : Selection) :
    ∃ txs, (selectTxs ledger entries selection).vtx = selection.vtx ++ txs ∧ txs.Sublist (entries.map Prod.snd) ∧
      ((∀ tx ∈ txs, tx.getSerializeSize * witnessScaleFactor ≤ maxBlockWeight) →
        selection.nBlockWeight ≤ nBlockMaxWeight → selection.nBlockWeight + weightOf txs ≤ nBlockMaxWeight) := by
  induction entries generalizing selection with
  | nil => exact ⟨[], by simp [selectTxs], List.Sublist.refl _, fun _ hWeight => hWeight⟩
  | cons entry rest ih =>
    obtain ⟨hash, tx⟩ := entry
    rw [selectTxs]
    dsimp only
    split
    · obtain ⟨txs, hVtx, hSublist, hWeight⟩ := ih selection
      exact ⟨txs, hVtx, hSublist.cons tx, hWeight⟩
    split
    · exact ⟨[], by simp, List.nil_sublist _, fun _ hWeight => hWeight⟩
    case isFalse hLight =>
      obtain ⟨txs, hVtx, hSublist, hWeight⟩ := ih _
      refine ⟨tx :: txs, by rw [hVtx, List.append_assoc]; rfl, hSublist.cons_cons tx, ?_⟩
      intro hSizes hStart
      have hTx := hSizes tx List.mem_cons_self
      have hBound : maxBlockWeight = 4000000 := rfl
      have hMax : nBlockMaxWeight = 3996000 := rfl
      have hRest := hWeight (fun other hOther => hSizes other (List.mem_cons_of_mem _ hOther)) (Nat.not_lt.mp hLight)
      dsimp only at hRest
      rw [Nat.mod_eq_of_lt (by omega)] at hRest
      rw [weightOf, List.map_cons, List.sum_cons, ← Nat.add_assoc]
      exact hRest

end Selection

namespace Node

/-- A witness program of version zero with twenty bytes. -/
def minerAddress : CScript := 0x00 :: 0x14 :: List.replicate 20 0x11

theorem minerAddress_witness : WitnessScript minerAddress :=
  ⟨0x00, List.replicate 20 0x11, rfl, .inl rfl, by decide, by decide⟩

end Node

end BitcoinGpuMiner
