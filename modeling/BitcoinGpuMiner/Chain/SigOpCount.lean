import BitcoinGpuMiner.Chain.Contents
import BitcoinGpuMiner.Encoding.SigOps

/-! # Signature operations counted without a bound

A script has at most twenty operations for each of its bytes, so in a block that is not too large no counter of
thirty-two bits wraps: all of them are the numbers one would count without a bound.
-/

namespace BitcoinGpuMiner

set_option autoImplicit false

/-- A counter equals the sum of what is added to it as long as that sum fits. -/
theorem toNat_counter {α : Type} {count : α → UInt32} {exact : α → Nat} (items : List α) {start : UInt32}
    (hCount : ∀ item ∈ items, exact item < 2 ^ 32 → (count item).toNat = exact item)
    (hFits : start.toNat + (items.map exact).sum < 2 ^ 32) :
    (items.foldl (fun n item => n + count item) start).toNat = start.toNat + (items.map exact).sum := by
  induction items generalizing start with
  | nil => rfl
  | cons item rest ih =>
    rw [List.map_cons, List.sum_cons] at hFits ⊢
    obtain ⟨hItem, hRest⟩ := List.forall_mem_cons.mp hCount
    have hNext : (start + count item).toNat = start.toNat + exact item := by
      rw [UInt32.toNat_add, hItem (by omega)]
      omega
    rw [List.foldl_cons, ih hRest (by omega), hNext]
    omega

theorem sum_map_le_mul {α : Type} {count size : α → Nat} {factor : Nat} (items : List α)
    (hEach : ∀ item, count item ≤ factor * size item) : (items.map count).sum ≤ factor * (items.map size).sum := by
  induction items with
  | nil => exact Nat.zero_le _
  | cons item rest ih =>
    rw [List.map_cons, List.sum_cons, List.map_cons, List.sum_cons, Nat.mul_add]
    exact Nat.add_le_add (hEach item) ih

namespace NetMessageTransaction

def sigOps (tx : NetMessageTransaction) : Nat :=
  (tx.vin.map fun txIn => txIn.scriptSig.sigOps).sum + (tx.vout.map fun txOut => txOut.scriptPubKey.sigOps).sum

theorem toNat_getLegacySigOpCount {tx : NetMessageTransaction} (hFits : tx.sigOps < 2 ^ 32) :
    tx.getLegacySigOpCount.toNat = tx.sigOps := by
  rw [sigOps] at hFits ⊢
  have hVin : (tx.vin.foldl (fun n (txIn : TxIn) => n + txIn.scriptSig.getSigOpCount) 0).toNat =
      (tx.vin.map fun txIn => txIn.scriptSig.sigOps).sum := by
    rw [toNat_counter tx.vin fun txIn _ => CScript.toNat_getSigOpCount]
    · rw [UInt32.toNat_zero, Nat.zero_add]
    · rw [UInt32.toNat_zero]
      omega
  rw [getLegacySigOpCount, toNat_counter tx.vout (fun txOut _ => CScript.toNat_getSigOpCount), hVin]
  rw [hVin]
  exact hFits

theorem sigOps_le (tx : NetMessageTransaction) : tx.sigOps ≤ 20 * tx.getSerializeSize := by
  have hVin := sum_map_le_mul tx.vin fun txIn => txIn.scriptSig.sigOps_le.trans
    (Nat.mul_le_mul_left 20 txIn.length_scriptSig_le)
  have hVout := sum_map_le_mul tx.vout fun txOut =>
    txOut.scriptPubKey.sigOps_le.trans
      (Nat.mul_le_mul_left 20 txOut.length_scriptPubKey_le)
  rw [sigOps, getSerializeSize, serialize]
  simp only [List.length_append, length_writeVector]
  omega

end NetMessageTransaction

theorem sum_sigOps_le (txs : List NetMessageTransaction) :
    (txs.map fun tx => tx.sigOps).sum ≤ 20 * (txs.map fun tx => tx.getSerializeSize).sum :=
  sum_map_le_mul txs fun tx => tx.sigOps_le

/-- The running count stays within the limit when the whole does. -/
theorem sigOpsWithin_iff {nSigOps : UInt32} {txs : List NetMessageTransaction}
    (hStart : nSigOps.toNat * witnessScaleFactor ≤ maxBlockSigopsCost)
    (hFits : nSigOps.toNat + (txs.map fun tx => tx.sigOps).sum < 2 ^ 30) : sigOpsWithin nSigOps txs ↔
      (nSigOps.toNat + (txs.map fun tx => tx.sigOps).sum) * witnessScaleFactor ≤ maxBlockSigopsCost := by
  induction txs generalizing nSigOps with
  | nil => exact iff_of_true trivial hStart
  | cons tx rest ih =>
    rw [List.map_cons, List.sum_cons] at hFits ⊢
    have hNext : (nSigOps + tx.getLegacySigOpCount).toNat = nSigOps.toNat + tx.sigOps := by
      rw [UInt32.toNat_add, NetMessageTransaction.toNat_getLegacySigOpCount (by omega)]
      omega
    have hCost : ((nSigOps + tx.getLegacySigOpCount) * UInt32.ofNat witnessScaleFactor).toNat =
        (nSigOps.toNat + tx.sigOps) * witnessScaleFactor := by
      have hScale : (UInt32.ofNat witnessScaleFactor).toNat = witnessScaleFactor := rfl
      rw [UInt32.toNat_mul, hNext, hScale, witnessScaleFactor]
      omega
    rw [sigOpsWithin, hCost, ← Nat.add_assoc]
    constructor
    · rintro ⟨hFirst, hRest⟩
      rw [ih (by rw [hNext]; exact hFirst) (by omega), hNext] at hRest
      exact hRest
    · intro hAll
      have hFirst : (nSigOps.toNat + tx.sigOps) * witnessScaleFactor ≤ maxBlockSigopsCost :=
        Nat.le_trans (Nat.mul_le_mul_right _ (Nat.le_add_right _ _)) hAll
      rw [ih (by rw [hNext]; exact hFirst) (by omega), hNext]
      exact ⟨hFirst, hAll⟩

/-- The transaction loop of `CheckBlock` after some rounds. -/
def scanAfter : Bool → List NetMessageTransaction → VtxScan → Option VtxScan
  | _, [], scan => some scan
  | first, tx :: rest, scan => (scanTransaction first tx scan).bind (scanAfter false rest)

theorem scanTransactions_append (first : Bool) (before after : List NetMessageTransaction) (scan : VtxScan) :
    scanTransactions first (before ++ after) scan =
      (scanAfter first before scan).elim false (scanTransactions (first && before.isEmpty) after) := by
  induction before generalizing first scan with
  | nil => simp [scanAfter]
  | cons tx rest ih =>
    rw [List.cons_append, scanTransactions, scanAfter]
    cases scanTransaction first tx scan with
    | none => rfl
    | some next =>
      have hRest := ih false next
      rw [Bool.false_and] at hRest
      simpa using hRest

theorem nSigOps_scanTransaction {first : Bool} {tx : NetMessageTransaction} {scan scan' : VtxScan}
    (hScan : scanTransaction first tx scan = some scan') : scan'.nSigOps = scan.nSigOps + tx.getLegacySigOpCount := by
  obtain ⟨-, -, -, -, -, rfl⟩ := (scanTransaction_eq_some_iff ..).mp hScan
  rfl

theorem nSigOps_scanAfter {first : Bool} {before : List NetMessageTransaction} {scan scan' : VtxScan}
    (hScan : scanAfter first before scan = some scan') :
    scan'.nSigOps = before.foldl (fun nSigOps tx => nSigOps + tx.getLegacySigOpCount) scan.nSigOps := by
  induction before generalizing first scan with
  | nil =>
    cases hScan
    rfl
  | cons tx rest ih =>
    obtain ⟨next, hFirst, hRest⟩ := Option.bind_eq_some_iff.mp hScan
    rw [ih hRest, nSigOps_scanTransaction hFirst, List.foldl_cons]

/-- The block passes the size limits, the first thing that `CheckBlock` looks at. -/
def Block.SizeOk (block : Block) : Prop :=
  (block.vtx.isEmpty || decide (block.vtx.length * witnessScaleFactor > maxBlockWeight) ||
    decide (block.getSerializeSize * witnessScaleFactor > maxBlockWeight)) = false

theorem Block.SizeOk.sigOps_le {block : Block} (hSize : block.SizeOk) :
    (block.vtx.map fun tx => tx.sigOps).sum ≤ 20000000 := by
  have hEach := sum_sigOps_le block.vtx
  have hAll : (block.vtx.map fun tx => tx.getSerializeSize).sum ≤ block.getSerializeSize := by
    rw [Block.getSerializeSize, Block.serialize, List.length_append, length_writeVector]
    exact Nat.le_trans (Nat.le_add_left _ _) (Nat.le_add_left _ _)
  have hLimit : ¬ block.getSerializeSize * witnessScaleFactor > maxBlockWeight :=
    of_decide_eq_false (Bool.or_eq_false_iff.mp hSize).2
  rw [witnessScaleFactor, maxBlockWeight] at hLimit
  omega

/-- In a block that passes the size limits, what a round adds to the counter is the number of operations of its
transaction, and neither the new counter nor its product with the scale wraps. -/
theorem Block.SizeOk.sigOps_exact {block : Block} (hSize : block.SizeOk) {before after : List NetMessageTransaction}
    {tx : NetMessageTransaction} (hVtx : block.vtx = before ++ tx :: after) {scan : VtxScan}
    (hScan : scanAfter true before ⟨[], [], 0⟩ = some scan) :
    tx.getLegacySigOpCount.toNat = tx.sigOps ∧
      (scan.nSigOps + tx.getLegacySigOpCount).toNat = scan.nSigOps.toNat + tx.sigOps ∧
      ((scan.nSigOps + tx.getLegacySigOpCount) * UInt32.ofNat witnessScaleFactor).toNat =
        (scan.nSigOps.toNat + tx.sigOps) * witnessScaleFactor := by
  have hBound := hSize.sigOps_le
  rw [hVtx, List.map_append, List.sum_append, List.map_cons, List.sum_cons] at hBound
  have hTx : tx.getLegacySigOpCount.toNat = tx.sigOps := NetMessageTransaction.toNat_getLegacySigOpCount (by omega)
  have hCounter : scan.nSigOps.toNat = (before.map fun tx => tx.sigOps).sum := by
    rw [nSigOps_scanAfter hScan, toNat_counter before fun tx _ => NetMessageTransaction.toNat_getLegacySigOpCount]
    · rw [UInt32.toNat_zero, Nat.zero_add]
    · rw [UInt32.toNat_zero]
      omega
  have hSum : (scan.nSigOps + tx.getLegacySigOpCount).toNat = scan.nSigOps.toNat + tx.sigOps := by
    rw [UInt32.toNat_add, hTx]
    omega
  have hScale : (UInt32.ofNat witnessScaleFactor).toNat = witnessScaleFactor := rfl
  refine ⟨hTx, hSum, ?_⟩
  rw [UInt32.toNat_mul, hSum, hScale, witnessScaleFactor]
  omega

end BitcoinGpuMiner
