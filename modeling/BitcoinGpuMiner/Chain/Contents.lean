import BitcoinGpuMiner.Model.CheckBlock

/-! # What the transaction loop of `CheckBlock` accepts -/

namespace BitcoinGpuMiner

set_option autoImplicit false

/-- The outputs the inputs name, a coinbase's null output included. -/
def NetMessageTransaction.prevOuts (tx : NetMessageTransaction) : List OutPoint :=
  tx.vin.map TxIn.previousOutput

theorem insertOutPoints_eq_some_iff (vin : List TxIn) (utxos utxos' : List OutPoint) :
    insertOutPoints vin utxos = some utxos' ↔
      (vin.map TxIn.previousOutput).Nodup ∧ (∀ pt ∈ vin.map TxIn.previousOutput, pt ∉ utxos) ∧
        utxos' = (vin.map TxIn.previousOutput).reverse ++ utxos := by
  induction vin generalizing utxos with
  | nil => simp [insertOutPoints, eq_comm]
  | cons txIn rest ih =>
    rw [insertOutPoints, List.map_cons, List.nodup_cons, List.forall_mem_cons, List.reverse_cons,
      List.append_assoc]
    split
    case isTrue hMem =>
      constructor
      · intro h
        cases h
      · rintro ⟨-, ⟨hNot, -⟩, -⟩
        exact absurd hMem hNot
    case isFalse hNot =>
      rw [ih]
      constructor
      · rintro ⟨hNodup, hFresh, hEq⟩
        refine ⟨⟨fun hMem => hFresh _ hMem List.mem_cons_self, hNodup⟩, ⟨hNot, ?_⟩, hEq⟩
        exact fun pt hPt hMem => hFresh pt hPt (List.mem_cons_of_mem _ hMem)
      · rintro ⟨⟨hHead, hNodup⟩, ⟨-, hFresh⟩, hEq⟩
        refine ⟨hNodup, fun pt hPt hMem => ?_, hEq⟩
        rcases List.mem_cons.mp hMem with rfl | hMem
        · exact hHead hPt
        · exact hFresh pt hPt hMem

def sigOpsWithin : UInt32 → List NetMessageTransaction → Prop
  | _, [] => True
  | nSigOps, tx :: rest =>
    ((nSigOps + tx.getLegacySigOpCount) * UInt32.ofNat witnessScaleFactor).toNat ≤ maxBlockSigopsCost ∧
      sigOpsWithin (nSigOps + tx.getLegacySigOpCount) rest

/-- The first transaction is a coinbase if `first` holds, and no other one is. -/
def CoinbaseFirst (first : Bool) : List NetMessageTransaction → Prop
  | [] => True
  | tx :: rest => tx.isCoinBase = first ∧ ∀ other ∈ rest, other.isCoinBase = false

theorem coinbaseFirst_false_iff (vtx : List NetMessageTransaction) :
    CoinbaseFirst false vtx ↔ ∀ tx ∈ vtx, tx.isCoinBase = false := by
  cases vtx with
  | nil => simp [CoinbaseFirst]
  | cons tx rest => rw [CoinbaseFirst, List.forall_mem_cons]

structure VtxOk (first : Bool) (vtx : List NetMessageTransaction) (scan : VtxScan) : Prop where
  coinbase : CoinbaseFirst first vtx
  txidsNodup : (vtx.map NetMessageTransaction.getHash).Nodup
  txidsFresh : ∀ tx ∈ vtx, tx.getHash ∉ scan.txids
  prevOutsNodup : (vtx.flatMap NetMessageTransaction.prevOuts).Nodup
  prevOutsFresh : ∀ pt ∈ vtx.flatMap NetMessageTransaction.prevOuts, pt ∉ scan.utxos
  sigOps : sigOpsWithin scan.nSigOps vtx

theorem scanTransaction_eq_some_iff (first : Bool) (tx : NetMessageTransaction) (scan scan' : VtxScan) :
    scanTransaction first tx scan = some scan' ↔
      tx.getHash ∉ scan.txids ∧ tx.isCoinBase = first ∧ tx.prevOuts.Nodup ∧
      (∀ pt ∈ tx.prevOuts, pt ∉ scan.utxos) ∧
      ((scan.nSigOps + tx.getLegacySigOpCount) * UInt32.ofNat witnessScaleFactor).toNat ≤ maxBlockSigopsCost ∧
      scan' = ⟨tx.getHash :: scan.txids, tx.prevOuts.reverse ++ scan.utxos, scan.nSigOps + tx.getLegacySigOpCount⟩ := by
  unfold scanTransaction
  by_cases hSeen : tx.getHash ∈ scan.txids
  · simp [hSeen]
  by_cases hFirst : tx.isCoinBase = first
  · have hNot : (first && !tx.isCoinBase) = false ∧ (!first && tx.isCoinBase) = false := by
      subst hFirst
      cases tx.isCoinBase <;> simp
    rw [if_neg hSeen, hNot.1, hNot.2, if_neg Bool.false_ne_true, if_neg Bool.false_ne_true]
    constructor
    · intro h
      split at h
      · cases h
      case h_2 utxos hInsert =>
      obtain ⟨hNodup, hFresh, rfl⟩ := (insertOutPoints_eq_some_iff ..).mp hInsert
      dsimp only at h
      split at h
      · cases h
      case isFalse hOps =>
      cases h
      exact ⟨hSeen, hFirst, hNodup, hFresh, Nat.le_of_not_lt hOps, rfl⟩
    · rintro ⟨-, -, hNodup, hFresh, hOps, rfl⟩
      have hInsert := (insertOutPoints_eq_some_iff tx.vin scan.utxos _).mpr ⟨hNodup, hFresh, rfl⟩
      simp only [hInsert, gt_iff_lt, Nat.not_lt.mpr hOps, if_false]
      rfl
  · have hNot : (first && !tx.isCoinBase) = true ∨ (!first && tx.isCoinBase) = true := by
      cases first <;> cases hIs : tx.isCoinBase <;> simp_all
    rcases hNot with hNot | hNot <;> simp [hSeen, hNot, hFirst]

theorem scanTransactions_iff (first : Bool) (vtx : List NetMessageTransaction) (scan : VtxScan) :
    scanTransactions first vtx scan = true ↔ VtxOk first vtx scan := by
  induction vtx generalizing first scan with
  | nil =>
    refine ⟨fun _ => ⟨trivial, by simp, by simp, by simp, by simp, trivial⟩, fun _ => rfl⟩
  | cons tx rest ih =>
    rw [scanTransactions]
    constructor
    · intro h
      split at h
      · cases h
      case h_2 next hNext =>
      obtain ⟨hSeen, hFirst, hNodup, hFresh, hOps, rfl⟩ := (scanTransaction_eq_some_iff ..).mp hNext
      have hRest := (ih _ _).mp h
      constructor
      · exact ⟨hFirst, (coinbaseFirst_false_iff _).mp hRest.coinbase⟩
      · rw [List.map_cons, List.nodup_cons]
        refine ⟨fun hMem => ?_, hRest.txidsNodup⟩
        obtain ⟨other, hOther, hEq⟩ := List.mem_map.mp hMem
        exact hRest.txidsFresh other hOther (hEq ▸ List.mem_cons_self)
      · rintro other (_ | ⟨_, hOther⟩)
        · exact hSeen
        · exact fun hMem => hRest.txidsFresh other hOther (List.mem_cons_of_mem _ hMem)
      · rw [List.flatMap_cons, List.nodup_append]
        refine ⟨hNodup, hRest.prevOutsNodup, fun pt hPt pt' hPt' hEq => ?_⟩
        refine hRest.prevOutsFresh pt' hPt' ?_
        rw [← hEq]
        simp [hPt]
      · intro pt hPt
        rw [List.flatMap_cons, List.mem_append] at hPt
        rcases hPt with hPt | hPt
        · exact hFresh pt hPt
        · exact fun hMem => hRest.prevOutsFresh pt hPt (List.mem_append_right _ hMem)
      · exact ⟨hOps, hRest.sigOps⟩
    · rintro ⟨⟨hFirst, hOthers⟩, hTxids, hTxidsFresh, hOuts, hOutsFresh, hOps, hRestOps⟩
      rw [List.map_cons, List.nodup_cons] at hTxids
      rw [List.flatMap_cons, List.nodup_append] at hOuts
      have hNext := (scanTransaction_eq_some_iff first tx scan _).mpr
        ⟨hTxidsFresh tx List.mem_cons_self, hFirst, hOuts.1,
          fun pt hPt => hOutsFresh pt (by simp [hPt]), hOps, rfl⟩
      rw [hNext]
      refine (ih _ _).mpr ⟨(coinbaseFirst_false_iff _).mpr hOthers, hTxids.2, fun other hOther hMem => ?_,
        hOuts.2.1, fun pt hPt hMem => ?_, hRestOps⟩
      · rcases List.mem_cons.mp hMem with hEq | hMem
        · exact hTxids.1 (hEq ▸ List.mem_map_of_mem hOther)
        · exact hTxidsFresh other (List.mem_cons_of_mem _ hOther) hMem
      · rcases List.mem_append.mp hMem with hMem | hMem
        · exact hOuts.2.2 pt (List.mem_reverse.mp hMem) pt hPt rfl
        · exact hOutsFresh pt (by rw [List.flatMap_cons]; exact List.mem_append_right _ hPt) hMem

theorem merkleLoop_mutated (fuel : Nat) (txHashes : List Uint256) : (merkleLoop fuel txHashes false).mutated = false := by
  induction fuel generalizing txHashes with
  | zero => rfl
  | succ fuel ih =>
    rw [merkleLoop]
    split
    · exact ih _
    · rfl

theorem spends_sublist (tx : NetMessageTransaction) : tx.spends.Sublist tx.prevOuts := by
  rw [NetMessageTransaction.spends]
  split
  · exact List.nil_sublist _
  · exact List.Sublist.refl _

theorem flatMap_spends_sublist (vtx : List NetMessageTransaction) :
    (vtx.flatMap NetMessageTransaction.spends).Sublist (vtx.flatMap NetMessageTransaction.prevOuts) := by
  induction vtx with
  | nil => exact List.Sublist.refl _
  | cons tx vtx ih => exact (spends_sublist tx).append ih

/-- The contents `CheckBlock` accepts. -/
structure ContentsOk (block : Block) : Prop where
  nonempty : block.vtx ≠ []
  count : block.vtx.length * witnessScaleFactor ≤ maxBlockWeight
  size : block.getSerializeSize * witnessScaleFactor ≤ maxBlockWeight
  vtx : VtxOk true block.vtx ⟨[], [], 0⟩
  merkle : block.hashMerkleRoot = block.makeMerkleRoot.hash

theorem checkBlockContents_iff (block : Block) : checkBlockContents block = true ↔ ContentsOk block := by
  have hMutated : block.makeMerkleRoot.mutated = false := merkleLoop_mutated _ _
  unfold checkBlockContents
  rw [hMutated, Bool.false_or]
  constructor
  · intro h
    split at h
    · cases h
    case isFalse hSizes =>
    split at h
    · cases h
    case isFalse hScan =>
    split at h
    · cases h
    case isFalse hRoot =>
    simp only [Bool.or_eq_true, List.isEmpty_iff, decide_eq_true_eq, not_or, Nat.not_lt] at hSizes
    rw [Bool.not_eq_true, Bool.not_eq_false'] at hScan
    exact ⟨hSizes.1.1, hSizes.1.2, hSizes.2, (scanTransactions_iff ..).mp hScan, by simpa using hRoot⟩
  · rintro ⟨hNonempty, hCount, hSize, hVtx, hRoot⟩
    have hScan := (scanTransactions_iff ..).mpr hVtx
    simp [hNonempty, Nat.not_lt.mpr hCount, Nat.not_lt.mpr hSize, hScan, hRoot]

end BitcoinGpuMiner
