import BitcoinGpuMiner.Chain.PlainBlock
import BitcoinGpuMiner.Chain.Transactions

/-! # Null pointers

Only the overtaking branch reads through a pointer that may be null: `newBlockIndex` in the
check loop, and `pPrevOutputTxIdx` in `CheckTransaction` under an overlay. A reorganisation from
height one reaches the second of them with an overlay that is still empty.
-/

namespace BitcoinGpuMiner

open Foundation

set_option autoImplicit false

/-- The input names an unspent output of the ledger that was there at the fork height. -/
structure NamesLedger (ledger : Ledger) (forkHeight : Int) (txIn : TxIn) : Prop where
  notNull : txIn.previousOutput ≠ OutPoint.null
  unspent : ∃ entry, ledger.utxo.canUse txIn.previousOutput = some entry ∧ entry.height ≤ forkHeight
  indexed : ∃ idx, ledger.txIndex[txIn.previousOutput.hashTransaction]? = some idx

/-- The transaction after the coinbase starts with such an input. -/
def SpendsLedger (ledger : Ledger) (forkHeight : Int) (vtx : List NetMessageTransaction) : Prop :=
  ∃ coinbase tx rest txIn, vtx = coinbase :: tx :: rest ∧ TxFormat coinbase ∧ TxFormat tx ∧
    tx.vin.head? = some txIn ∧ NamesLedger ledger forkHeight txIn

section EmptyOverlay

variable (verifyScript : VerifyScript) (ledger : Ledger) (scriptFlags : UInt32) (height : Int)
variable {forkHeight : Int} (hFork : 0 < forkHeight)

include hFork

theorem findUTXO_emptyOverlay (pt : OutPoint) : (∃ entry, findUTXO ledger (some ⟨∅, ∅, forkHeight⟩) pt = some entry) ↔
    ∃ entry, ledger.utxo.canUse pt = some entry ∧ entry.height ≤ forkHeight := by
  have hNone : (∅ : UtxoSet)[pt]? = none := Std.ExtTreeMap.getElem?_empty
  simp only [findUTXO, Overlay.active, hFork, if_true, hNone]
  cases ledger.utxo.canUse pt with
  | none => simp
  | some entry =>
    by_cases hLow : entry.height ≤ forkHeight
    · simp [hLow, Int.not_lt.mpr hLow]
    · simp [hLow, Int.not_le.mp hLow]

theorem findPrevTx_emptyOverlay (hash : Uint256) : findPrevTx ledger (some ⟨∅, ∅, forkHeight⟩) hash =
    match ledger.txIndex[hash]? with
    | some _ => .error .nullDereference
    | none => .ok none := by
  have hNone : (∅ : HashMap TxIdx)[hash]? = none := Std.ExtTreeMap.getElem?_empty
  cases hIndex : ledger.txIndex[hash]? <;>
    simp only [findPrevTx, Overlay.active, hFork, if_true, hNone, hIndex]

/-- Under an empty overlay no input is ever accepted. -/
theorem checkInput_emptyOverlay (tx : NetMessageTransaction) (txInI : Nat) (txIn : TxIn) (valueIn : Int) :
    (NamesLedger ledger forkHeight txIn ∧
      checkInput verifyScript ledger scriptFlags height (some ⟨∅, ∅, forkHeight⟩) tx txInI txIn [] valueIn =
        .error .nullDereference) ∨
    (¬ NamesLedger ledger forkHeight txIn ∧
      checkInput verifyScript ledger scriptFlags height (some ⟨∅, ∅, forkHeight⟩) tx txInI txIn [] valueIn =
        .ok none) := by
  rw [checkInput]
  by_cases hNull : txIn.previousOutput = OutPoint.null
  · rw [if_pos ((OutPoint.isNull_iff _).mpr hNull)]
    exact .inr ⟨fun hNames => hNames.notNull hNull, rfl⟩
  rw [if_neg (by rwa [OutPoint.isNull_iff]), if_neg List.not_mem_nil]
  have hUnspent := findUTXO_emptyOverlay ledger hFork txIn.previousOutput
  cases hFind : findUTXO ledger (some ⟨∅, ∅, forkHeight⟩) txIn.previousOutput with
  | none =>
    refine .inr ⟨?_, rfl⟩
    intro hNames
    obtain ⟨entry, hEntry⟩ := hUnspent.mpr hNames.unspent
    cases hFind.symm.trans hEntry
  | some entry =>
    dsimp only
    rw [findPrevTx_emptyOverlay ledger hFork]
    cases hIdx : ledger.txIndex[txIn.previousOutput.hashTransaction]? with
    | none =>
      refine .inr ⟨?_, rfl⟩
      intro hNames
      obtain ⟨idx, hSome⟩ := hNames.indexed
      cases hIdx.symm.trans hSome
    | some idx => exact .inl ⟨⟨hNull, hUnspent.mp ⟨entry, hFind⟩, idx, hIdx⟩, rfl⟩

/-- So the first input of a transaction that spends decides what becomes of it. -/
theorem checkTransaction_emptyOverlay {tx : NetMessageTransaction} (hFormat : TxFormat tx)
    (hSpend : tx.isCoinBase = false) (result : CheckTransactionResult) :
    ((∃ txIn, tx.vin.head? = some txIn ∧ NamesLedger ledger forkHeight txIn) ∧
      checkTransaction verifyScript ledger scriptFlags height (some ⟨∅, ∅, forkHeight⟩) tx result =
        .error .nullDereference) ∨
    ((¬ ∃ txIn, tx.vin.head? = some txIn ∧ NamesLedger ledger forkHeight txIn) ∧
      checkTransaction verifyScript ledger scriptFlags height (some ⟨∅, ∅, forkHeight⟩) tx result = .ok none) := by
  rw [checkTransaction_of_spend _ _ _ _ _ _ hFormat hSpend]
  have hSome := hFormat.vin
  cases hVin : tx.vin with
  | nil => exact absurd hVin hSome
  | cons txIn rest =>
    rw [checkInputs]
    rcases checkInput_emptyOverlay verifyScript ledger scriptFlags height hFork tx 0 txIn 0 with
      ⟨hNames, hCheck⟩ | ⟨hNot, hCheck⟩
    · rw [hCheck]
      exact .inl ⟨⟨txIn, rfl, hNames⟩, rfl⟩
    · rw [hCheck]
      refine .inr ⟨?_, rfl⟩
      rintro ⟨txIn', hHead, hNames⟩
      cases hHead
      exact hNot hNames

theorem checkTransactions_emptyOverlay {vtx : List NetMessageTransaction} (hFirst : CoinbaseFirst true vtx)
    (fault : Fault) :
    checkTransactions verifyScript ledger scriptFlags height (some ⟨∅, ∅, forkHeight⟩) vtx = .error fault ↔
      fault = .nullDereference ∧ SpendsLedger ledger forkHeight vtx := by
  rw [checkTransactions]
  cases vtx with
  | nil =>
    rw [checkTransactionsLoop]
    refine iff_of_false (fun hError => by cases hError) ?_
    rintro ⟨-, _, _, _, _, hNil, -⟩
    cases hNil
  | cons coinbase rest =>
    obtain ⟨hCoinBase, hOthers⟩ := hFirst
    rw [checkTransactionsLoop]
    by_cases hFormat : TxFormat coinbase
    case neg =>
      rw [checkTransaction_of_not_format _ _ _ _ _ _ hFormat]
      refine iff_of_false (fun hError => by cases hError) ?_
      rintro ⟨-, _, _, _, _, hVtx, hHead, -⟩
      cases hVtx
      exact hFormat hHead
    rw [checkTransaction_of_coinbase _ _ _ _ _ _ hFormat hCoinBase]
    dsimp only
    cases rest with
    | nil =>
      rw [checkTransactionsLoop]
      refine iff_of_false (fun hError => by cases hError) ?_
      rintro ⟨-, _, _, _, _, hNil, -⟩
      cases hNil
    | cons tx rest =>
      have hSpend : tx.isCoinBase = false := hOthers tx List.mem_cons_self
      rw [checkTransactionsLoop]
      by_cases hTx : TxFormat tx
      case neg =>
        rw [checkTransaction_of_not_format _ _ _ _ _ _ hTx]
        refine iff_of_false (fun hError => by cases hError) ?_
        rintro ⟨-, _, _, _, _, hVtx, -, hSecond, -⟩
        cases hVtx
        exact hTx hSecond
      rcases checkTransaction_emptyOverlay verifyScript ledger scriptFlags height hFork hTx hSpend
          ⟨0, 0 + coinbase.vin.length⟩ with ⟨⟨txIn, hHead, hNames⟩, hCheck⟩ | ⟨hNot, hCheck⟩
      · rw [hCheck]
        constructor
        · intro hError
          cases hError
          exact ⟨rfl, coinbase, tx, rest, txIn, rfl, hFormat, hTx, hHead, hNames⟩
        · rintro ⟨rfl, -⟩
          rfl
      · rw [hCheck]
        refine iff_of_false (fun hError => by cases hError) ?_
        rintro ⟨-, _, _, _, txIn, hVtx, -, -, hHead, hNames⟩
        cases hVtx
        exact hNot ⟨txIn, hHead, hNames⟩

end EmptyOverlay

theorem coinbaseFirst_of_blockOk {block : Block} (hOk : blockOk block = true) : CoinbaseFirst true block.vtx :=
  ((checkBlockContents_iff _).mp ((blockOk_iff _).mp hOk).1).vtx.coinbase

namespace Node

/-- The block overtakes the active tip, and the overtaking branch reads through a null pointer. -/
def Dereferences (node : Node) (block : Block) (prev active : BlockIndex) : Prop :=
  node.Rival block prev active ∧ (block.hashPrevBlock = Uint256.null ∨
    (blockOk block = true ∧ (2 ≤ active.height ∨ SpendsLedger node.ledger 1 block.vtx)))

theorem overlayCheck_eq_error_iff (verifyScript : VerifyScript) (node : Node) {block : Block}
    (hOk : blockOk block = true) (fault : Fault) : overlayCheck verifyScript node block = .error fault ↔
      fault = .nullDereference ∧ SpendsLedger node.ledger 1 block.vtx :=
  checkTransactions_emptyOverlay verifyScript node.ledger _ 2 Int.one_pos (coinbaseFirst_of_blockOk hOk) fault

theorem ok_ne_nullDereference (result : Bool) : (.ok result : Except Fault Bool) ≠ .error .nullDereference := by
  intro hEq
  cases hEq

theorem endResult_ne_nullDereference (node : Node) (block : Block) :
    node.endResult block ≠ .error .nullDereference := by
  rw [endResult]
  intro hEq
  split at hEq <;> cases hEq

theorem acceptOrphan_returns (node : Node) (block : Block) : ∃ result, (acceptOrphan node block).result = .ok result := by
  rw [acceptOrphan]
  split <;> exact ⟨_, rfl⟩

theorem AcceptCase.ne_nullDereference_iff {verifyScript : VerifyScript} {node : Node} {block : Block}
    {outcome : Outcome} (hCase : AcceptCase verifyScript node block outcome) :
    outcome.result ≠ .error .nullDereference ↔
      ∀ prev active, node.Candidate block prev active → ¬ node.Dereferences block prev active := by
  cases hCase with
  | known hKnown =>
    exact iff_of_true (ok_ne_nullDereference _) (forall_candidate_of_known hKnown)
  | orphan hNew hParent =>
    obtain ⟨result, hResult⟩ := acceptOrphan_returns node block
    rw [hResult]
    exact iff_of_true (ok_ne_nullDereference _) (Tree.forall_candidate_of_orphan hParent)
  | extended memPool hCandidate hTop =>
    rw [forall_candidate_iff hCandidate]
    exact iff_of_true (endResult_ne_nullDereference node block) fun hBad => hBad.1.other hTop
  | notExtended hCandidate hTop =>
    rw [forall_candidate_iff hCandidate]
    exact iff_of_true (ok_ne_nullDereference _) fun hBad => hBad.1.other hTop
  | branched hCandidate hBeside | notBranched hCandidate hBeside =>
    rw [forall_candidate_iff hCandidate]
    exact iff_of_true (ok_ne_nullDereference _) fun hBad => hBeside.not_rival hBad.1
  | crashed hCandidate hRival hBad =>
    rw [forall_candidate_iff hCandidate]
    refine iff_of_false (fun hNe => hNe rfl) (not_not_intro ⟨hRival, ?_⟩)
    rcases hBad with hNull | ⟨hHigh, hOk⟩
    · exact .inl hNull
    · exact .inr ⟨hOk, .inl hHigh⟩
  | notOvertaken hCandidate hRival hNull hNot =>
    rw [forall_candidate_iff hCandidate]
    refine iff_of_true (ok_ne_nullDereference _) ?_
    rintro ⟨-, hIs | ⟨hOk, -⟩⟩
    · exact hNull hIs
    · cases hNot.symm.trans hOk
  | savedOnly hCandidate hRival hNull hHeight hOk hCheck =>
    rw [forall_candidate_iff hCandidate]
    rcases hCheck with ⟨fault, hError, rfl⟩ | ⟨hNone, rfl⟩
    · obtain ⟨rfl, hSpends⟩ := (overlayCheck_eq_error_iff verifyScript node hOk fault).mp hError
      exact iff_of_false (fun hNe => hNe rfl) (not_not_intro ⟨hRival, .inr ⟨hOk, .inr hSpends⟩⟩)
    · refine iff_of_true (ok_ne_nullDereference _) ?_
      rintro ⟨-, hIs | ⟨-, hHigh | hSpends⟩⟩
      · exact hNull hIs
      · omega
      · cases hNone.symm.trans ((overlayCheck_eq_error_iff verifyScript node hOk _).mpr ⟨rfl, hSpends⟩)
  | reorganised memPool hCandidate hRival hNull hHeight hOk hCheck =>
    rw [forall_candidate_iff hCandidate]
    refine iff_of_true (endResult_ne_nullDereference node block) ?_
    rintro ⟨-, hIs | ⟨-, hHigh | hSpends⟩⟩
    · exact hNull hIs
    · omega
    · cases hCheck.symm.trans ((overlayCheck_eq_error_iff verifyScript node hOk _).mpr ⟨rfl, hSpends⟩)

/-- A call reads through a null pointer exactly where its block overtakes the active tip from
height two on, or from height one with a spend of the old chain. -/
theorem acceptBlock_ne_nullDereference_iff {verifyScript : VerifyScript} {node : Node}
    (hReach : Reachable verifyScript node) (block : Block) :
    (acceptBlock verifyScript node block).result ≠ .error .nullDereference ↔
      ∀ prev active, node.Candidate block prev active → ¬ node.Dereferences block prev active :=
  (hReach.tree.acceptBlock_cases verifyScript block).ne_nullDereference_iff

theorem acceptBlock_ne_nullDereference_tied :
    (acceptBlock anyScript tied secondRival).result ≠ .error .nullDereference ↔
      ∀ prev active, tied.Candidate secondRival prev active → ¬ tied.Dereferences secondRival prev active :=
  acceptBlock_ne_nullDereference_iff tied_reachable secondRival

def secondActive : Block := blockOn (rivalBlock 1).getHash [plainCoinbase [4, 0] (50 * coin)] 1296688603 2

def thirdRival : Block := blockOn secondRival.getHash [plainCoinbase [5, 0] (50 * coin)] 1296688603 4

/-- A block on the second of the two tied blocks that spends the coinbase of the first. -/
def spendingRival : Block :=
  blockOn (rivalBlock 2).getHash [plainCoinbase [3, 0] (50 * coin),
    plainSpend ⟨(plainCoinbase [1, 0] (50 * coin)).getHash, 0⟩ (50 * coin)] 1296688603 2

/-- Two branches of height two and a block on the one that is not active; and two branches of
height one and a block that reaches `CheckTransaction` with an input of the ledger. -/
theorem exists_nullDereference : ∃ (verifyScript : VerifyScript) (node node' : Node) (block block' : Block),
    Reachable verifyScript node ∧ Reachable verifyScript node' ∧ blockOk block = true ∧ blockOk block' = true ∧
      (acceptBlock verifyScript node block).result = .error .nullDereference ∧
      (acceptBlock verifyScript node' block').result = .error .nullDereference := by
  have hEvaluated : returnsAll anyScript tied [secondActive, secondRival] = true ∧
      blockOk thirdRival = true ∧ blockOk spendingRival = true ∧
      (acceptBlock anyScript (acceptAll anyScript tied [secondActive, secondRival]) thirdRival).result =
        .error .nullDereference ∧
      (acceptBlock anyScript tied spendingRival).result = .error .nullDereference := by
    decide +kernel
  exact ⟨anyScript, acceptAll anyScript tied [secondActive, secondRival], tied, thirdRival, spendingRival,
    Reachable.acceptAll _ tied_reachable hEvaluated.1, tied_reachable, hEvaluated.2⟩

end Node

end BitcoinGpuMiner
