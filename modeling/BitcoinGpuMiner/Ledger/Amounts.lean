import BitcoinGpuMiner.Chain.SigOpCount
import BitcoinGpuMiner.Ledger.DoubleSpend
import BitcoinGpuMiner.Ledger.IndexRule
import BitcoinGpuMiner.Mining.Operations

/-! # Amounts

Every transaction that gets into the index has been through the loop over its outputs, so every value that
`CheckTransaction` reads from the index is money, and the sum of two amounts of money is far from the end of
sixty-four bits. The sums below are those the loops compute, the one that makes a loop give up included.
-/

namespace BitcoinGpuMiner

open Foundation

set_option autoImplicit false

def NetMessageTransaction.Priced (tx : NetMessageTransaction) : Prop := ∀ txOut ∈ tx.vout, moneyRange txOut.nValue = true

theorem TxFormat.priced {tx : NetMessageTransaction} (hFormat : TxFormat tx) : tx.Priced := by
  intro txOut hTxOut
  have hNonneg : ∀ value ∈ tx.vout.map TxOut.nValue, 0 ≤ value := by
    intro value hValue
    obtain ⟨other, hOther, rfl⟩ := List.mem_map.mp hValue
    exact hFormat.outNonneg other hOther
  have hLe : txOut.nValue ≤ tx.sumOut := List.single_le_sum hNonneg _ (List.mem_map_of_mem hTxOut)
  exact (moneyRange_iff _).mpr ⟨hFormat.outNonneg txOut hTxOut, hLe.trans hFormat.sumOut⟩

def PricedIndex (txIndex : HashMap TxIdx) : Prop := AllEntries (fun (_ : Uint256) (idx : TxIdx) => idx.tx.Priced) txIndex

namespace Node

variable {verifyScript : VerifyScript} {node node' : Node} {block : Block}

theorem NodeStep.priced (hStep : NodeStep verifyScript node node') (hTree : node.Tree)
    (hPriced : PricedIndex node.ledger.txIndex) : PricedIndex node'.ledger.txIndex := by
  cases hStep with
  | acceptBlock block hAccept =>
    have hCase := hTree.acceptBlock_cases verifyScript block
    rw [hAccept] at hCase
    exact hCase.allEntries hTree hPriced fun tx _ hFormat _ _ => hFormat.priced
  | acceptTx | createNewBlock | undoMiningTxs => exact hPriced

theorem History.priced (hHistory : History verifyScript node) : PricedIndex node.ledger.txIndex := by
  induction hHistory with
  | refl =>
    rw [initial_eq]
    refine AllEntries.empty.insert ?_
    intro txOut hTxOut
    rw [List.mem_singleton.mp hTxOut]
    decide
  | tail hBefore hStep ih => exact hStep.priced (History.sound hBefore).tree ih

theorem priced_record (index : BlockIndex) {vtx : List NetMessageTransaction} (hVtx : ∀ tx ∈ vtx, tx.Priced)
    {check : ForkCheck} (hPriced : PricedIndex check.tmpMemTxIndexMap) :
    PricedIndex (vtx.foldl (ForkCheck.record index) check).tmpMemTxIndexMap := by
  induction vtx generalizing check with
  | nil => exact hPriced
  | cons tx rest ih =>
    obtain ⟨hTx, hRest⟩ := List.forall_mem_cons.mp hVtx
    exact ih hRest (hPriced.insert hTx)

section Fork

variable {prevBlockIndex : BlockIndex} {scriptFlags : UInt32} {forkBlockHeight : Int} {check check' : ForkCheck}

/-- What the check loop keeps: the ledger as it is, and priced transactions in the overlay. -/
structure PricedFork (node : Node) (check : ForkCheck) : Prop where
  ledger : check.node.ledger = node.ledger
  overlay : PricedIndex check.tmpMemTxIndexMap

theorem PricedFork.forkBlock (hPriced : PricedFork node check) {index : BlockIndex} {tmpBlock : Block}
    (hFork : forkBlock block prevBlockIndex check index = some (check', tmpBlock)) : PricedFork node check' := by
  rw [Node.forkBlock] at hFork
  split at hFork
  case isTrue =>
    rw [saveBlock] at hFork
    dsimp only at hFork
    split at hFork
    · cases hFork
    case h_2 saved newBlockIndex hSave =>
      split at hSave
      · cases hSave
      · cases hSave
        cases hFork
        exact ⟨hPriced.ledger, hPriced.overlay⟩
  case isFalse =>
    cases hFork
    exact hPriced

theorem PricedFork.checkForkBlock (hPriced : PricedFork node check) {index : BlockIndex}
    (hCheck : checkForkBlock verifyScript block prevBlockIndex scriptFlags forkBlockHeight check index = .ok check') :
    PricedFork node check' := by
  rw [Node.checkForkBlock] at hCheck
  split at hCheck
  · cases hCheck
  · cases hCheck
  split at hCheck
  · cases hCheck
  case h_2 saved tmpBlock hFork =>
  have hSaved := hPriced.forkBlock hFork
  split at hCheck
  · cases hCheck
  split at hCheck
  · cases hCheck
  · cases hCheck
  case h_3 result hTransactions =>
  cases hCheck
  have hVtx : ∀ tx ∈ tmpBlock.vtx, tx.Priced := fun tx hTx => (format_of_checkTransactions hTransactions tx hTx).priced
  refine ⟨?_, priced_record index hVtx hSaved.overlay⟩
  rw [(ForkCheck.foldl_record index tmpBlock.vtx saved).1]
  exact hSaved.ledger

theorem PricedFork.loop (hPriced : PricedFork node check) {indices : List BlockIndex}
    (hLoop : indices.foldlM (Node.checkForkBlock verifyScript block prevBlockIndex scriptFlags forkBlockHeight) check =
      .ok check') : PricedFork node check' := by
  induction indices generalizing check with
  | nil =>
    cases hLoop
    exact hPriced
  | cons index rest ih =>
    rw [List.foldlM_cons] at hLoop
    cases hFirst : Node.checkForkBlock verifyScript block prevBlockIndex scriptFlags forkBlockHeight check index with
    | error outcome =>
      rw [hFirst] at hLoop
      cases hLoop
    | ok next =>
      rw [hFirst] at hLoop
      exact ih (hPriced.checkForkBlock hFirst) hLoop

end Fork

/-- What `CheckTransaction` is called with: the ledger of the node, or that and the overlay of a check loop
after any number of its rounds. -/
inductive CheckedWith (verifyScript : VerifyScript) (node : Node) : Ledger → Option Overlay → Prop where
  | chain : CheckedWith verifyScript node node.ledger none
  | fork {block : Block} {prevBlockIndex : BlockIndex} {scriptFlags : UInt32} {forkBlockHeight : Int}
      {indices : List BlockIndex} {check : ForkCheck}
      (hLoop : indices.foldlM (checkForkBlock verifyScript block prevBlockIndex scriptFlags forkBlockHeight)
        ⟨node, none, ∅, ∅⟩ = .ok check) :
      CheckedWith verifyScript node check.node.ledger
        (some ⟨check.tmpMemTxIndexMap, check.tmpMemUTXOSet, forkBlockHeight⟩)

end Node

section Sums

variable (verifyScript : VerifyScript) (ledger : Ledger) (scriptFlags : UInt32) (height : Int)
variable (overlay : Option Overlay)

/-- The values of `valueOut` after each addition. -/
def outputSums : List TxOut → Int → List Int
  | [], _ => []
  | txOut :: rest, valueOut =>
    if txOut.nValue < 0 then []
    else if txOut.nValue > maxMoney then []
    else (valueOut + txOut.nValue) ::
      if !moneyRange (valueOut + txOut.nValue) then [] else outputSums rest (valueOut + txOut.nValue)

/-- The output whose value a round over the inputs adds, if it gets that far. -/
def addedOutput (txIn : TxIn) (vInOutPoints : List OutPoint) : Option TxOut :=
  if txIn.previousOutput.isNull then none
  else if txIn.previousOutput ∈ vInOutPoints then none
  else match findUTXO ledger overlay txIn.previousOutput with
  | none => none
  | some _ =>
    match findPrevTx ledger overlay txIn.previousOutput.hashTransaction with
    | .ok (some idx) =>
      match idx.tx.vout[txIn.previousOutput.outPutIdx.toNat]? with
      | none => none
      | some utxo =>
        if idx.tx.isCoinBase && decide (height - idx.height < coinbaseMaturity) then none else some utxo
    | _ => none

/-- The values of `valueIn` after each addition. -/
def inputSums (tx : NetMessageTransaction) : Nat → List TxIn → List OutPoint → Int → List Int
  | _, [], _, _ => []
  | txInI, txIn :: rest, vInOutPoints, valueIn =>
    (addedOutput ledger height overlay txIn vInOutPoints).toList.map (fun utxo => valueIn + utxo.nValue) ++
      match checkInput verifyScript ledger scriptFlags height overlay tx txInI txIn vInOutPoints valueIn with
      | .ok (some valueIn) => inputSums tx (txInI + 1) rest (txIn.previousOutput :: vInOutPoints) valueIn
      | _ => []

/-- The value of `fees`, if it is computed. -/
def feeSums (tx : NetMessageTransaction) : List Int :=
  match checkOutputs tx.vout 0, checkInputs verifyScript ledger scriptFlags height overlay tx 0 tx.vin [] 0 with
  | some valueOut, .ok (some valueIn) => if valueIn < valueOut then [] else [valueIn - valueOut]
  | _, _ => []

def computedAmounts (tx : NetMessageTransaction) : List Int :=
  outputSums tx.vout 0 ++ inputSums verifyScript ledger scriptFlags height overlay tx 0 tx.vin [] 0 ++
    feeSums verifyScript ledger scriptFlags height overlay tx

end Sums

/-- Between zero and twice all the money, so in the range of an `int64_t`. -/
def Moderate (amount : Int) : Prop := 0 ≤ amount ∧ amount ≤ 2 * maxMoney

theorem Moderate.fits {amount : Int} (hModerate : Moderate amount) : -2 ^ 63 ≤ amount ∧ amount < 2 ^ 63 := by
  have hMax : maxMoney = 2100000000000000 := rfl
  obtain ⟨hLow, hHigh⟩ := hModerate
  omega

theorem moderate_add {first second : Int} (hFirst : moneyRange first = true) (hSecond : moneyRange second = true) :
    Moderate (first + second) := by
  rw [moneyRange_iff] at hFirst hSecond
  exact ⟨by omega, by omega⟩

section Bounds

variable {verifyScript : VerifyScript} {ledger : Ledger} {scriptFlags : UInt32} {height : Int} {overlay : Option Overlay}
variable {tx : NetMessageTransaction}

theorem moderate_outputSums (vout : List TxOut) {valueOut : Int} (hRange : moneyRange valueOut = true) :
    ∀ amount ∈ outputSums vout valueOut, Moderate amount := by
  induction vout generalizing valueOut with
  | nil =>
    intro amount hMem
    cases hMem
  | cons txOut rest ih =>
    rw [outputSums]
    split
    · simp
    case isFalse hLow =>
    split
    · simp
    case isFalse hHigh =>
    have hValue : moneyRange txOut.nValue = true := (moneyRange_iff _).mpr ⟨by omega, by omega⟩
    rw [List.forall_mem_cons]
    refine ⟨moderate_add hRange hValue, ?_⟩
    split
    · simp
    case isFalse hNext => exact ih (by simpa using hNext)

/-- The overlay's index counts as far as it is looked at. -/
theorem priced_findPrevTx (hLedger : PricedIndex ledger.txIndex)
    (hOverlay : ∀ active, overlay = some active → PricedIndex active.memValidTxs) {hash : Uint256} {idx : TxIdx}
    (hFind : findPrevTx ledger overlay hash = .ok (some idx)) : idx.tx.Priced := by
  have hPlain (hGet : ledger.txIndex[hash]? = some idx) : idx.tx.Priced := hLedger hash idx hGet
  cases overlay with
  | none => exact hPlain (Except.ok.inj hFind)
  | some active =>
    rw [findPrevTx, Overlay.active] at hFind
    split at hFind
    case h_1 found hActive =>
      split at hActive
      · cases hActive
        split at hFind
        case h_1 other hGet =>
          cases hFind
          exact hOverlay active rfl hash idx hGet
        case h_2 => split at hFind <;> cases hFind
      · cases hActive
    case h_2 => exact hPlain (Except.ok.inj hFind)

theorem moneyRange_addedOutput (hLedger : PricedIndex ledger.txIndex)
    (hOverlay : ∀ active, overlay = some active → PricedIndex active.memValidTxs) {txIn : TxIn} {seen : List OutPoint}
    {utxo : TxOut} (hAdded : addedOutput ledger height overlay txIn seen = some utxo) : moneyRange utxo.nValue = true := by
  rw [addedOutput] at hAdded
  split at hAdded
  · cases hAdded
  split at hAdded
  · cases hAdded
  split at hAdded
  · cases hAdded
  split at hAdded
  case h_2 => cases hAdded
  case h_1 idx hFind =>
  split at hAdded
  · cases hAdded
  case h_2 found hFound =>
  split at hAdded
  · cases hAdded
  cases hAdded
  exact priced_findPrevTx hLedger hOverlay hFind utxo (List.mem_of_getElem? hFound)

/-- The sum a round returns is the one it computes, and it is money. -/
theorem checkInput_spec {txInI : Nat} {txIn : TxIn} {seen : List OutPoint} {valueIn valueIn' : Int}
    (hCheck : checkInput verifyScript ledger scriptFlags height overlay tx txInI txIn seen valueIn = .ok (some valueIn')) :
    moneyRange valueIn' = true ∧
      ∃ utxo, addedOutput ledger height overlay txIn seen = some utxo ∧ valueIn' = valueIn + utxo.nValue := by
  rw [checkInput] at hCheck
  rw [addedOutput]
  split at hCheck
  · cases hCheck
  case isFalse hNull =>
  split at hCheck
  · cases hCheck
  case isFalse hSeen =>
  rw [if_neg hNull, if_neg hSeen]
  cases hEntry : findUTXO ledger overlay txIn.previousOutput with
  | none =>
    rw [hEntry] at hCheck
    cases hCheck
  | some entry =>
    rw [hEntry] at hCheck
    dsimp only at hCheck ⊢
    split at hCheck
    · cases hCheck
    · cases hCheck
    case h_3 idx hFind =>
    split at hCheck
    · cases hCheck
    case h_2 utxo hFound =>
    split at hCheck
    · cases hCheck
    case isFalse hMature =>
    split at hCheck
    · cases hCheck
    case isFalse hRange =>
    split at hCheck
    · cases hCheck
    cases hCheck
    refine ⟨?_, utxo, ?_, rfl⟩
    · simp only [Bool.or_eq_true, Bool.not_eq_true', not_or, Bool.not_eq_false] at hRange
      exact hRange.2
    · simp only [hFind, hFound, if_neg hMature]

theorem moderate_inputSums (hLedger : PricedIndex ledger.txIndex)
    (hOverlay : ∀ active, overlay = some active → PricedIndex active.memValidTxs) (vin : List TxIn) {txInI : Nat}
    {seen : List OutPoint} {valueIn : Int} (hRange : moneyRange valueIn = true) :
    ∀ amount ∈ inputSums verifyScript ledger scriptFlags height overlay tx txInI vin seen valueIn, Moderate amount := by
  induction vin generalizing txInI seen valueIn with
  | nil =>
    intro amount hMem
    cases hMem
  | cons txIn rest ih =>
    intro amount hMem
    rw [inputSums, List.mem_append] at hMem
    cases hMem with
    | inl hHere =>
      obtain ⟨utxo, hAdded, rfl⟩ := List.mem_map.mp hHere
      exact moderate_add hRange (moneyRange_addedOutput hLedger hOverlay (Option.mem_toList.mp hAdded))
    | inr hLater =>
      split at hLater
      case h_1 next hCheck => exact ih (checkInput_spec hCheck).1 amount hLater
      case h_2 => cases hLater

theorem moneyRange_checkInputs (vin : List TxIn) {txInI : Nat} {seen : List OutPoint} {valueIn valueIn' : Int}
    (hRange : moneyRange valueIn = true)
    (hCheck : checkInputs verifyScript ledger scriptFlags height overlay tx txInI vin seen valueIn = .ok (some valueIn')) :
    moneyRange valueIn' = true := by
  induction vin generalizing txInI seen valueIn with
  | nil =>
    cases hCheck
    exact hRange
  | cons txIn rest ih =>
    rw [checkInputs] at hCheck
    split at hCheck
    · cases hCheck
    · cases hCheck
    case h_3 next hFirst => exact ih (checkInput_spec hFirst).1 hCheck

theorem moneyRange_checkOutputs {valueOut : Int} (hCheck : checkOutputs tx.vout 0 = some valueOut) :
    moneyRange valueOut = true := ((checkOutputs_eq_some_iff _ _ _ (by decide)).mp hCheck).2.1

theorem moderate_feeSums : ∀ amount ∈ feeSums verifyScript ledger scriptFlags height overlay tx, Moderate amount := by
  intro amount hMem
  rw [feeSums] at hMem
  split at hMem
  case h_2 => cases hMem
  case h_1 valueOut valueIn hOut hIn =>
    have hOutRange := (moneyRange_iff _).mp (moneyRange_checkOutputs hOut)
    have hInRange := (moneyRange_iff _).mp (moneyRange_checkInputs tx.vin (by decide) hIn)
    split at hMem
    · cases hMem
    case isFalse hCovered =>
      rw [List.mem_singleton.mp hMem]
      exact ⟨by omega, by omega⟩

/-- What is known of the sums once a spending transaction has passed. -/
theorem amounts_of_checkTransaction (hSpend : tx.isCoinBase = false) {result result' : CheckTransactionResult}
    (hCheck : checkTransaction verifyScript ledger scriptFlags height overlay tx result = .ok (some result')) :
    ∃ valueIn valueOut, checkInputs verifyScript ledger scriptFlags height overlay tx 0 tx.vin [] 0 = .ok (some valueIn) ∧
      checkOutputs tx.vout 0 = some valueOut ∧ moneyRange valueIn = true ∧ moneyRange valueOut = true ∧
      moneyRange (valueIn - valueOut) = true ∧ result'.nFees = valueIn - valueOut := by
  have hFormat := format_of_checkTransaction hCheck
  have hOut := checkOutputs_eq_some_sumOut hFormat
  rw [checkTransaction_of_spend _ _ _ _ _ _ hFormat hSpend] at hCheck
  split at hCheck
  · cases hCheck
  · cases hCheck
  case h_3 valueIn hIn =>
  split at hCheck
  · cases hCheck
  split at hCheck
  · cases hCheck
  case isFalse hFee =>
  cases hCheck
  refine ⟨valueIn, tx.sumOut, hIn, hOut, moneyRange_checkInputs tx.vin (by decide) hIn, moneyRange_checkOutputs hOut, ?_,
    rfl⟩
  rwa [Bool.not_eq_true, Bool.not_eq_false'] at hFee

end Bounds

namespace Node

variable {verifyScript : VerifyScript} {node : Node}

theorem CheckedWith.priced {ledger : Ledger} {overlay : Option Overlay} (hWith : CheckedWith verifyScript node ledger overlay)
    (hPriced : PricedIndex node.ledger.txIndex) :
    PricedIndex ledger.txIndex ∧ ∀ active, overlay = some active → PricedIndex active.memValidTxs := by
  cases hWith with
  | chain =>
    refine ⟨hPriced, ?_⟩
    intro active hNone
    cases hNone
  | fork hLoop =>
    have hStart : PricedFork node ⟨node, none, ∅, ∅⟩ := ⟨rfl, AllEntries.empty⟩
    have hFork := hStart.loop hLoop
    rw [hFork.ledger]
    refine ⟨hPriced, ?_⟩
    intro active hSome
    cases hSome
    exact hFork.overlay

/-- In every state the index holds money only, no amount that a check computes leaves the range of its type, whatever
transaction is checked, and what passes has sums and a fee between zero and all the money; the counters of a block that
is not too large are the numbers they stand for. -/
theorem History.amounts_fit (hHistory : History verifyScript node) :
    (∀ (hash : Uint256) (idx : TxIdx), node.ledger.txIndex[hash]? = some idx →
      ∀ txOut ∈ idx.tx.vout, 0 ≤ txOut.nValue ∧ txOut.nValue ≤ maxMoney) ∧
    (∀ (ledger : Ledger) (overlay : Option Overlay), CheckedWith verifyScript node ledger overlay →
      ∀ (scriptFlags : UInt32) (height : Int) (tx : NetMessageTransaction),
        (∀ amount ∈ computedAmounts verifyScript ledger scriptFlags height overlay tx,
          -2 ^ 63 ≤ amount ∧ amount < 2 ^ 63) ∧
        ∀ result result', tx.isCoinBase = false →
          checkTransaction verifyScript ledger scriptFlags height overlay tx result = .ok (some result') →
          ∃ valueIn valueOut,
            checkInputs verifyScript ledger scriptFlags height overlay tx 0 tx.vin [] 0 = .ok (some valueIn) ∧
            checkOutputs tx.vout 0 = some valueOut ∧ (0 ≤ valueIn ∧ valueIn ≤ maxMoney) ∧
            (0 ≤ valueOut ∧ valueOut ≤ maxMoney) ∧ (0 ≤ valueIn - valueOut ∧ valueIn - valueOut ≤ maxMoney)) ∧
    ∀ block : Block, block.SizeOk → ∀ before tx after, block.vtx = before ++ tx :: after →
      ∀ scan, scanAfter true before ⟨[], [], 0⟩ = some scan →
        tx.getLegacySigOpCount.toNat = tx.sigOps ∧
        (scan.nSigOps + tx.getLegacySigOpCount).toNat = scan.nSigOps.toNat + tx.sigOps ∧
        ((scan.nSigOps + tx.getLegacySigOpCount) * UInt32.ofNat witnessScaleFactor).toNat =
          (scan.nSigOps.toNat + tx.sigOps) * witnessScaleFactor := by
  refine ⟨?_, ?_, ?_⟩
  · intro hash idx hGet txOut hTxOut
    exact (moneyRange_iff _).mp (hHistory.priced hash idx hGet txOut hTxOut)
  · intro ledger overlay hWith scriptFlags height tx
    obtain ⟨hLedger, hOverlay⟩ := hWith.priced hHistory.priced
    constructor
    · intro amount hAmount
      rw [computedAmounts, List.mem_append, List.mem_append, or_assoc] at hAmount
      rcases hAmount with hOutput | hInput | hFee
      · exact (moderate_outputSums tx.vout (by decide) amount hOutput).fits
      · exact (moderate_inputSums hLedger hOverlay tx.vin (by decide) amount hInput).fits
      · exact (moderate_feeSums amount hFee).fits
    · intro result result' hSpend hCheck
      obtain ⟨valueIn, valueOut, hIn, hOut, hRanges⟩ := amounts_of_checkTransaction hSpend hCheck
      simp only [moneyRange_iff] at hRanges
      exact ⟨valueIn, valueOut, hIn, hOut, hRanges.1, hRanges.2.1, hRanges.2.2.1⟩
  · intro block hSize before tx after hVtx scan hScan
    exact hSize.sigOps_exact hVtx hScan

/-- A node that has a payment in its chain, the payment that follows it, and the block of the first one. -/
theorem amounts_fit_payments : ∃ node : Node, History anyScript node ∧
    (∃ idx : TxIdx, node.ledger.txIndex[Payments.first.getHash]? = some idx ∧
      ∀ txOut ∈ idx.tx.vout, 0 ≤ txOut.nValue ∧ txOut.nValue ≤ maxMoney) ∧
    (∃ valueIn valueOut, checkInputs anyScript node.ledger (scriptFlagsAt 102) 102 none Payments.second 0
        Payments.second.vin [] 0 = .ok (some valueIn) ∧ checkOutputs Payments.second.vout 0 = some valueOut ∧
      0 ≤ valueIn - valueOut ∧ valueIn - valueOut ≤ maxMoney) ∧
    ∃ scan, scanAfter true [Revival.filler] ⟨[], [], 0⟩ = some scan ∧
      (scan.nSigOps + Payments.first.getLegacySigOpCount).toNat = scan.nSigOps.toNat + Payments.first.sigOps := by
  obtain ⟨node, hRun, hHolds⟩ := exists_tipRun (Revival.valid_firstPart.extend Payments.follows_first trivial)
  have hLedger : node.ledger = ledgerOf ([getGenesisBlock] ++ Revival.firstPart ++ [Payments.firstBlock]) :=
    hHolds.blocks ▸ hRun.refines.ledger
  have hIdx := (Payments.change_kept ([getGenesisBlock] ++ Revival.firstPart)).2
  have hCheck := (checkTransaction_eq_some_iff anyScript node.ledger (scriptFlagsAt 102) 102 Payments.second ⟨0, 0⟩ _).mpr
    ⟨by rw [hLedger]; exact Payments.txOk_second _ _ _, rfl⟩
  have hSize : Payments.firstBlock.SizeOk := by
    rw [Block.SizeOk]
    decide +kernel
  obtain ⟨scan, hScan⟩ : ∃ scan, scanAfter true [Revival.filler] ⟨[], [], 0⟩ = some scan :=
    Option.isSome_iff_exists.mp (by decide +kernel)
  rw [← hLedger] at hIdx
  obtain ⟨hIndex, hChecks, hCounters⟩ := hRun.history.amounts_fit
  obtain ⟨valueIn, valueOut, hIn, hOut, -, -, hFee⟩ := (hChecks _ none .chain (scriptFlagsAt 102) 102 Payments.second).2 _ _
    (isCoinBase_plainSpend Payments.hashes.1 _) hCheck
  refine ⟨node, hRun.history, ⟨_, hIdx, hIndex _ _ hIdx⟩, ⟨valueIn, valueOut, hIn, hOut, hFee⟩, scan, hScan, ?_⟩
  exact (hCounters Payments.firstBlock hSize [Revival.filler] Payments.first [] rfl scan hScan).2.1

end Node

end BitcoinGpuMiner
