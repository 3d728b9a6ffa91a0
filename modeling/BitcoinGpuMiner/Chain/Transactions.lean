import Mathlib.Algebra.Order.BigOperators.Group.List
import BitcoinGpuMiner.Ledger.Utxo
import BitcoinGpuMiner.Model.CheckTransaction

/-! # What `CheckTransaction` accepts

Outside a reorganisation the function returns for every transaction, and it accepts exactly
those that satisfy `TxOk`, a predicate that mentions no loop.
-/

namespace BitcoinGpuMiner

open Foundation

set_option autoImplicit false

/-- The output a key names according to the transaction index. -/
def Ledger.output (ledger : Ledger) (pt : OutPoint) : Option TxOut :=
  ledger.txIndex[pt.hashTransaction]?.bind fun idx => idx.tx.vout[pt.outPutIdx.toNat]?

def Ledger.value (ledger : Ledger) (pt : OutPoint) : Int := (ledger.output pt).elim 0 TxOut.nValue

theorem Ledger.value_of_output {ledger : Ledger} {pt : OutPoint} {out : TxOut} (h : ledger.output pt = some out) :
    ledger.value pt = out.nValue := by
  rw [value, h, Option.elim_some]

def NetMessageTransaction.sumOut (tx : NetMessageTransaction) : Int := (tx.vout.map TxOut.nValue).sum

def Ledger.sumIn (ledger : Ledger) (tx : NetMessageTransaction) : Int :=
  (tx.vin.map fun txIn => ledger.value txIn.previousOutput).sum

section Spec

variable (verifyScript : VerifyScript) (ledger : Ledger) (scriptFlags : UInt32) (height : Int)

/-- One input: it names an unspent output, mature if it is a coinbase's, whose script accepts it. -/
structure InputOk (tx : NetMessageTransaction) (txInI : Nat) (txIn : TxIn) : Prop where
  notNull : txIn.previousOutput ≠ OutPoint.null
  unspent : ledger.utxo.Unspent txIn.previousOutput
  output : ∃ idx out, ledger.txIndex[txIn.previousOutput.hashTransaction]? = some idx ∧
    idx.tx.vout[txIn.previousOutput.outPutIdx.toNat]? = some out ∧
    (idx.tx.isCoinBase = true → coinbaseMaturity ≤ height - idx.height) ∧
    moneyRange out.nValue = true ∧
    verifyScript txIn.scriptSig out.scriptPubKey txIn.scriptWitness scriptFlags tx txInI out.nValue = true

variable {verifyScript ledger scriptFlags height}

theorem InputOk.output_eq {tx : NetMessageTransaction} {txInI : Nat} {txIn : TxIn}
    (h : InputOk verifyScript ledger scriptFlags height tx txInI txIn) :
    ∃ out, ledger.output txIn.previousOutput = some out ∧ moneyRange out.nValue = true := by
  obtain ⟨idx, out, hIdx, hOut, -, hRange, -⟩ := h.output
  exact ⟨out, by rw [Ledger.output, hIdx, Option.bind_some, hOut], hRange⟩

theorem InputOk.value_nonneg {tx : NetMessageTransaction} {txInI : Nat} {txIn : TxIn}
    (h : InputOk verifyScript ledger scriptFlags height tx txInI txIn) :
    0 ≤ ledger.value txIn.previousOutput := by
  obtain ⟨out, hOut, hRange⟩ := h.output_eq
  rw [Ledger.value_of_output hOut]
  exact ((moneyRange_iff _).mp hRange).1

variable (verifyScript ledger scriptFlags height)

theorem checkInput_returns (tx : NetMessageTransaction) (txInI : Nat) (txIn : TxIn) (seen : List OutPoint)
    (valueIn : Int) :
    ∃ r, checkInput verifyScript ledger scriptFlags height none tx txInI txIn seen valueIn = .ok r := by
  unfold checkInput
  simp only [findPrevTx, Overlay.active]
  repeat' split
  all_goals first | exact ⟨_, rfl⟩ | contradiction

theorem checkInput_eq_some_iff (tx : NetMessageTransaction) (txInI : Nat) (txIn : TxIn) (seen : List OutPoint)
    (valueIn valueIn' : Int) :
    checkInput verifyScript ledger scriptFlags height none tx txInI txIn seen valueIn = .ok (some valueIn') ↔
      InputOk verifyScript ledger scriptFlags height tx txInI txIn ∧ txIn.previousOutput ∉ seen ∧
        moneyRange valueIn' = true ∧ valueIn' = valueIn + ledger.value txIn.previousOutput := by
  simp only [checkInput, findUTXO, findPrevTx, Overlay.active]
  constructor
  · intro h
    split at h
    · cases h
    case isFalse hNull =>
    split at h
    · cases h
    case isFalse hSeen =>
    split at h
    · cases h
    case h_2 entry hEntry =>
    split at h
    · contradiction
    · cases h
    case h_3 idx hIdx =>
    split at h
    · cases h
    case h_2 out hOut =>
    split at h
    · cases h
    case isFalse hMature =>
    split at h
    · cases h
    case isFalse hRange =>
    split at h
    · cases h
    case isFalse hScript =>
    cases h
    have hIndexed : ledger.txIndex[txIn.previousOutput.hashTransaction]? = some idx := by simpa using hIdx
    have hOutput : ledger.output txIn.previousOutput = some out := by
      rw [Ledger.output, hIndexed, Option.bind_some, hOut]
    refine ⟨⟨?_, ?_, idx, out, hIndexed, hOut, ?_, ?_, ?_⟩, hSeen, ?_, ?_⟩
    · rwa [OutPoint.isNull_iff] at hNull
    · exact UtxoSet.canUse_iff.mp ⟨entry, hEntry⟩
    · intro hCoinBase
      simpa [hCoinBase] using hMature
    · simp_all
    · simpa using hScript
    · simp_all
    · rw [Ledger.value_of_output hOutput]
  · rintro ⟨⟨hNull, hUnspent, idx, out, hIdx, hOut, hMature, hRange, hScript⟩, hSeen, hSum, rfl⟩
    obtain ⟨entry, hEntry⟩ := UtxoSet.canUse_iff.mpr hUnspent
    have hNull' : txIn.previousOutput.isNull = false := by
      rw [Bool.eq_false_iff, Ne, OutPoint.isNull_iff]
      exact hNull
    have hOutput : ledger.output txIn.previousOutput = some out := by
      rw [Ledger.output, hIdx, Option.bind_some, hOut]
    have hMature' : (idx.tx.isCoinBase && decide (height - idx.height < coinbaseMaturity)) = false := by
      cases hCoinBase : idx.tx.isCoinBase with
      | false => rfl
      | true => simpa using hMature hCoinBase
    rw [Ledger.value_of_output hOutput] at hSum ⊢
    simp [hNull', hSeen, hEntry, hIdx, hOut, hMature', hRange, hSum, hScript]

theorem checkInputs_returns (tx : NetMessageTransaction) (txInI : Nat) (vin : List TxIn) (seen : List OutPoint)
    (valueIn : Int) :
    ∃ r, checkInputs verifyScript ledger scriptFlags height none tx txInI vin seen valueIn = .ok r := by
  induction vin generalizing txInI seen valueIn with
  | nil => exact ⟨_, rfl⟩
  | cons txIn rest ih =>
    obtain ⟨r, hr⟩ := checkInput_returns verifyScript ledger scriptFlags height tx txInI txIn seen valueIn
    rw [checkInputs, hr]
    cases r with
    | none => exact ⟨none, rfl⟩
    | some valueIn => exact ih ..

theorem checkInputs_eq_some_iff (tx : NetMessageTransaction) (txInI : Nat) (vin : List TxIn)
    (seen : List OutPoint) (valueIn valueIn' : Int) (hRange : moneyRange valueIn = true) :
    checkInputs verifyScript ledger scriptFlags height none tx txInI vin seen valueIn = .ok (some valueIn') ↔
      (∀ i txIn, vin[i]? = some txIn →
        InputOk verifyScript ledger scriptFlags height tx (txInI + i) txIn) ∧
      (vin.map TxIn.previousOutput).Nodup ∧ (∀ txIn ∈ vin, txIn.previousOutput ∉ seen) ∧
      moneyRange valueIn' = true ∧
      valueIn' = valueIn + (vin.map fun txIn => ledger.value txIn.previousOutput).sum := by
  induction vin generalizing txInI seen valueIn with
  | nil =>
    rw [checkInputs]
    constructor
    · rintro ⟨⟩
      exact ⟨by simp, List.nodup_nil, by simp, hRange, (Int.add_zero _).symm⟩
    · rintro ⟨-, -, -, -, rfl⟩
      simp
  | cons txIn rest ih =>
    rw [checkInputs]
    constructor
    · intro h
      obtain ⟨r, hr⟩ := checkInput_returns verifyScript ledger scriptFlags height tx txInI txIn seen valueIn
      rw [hr] at h
      cases r with
      | none => cases h
      | some next =>
        obtain ⟨hOk, hSeen, hNext, rfl⟩ := (checkInput_eq_some_iff ..).mp hr
        obtain ⟨hAll, hNodup, hRest, hFinal, rfl⟩ := (ih _ _ _ hNext).mp h
        refine ⟨?_, ?_, ?_, hFinal, by rw [List.map_cons, List.sum_cons, Int.add_assoc]⟩
        · rintro (_ | i) txIn' hGet
          · cases hGet
            exact hOk
          · have := hAll i txIn' hGet
            rwa [Nat.add_right_comm, Nat.add_assoc] at this
        · rw [List.map_cons, List.nodup_cons]
          refine ⟨fun hMem => ?_, hNodup⟩
          obtain ⟨txIn', hMem', hEq⟩ := List.mem_map.mp hMem
          exact hRest txIn' hMem' (hEq ▸ List.mem_cons_self)
        · rintro txIn' (_ | ⟨_, hMem⟩)
          · exact hSeen
          · exact fun hMem' => hRest txIn' hMem (List.mem_cons_of_mem _ hMem')
    · rintro ⟨hAll, hNodup, hSeen, hFinal, hSum⟩
      have hOk : InputOk verifyScript ledger scriptFlags height tx txInI txIn := hAll 0 txIn rfl
      rw [List.map_cons, List.nodup_cons] at hNodup
      rw [List.map_cons, List.sum_cons, ← Int.add_assoc] at hSum
      have hRest : 0 ≤ (rest.map fun txIn => ledger.value txIn.previousOutput).sum := by
        apply List.sum_nonneg
        intro value hValue
        obtain ⟨txIn', hMem, rfl⟩ := List.mem_map.mp hValue
        obtain ⟨i, hGet⟩ := List.mem_iff_getElem?.mp hMem
        exact (hAll (i + 1) txIn' hGet).value_nonneg
      have hNext : moneyRange (valueIn + ledger.value txIn.previousOutput) = true := by
        rw [moneyRange_iff] at hRange hFinal ⊢
        have := hOk.value_nonneg
        omega
      rw [(checkInput_eq_some_iff ..).mpr ⟨hOk, hSeen txIn List.mem_cons_self, hNext, rfl⟩]
      refine (ih _ _ _ hNext).mpr ⟨fun i txIn' hGet => ?_, hNodup.2, fun txIn' hMem => ?_, hFinal, hSum⟩
      · have := hAll (i + 1) txIn' hGet
        rwa [Nat.add_right_comm, Nat.add_assoc]
      · rw [List.mem_cons, not_or]
        refine ⟨fun hEq => hNodup.1 ?_, hSeen txIn' (List.mem_cons_of_mem _ hMem)⟩
        exact hEq ▸ List.mem_map_of_mem hMem

end Spec

theorem checkOutputs_eq_some_iff (vout : List TxOut) (valueOut valueOut' : Int)
    (hRange : moneyRange valueOut = true) :
    checkOutputs vout valueOut = some valueOut' ↔
      (∀ out ∈ vout, 0 ≤ out.nValue) ∧ moneyRange valueOut' = true ∧
        valueOut' = valueOut + (vout.map TxOut.nValue).sum := by
  induction vout generalizing valueOut with
  | nil =>
    rw [checkOutputs]
    constructor
    · rintro ⟨⟩
      exact ⟨by simp, hRange, (Int.add_zero _).symm⟩
    · rintro ⟨-, -, rfl⟩
      simp
  | cons out rest ih =>
    rw [checkOutputs]
    constructor
    · intro h
      split at h
      · cases h
      case isFalse hNonneg =>
      split at h
      · cases h
      split at h
      · cases h
      case isFalse hNext =>
      rw [Bool.not_eq_true, Bool.not_eq_false'] at hNext
      obtain ⟨hAll, hFinal, hSum⟩ := (ih _ hNext).mp h
      refine ⟨?_, hFinal, by rw [hSum, List.map_cons, List.sum_cons, Int.add_assoc]⟩
      rintro out' (_ | ⟨_, hMem⟩)
      · omega
      · exact hAll out' hMem
    · rintro ⟨hAll, hFinal, hSum⟩
      rw [List.map_cons, List.sum_cons, ← Int.add_assoc] at hSum
      have hNonneg := hAll out List.mem_cons_self
      have hRest : 0 ≤ (rest.map TxOut.nValue).sum := by
        apply List.sum_nonneg
        intro value hValue
        obtain ⟨out', hMem, rfl⟩ := List.mem_map.mp hValue
        exact hAll out' (List.mem_cons_of_mem _ hMem)
      have hBounds := (moneyRange_iff _).mp hFinal
      have hStart := (moneyRange_iff _).mp hRange
      have hNext : moneyRange (valueOut + out.nValue) = true := by
        rw [moneyRange_iff]
        omega
      rw [if_neg (by omega), if_neg (by omega), hNext]
      exact (ih _ hNext).mpr ⟨fun out' hMem => hAll out' (List.mem_cons_of_mem _ hMem), hFinal, hSum⟩

section Transaction

variable (verifyScript : VerifyScript) (ledger : Ledger) (scriptFlags : UInt32) (height : Int)

/-- What a transaction must satisfy whatever the state is. -/
structure TxFormat (tx : NetMessageTransaction) : Prop where
  vin : tx.vin ≠ []
  vout : tx.vout ≠ []
  size : tx.getSerializeSize * witnessScaleFactor ≤ maxBlockWeight
  outNonneg : ∀ out ∈ tx.vout, 0 ≤ out.nValue
  sumOut : tx.sumOut ≤ maxMoney
  coinbase : tx.isCoinBase = true → ∀ txIn ∈ tx.vin, 2 ≤ txIn.scriptSig.length ∧ txIn.scriptSig.length ≤ 100

/-- What a spending transaction must satisfy against the ledger. -/
structure SpendOk (tx : NetMessageTransaction) : Prop where
  inputs : ∀ i txIn, tx.vin[i]? = some txIn → InputOk verifyScript ledger scriptFlags height tx i txIn
  nodup : (tx.vin.map TxIn.previousOutput).Nodup
  sumIn : ledger.sumIn tx ≤ maxMoney
  covered : tx.sumOut ≤ ledger.sumIn tx

/-- The transactions `CheckTransaction` accepts outside a reorganisation. -/
structure TxOk (tx : NetMessageTransaction) : Prop where
  format : TxFormat tx
  spend : tx.isCoinBase = false → SpendOk verifyScript ledger scriptFlags height tx

/-- The result `CheckTransaction` leaves: a spending transaction's fee replaces the tally. -/
def Ledger.resultAfter (tx : NetMessageTransaction) (result : CheckTransactionResult) : CheckTransactionResult where
  nFees := if tx.isCoinBase then result.nFees else ledger.sumIn tx - tx.sumOut
  nInputs := result.nInputs + tx.vin.length

theorem checkTransaction_returns (tx : NetMessageTransaction) (result : CheckTransactionResult) :
    ∃ r, checkTransaction verifyScript ledger scriptFlags height none tx result = .ok r := by
  obtain ⟨r, hInputs⟩ := checkInputs_returns verifyScript ledger scriptFlags height tx 0 tx.vin [] 0
  unfold checkTransaction
  simp only [hInputs]
  repeat' split
  all_goals first | exact ⟨_, rfl⟩ | contradiction

theorem coinbase_size_iff {tx : NetMessageTransaction} (hCoinBase : tx.isCoinBase = true) (default : TxIn) :
    ¬ ((tx.vin.headD default).scriptSig.length < 2 ∨ (tx.vin.headD default).scriptSig.length > 100) ↔
      ∀ txIn ∈ tx.vin, 2 ≤ txIn.scriptSig.length ∧ txIn.scriptSig.length ≤ 100 := by
  obtain ⟨txIn, hVin, -⟩ := (NetMessageTransaction.isCoinBase_iff tx).mp hCoinBase
  simp only [hVin, List.headD_cons, List.mem_singleton, forall_eq, not_or, gt_iff_lt, Nat.not_lt]

theorem checkOutputs_eq_some_sumOut {tx : NetMessageTransaction} (hFormat : TxFormat tx) :
    checkOutputs tx.vout 0 = some tx.sumOut := by
  have hSumNonneg : 0 ≤ tx.sumOut := by
    apply List.sum_nonneg
    intro value hValue
    obtain ⟨out, hMem, rfl⟩ := List.mem_map.mp hValue
    exact hFormat.outNonneg out hMem
  apply (checkOutputs_eq_some_iff _ _ _ (by decide)).mpr
  exact ⟨hFormat.outNonneg, (moneyRange_iff _).mpr ⟨hSumNonneg, hFormat.sumOut⟩, (Int.zero_add _).symm⟩

section Overlaid

variable (overlay : Option Overlay) {tx : NetMessageTransaction} (result : CheckTransactionResult)

theorem checkTransaction_of_not_format (hNot : ¬ TxFormat tx) :
    checkTransaction verifyScript ledger scriptFlags height overlay tx result = .ok none := by
  unfold checkTransaction
  dsimp only
  split
  · rfl
  case isFalse hVin =>
  split
  · rfl
  case isFalse hVout =>
  split
  · rfl
  case isFalse hSize =>
  split
  · rfl
  case h_2 valueOut hOut =>
  obtain ⟨hNonneg, hRange, hSum⟩ := (checkOutputs_eq_some_iff _ _ _ (by decide)).mp hOut
  rw [Int.zero_add] at hSum
  obtain rfl : valueOut = tx.sumOut := hSum
  have hMax := ((moneyRange_iff _).mp hRange).2
  have hFormat : (tx.isCoinBase = true →
      ∀ txIn ∈ tx.vin, 2 ≤ txIn.scriptSig.length ∧ txIn.scriptSig.length ≤ 100) → TxFormat tx :=
    fun hLength => ⟨by simpa using hVin, by simpa using hVout, Nat.le_of_not_lt hSize, hNonneg, hMax, hLength⟩
  split
  case isTrue hCoinBase =>
    rw [if_pos]
    apply Classical.byContradiction
    intro hLength
    exact hNot (hFormat fun _ => (coinbase_size_iff hCoinBase _).mp hLength)
  case isFalse hCoinBase => exact absurd (hFormat fun hIs => absurd hIs hCoinBase) hNot

theorem checkTransaction_of_coinbase (hFormat : TxFormat tx) (hCoinBase : tx.isCoinBase = true) :
    checkTransaction verifyScript ledger scriptFlags height overlay tx result =
      .ok (some { result with nInputs := result.nInputs + tx.vin.length }) := by
  unfold checkTransaction
  rw [if_neg (by simpa using hFormat.vin), if_neg (by simpa using hFormat.vout),
    if_neg (Nat.not_lt.mpr hFormat.size)]
  simp only [checkOutputs_eq_some_sumOut hFormat]
  rw [if_pos hCoinBase, if_neg ((coinbase_size_iff hCoinBase _).mpr (hFormat.coinbase hCoinBase))]

/-- Of a well-formed transaction that spends, the inputs and the sums decide. -/
theorem checkTransaction_of_spend (hFormat : TxFormat tx) (hSpend : tx.isCoinBase = false) :
    checkTransaction verifyScript ledger scriptFlags height overlay tx result =
      match checkInputs verifyScript ledger scriptFlags height overlay tx 0 tx.vin [] 0 with
      | .error fault => .error fault
      | .ok none => .ok none
      | .ok (some valueIn) =>
        if valueIn < tx.sumOut then .ok none
        else if !moneyRange (valueIn - tx.sumOut) then .ok none
        else .ok (some ⟨valueIn - tx.sumOut, result.nInputs + tx.vin.length⟩) := by
  unfold checkTransaction
  rw [if_neg (by simpa using hFormat.vin), if_neg (by simpa using hFormat.vout),
    if_neg (Nat.not_lt.mpr hFormat.size)]
  simp only [checkOutputs_eq_some_sumOut hFormat]
  exact (if_neg (by simpa using hSpend)).trans rfl

end Overlaid

theorem checkTransaction_eq_some_iff (tx : NetMessageTransaction) (result result' : CheckTransactionResult) :
    checkTransaction verifyScript ledger scriptFlags height none tx result = .ok (some result') ↔
      TxOk verifyScript ledger scriptFlags height tx ∧ result' = ledger.resultAfter tx result := by
  by_cases hFormat : TxFormat tx
  case neg =>
    rw [checkTransaction_of_not_format _ _ _ _ _ _ hFormat]
    constructor
    · intro h
      cases h
    · rintro ⟨hOk, -⟩
      exact absurd hOk.format hFormat
  cases hCoinBase : tx.isCoinBase with
  | true =>
    rw [checkTransaction_of_coinbase _ _ _ _ _ _ hFormat hCoinBase]
    have hAfter : ledger.resultAfter tx result = { result with nInputs := result.nInputs + tx.vin.length } := by
      simp [Ledger.resultAfter, hCoinBase]
    rw [hAfter]
    constructor
    · intro h
      cases h
      exact ⟨⟨hFormat, fun hNot => absurd (hCoinBase.symm.trans hNot) Bool.noConfusion⟩, rfl⟩
    · rintro ⟨-, rfl⟩
      rfl
  | false =>
    rw [checkTransaction_of_spend _ _ _ _ _ _ hFormat hCoinBase]
    have hAfter : ledger.resultAfter tx result =
        ⟨ledger.sumIn tx - tx.sumOut, result.nInputs + tx.vin.length⟩ := by
      simp [Ledger.resultAfter, hCoinBase]
    rw [hAfter]
    constructor
    · intro h
      split at h
      · cases h
      · cases h
      case h_3 valueIn hIn =>
      obtain ⟨hInputs, hNodup, -, hInRange, hInSum⟩ :=
        (checkInputs_eq_some_iff _ _ _ _ _ _ _ _ _ _ (by decide)).mp hIn
      rw [Int.zero_add] at hInSum
      obtain rfl : valueIn = ledger.sumIn tx := hInSum
      split at h
      · cases h
      case isFalse hCovered =>
      split at h
      · cases h
      cases h
      refine ⟨⟨hFormat, fun _ => ⟨fun i txIn hGet => ?_, hNodup, ((moneyRange_iff _).mp hInRange).2, ?_⟩⟩, rfl⟩
      · simpa using hInputs i txIn hGet
      · exact Int.not_lt.mp hCovered
    · rintro ⟨hOk, rfl⟩
      obtain ⟨hInputs, hNodup, hMax, hCovered⟩ := hOk.spend hCoinBase
      have hOutNonneg : 0 ≤ tx.sumOut := by
        obtain ⟨-, hRange, hSum⟩ :=
          (checkOutputs_eq_some_iff _ _ _ (by decide)).mp (checkOutputs_eq_some_sumOut hFormat)
        exact ((moneyRange_iff _).mp hRange).1
      have hInRange : moneyRange (ledger.sumIn tx) = true := (moneyRange_iff _).mpr ⟨by omega, hMax⟩
      have hIn : checkInputs verifyScript ledger scriptFlags height none tx 0 tx.vin [] 0 =
          .ok (some (ledger.sumIn tx)) := (checkInputs_eq_some_iff _ _ _ _ _ _ _ _ _ _ (by decide)).mpr
        ⟨fun i txIn hGet => by simpa using hInputs i txIn hGet, hNodup, by simp, hInRange, (Int.zero_add _).symm⟩
      have hFee : moneyRange (ledger.sumIn tx - tx.sumOut) = true := (moneyRange_iff _).mpr ⟨by omega, by omega⟩
      simp [hIn, hFee, Int.not_lt.mpr hCovered]

theorem checkTransactionsLoop_returns (vtx : List NetMessageTransaction) (result : CheckTransactionResult) :
    ∃ r, checkTransactionsLoop verifyScript ledger scriptFlags height none vtx result = .ok r := by
  induction vtx generalizing result with
  | nil => exact ⟨_, rfl⟩
  | cons tx rest ih =>
    obtain ⟨r, hr⟩ := checkTransaction_returns verifyScript ledger scriptFlags height tx result
    rw [checkTransactionsLoop, hr]
    cases r with
    | none => exact ⟨none, rfl⟩
    | some result => exact ih result

theorem checkTransactionsLoop_eq_some_iff (vtx : List NetMessageTransaction)
    (result result' : CheckTransactionResult) :
    checkTransactionsLoop verifyScript ledger scriptFlags height none vtx result = .ok (some result') ↔
      (∀ tx ∈ vtx, TxOk verifyScript ledger scriptFlags height tx) ∧
        result' = vtx.foldl (fun result tx => ledger.resultAfter tx result) result := by
  induction vtx generalizing result with
  | nil => simp [checkTransactionsLoop, eq_comm]
  | cons tx rest ih =>
    obtain ⟨r, hr⟩ := checkTransaction_returns verifyScript ledger scriptFlags height tx result
    rw [checkTransactionsLoop, hr, List.forall_mem_cons, List.foldl_cons]
    cases r with
    | none =>
      constructor
      · intro h
        cases h
      · rintro ⟨⟨hOk, -⟩, -⟩
        cases hr.symm.trans ((checkTransaction_eq_some_iff ..).mpr ⟨hOk, rfl⟩)
    | some next =>
      obtain ⟨hOk, rfl⟩ := (checkTransaction_eq_some_iff ..).mp hr
      rw [ih]
      exact ⟨fun h => ⟨⟨hOk, h.1⟩, h.2⟩, fun h => ⟨h.1.2, h.2⟩⟩

theorem checkTransactions_returns (vtx : List NetMessageTransaction) :
    ∃ r, checkTransactions verifyScript ledger scriptFlags height none vtx = .ok r :=
  checkTransactionsLoop_returns ..

/-- `CheckTransactions` accepts exactly the lists of good transactions, each judged against the same ledger. -/
theorem checkTransactions_eq_some_iff (vtx : List NetMessageTransaction) (result : CheckTransactionResult) :
    checkTransactions verifyScript ledger scriptFlags height none vtx = .ok (some result) ↔
      (∀ tx ∈ vtx, TxOk verifyScript ledger scriptFlags height tx) ∧
        result = vtx.foldl (fun result tx => ledger.resultAfter tx result) ⟨0, 0⟩ :=
  checkTransactionsLoop_eq_some_iff ..

end Transaction

end BitcoinGpuMiner
