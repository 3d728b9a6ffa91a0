import BitcoinGpuMiner.Script.Runs
import BitcoinGpuMiner.Script.SignedData

/-! # What a signature outside of witnesses covers

`CTransactionSignatureSerializer` writes a transaction that it never builds: a copy in which the script being executed
stands in the input that is signed, without its separators, and in which the hash type has taken parts away.
-/

namespace BitcoinGpuMiner

set_option autoImplicit false

open CScript Foundation SigHash

/-- A script that can be read to its end, and the same without its separators. -/
inductive WithoutSeparators : CScript → CScript → Prop
  | nil : WithoutSeparators [] []
  | separator {rest code : CScript} (hRest : WithoutSeparators rest code) :
      WithoutSeparators (OP_CODESEPARATOR :: rest) code
  | keep {op rest code : CScript} {opcode : UInt8} {data : Bytes} (hOp : getOp (op ++ rest) = .ok (opcode, data, rest))
      (hOther : opcode ≠ OP_CODESEPARATOR) (hRest : WithoutSeparators rest code) :
      WithoutSeparators (op ++ rest) (op ++ code)

namespace SignedInput

variable (signed : SignedInput) (code : CScript)

/-- The input at a position of the copy. -/
def copyInput (i : Nat) (txIn : TxIn) : TxIn :=
  if i = signed.nIn then ⟨txIn.previousOutput, code, txIn.sequence, []⟩
  else ⟨txIn.previousOutput, [], if isSingle signed.nHashType ∨ isNone signed.nHashType then 0 else txIn.sequence, []⟩

/-- The copy; `SIGHASH_SINGLE` cuts the outputs behind the one at the input's position and blanks those before it. -/
def copy : NetMessageTransaction where
  nVersion := signed.txTo.nVersion
  vin :=
    if isAnyoneCanPay signed.nHashType then [signed.copyInput code signed.nIn signed.txIn]
    else signed.txTo.vin.mapIdx (signed.copyInput code)
  vout :=
    if isNone signed.nHashType then []
    else if isSingle signed.nHashType then
      (signed.txTo.vout.take (signed.nIn + 1)).mapIdx fun i txOut => if i = signed.nIn then txOut else TxOut.null
    else signed.txTo.vout
  nLockTime := signed.txTo.nLockTime

/-- The hash type asks for an output that is not there. -/
def Bugged : Prop := isSingle signed.nHashType = true ∧ signed.txTo.vout.length ≤ signed.nIn

/-- The hash that `CheckSig` verifies a signature outside of witnesses against. -/
def legacyHash : Option Uint256 :=
  signatureHash signed.scriptCode signed.txTo signed.nIn signed.nHashType signed.amount .base
    (some (PrecomputedTransactionData.ofTransaction signed.txTo))

def legacyMessage : Bytes := (signed.copy code).serialize false ++ writeLE 4 signed.nHashType.toNat

end SignedInput

/-! ## The script without separators -/

namespace WithoutSeparators

variable {script code : CScript}

theorem length_le (hWithout : WithoutSeparators script code) : code.length ≤ script.length := by
  induction hWithout with
  | nil => exact Nat.le_refl _
  | separator hRest ih => exact Nat.le_succ_of_le ih
  | keep hOp hOther hRest ih => simpa using ih

theorem countSeparators_eq (hWithout : WithoutSeparators script code) {fuel n : Nat} (hFuel : script.length < fuel) :
    SignatureSerializer.countSeparators fuel script n + code.length = n + script.length := by
  induction hWithout generalizing fuel n with
  | nil =>
    obtain ⟨less, rfl⟩ := Nat.exists_eq_add_one.mpr (Nat.zero_lt_of_lt hFuel)
    rfl
  | separator hRest ih =>
    obtain ⟨less, rfl⟩ := Nat.exists_eq_add_one.mpr (Nat.zero_lt_of_lt hFuel)
    rw [List.length_cons] at hFuel
    rw [SignatureSerializer.countSeparators, getOp_plain _ (by decide)]
    dsimp only
    rw [if_pos rfl, ih (by omega), List.length_cons]
    omega
  | keep hOp hOther hRest ih =>
    obtain ⟨less, rfl⟩ := Nat.exists_eq_add_one.mpr (Nat.zero_lt_of_lt hFuel)
    have hShorter := (getOp_suffix hOp).2
    rw [SignatureSerializer.countSeparators, hOp]
    dsimp only
    rw [if_neg hOther, List.length_append, List.length_append]
    have hCount := @ih less n (by omega)
    omega

/-- `segment` is what has been read since the last separator. -/
theorem writeSegments_eq (hWithout : WithoutSeparators script code) {fuel : Nat} (hFuel : script.length < fuel)
    (segment s : Bytes) :
    SignatureSerializer.writeSegments fuel (segment ++ script) script s = s ++ segment ++ code := by
  induction hWithout generalizing fuel segment s with
  | nil =>
    obtain ⟨less, rfl⟩ := Nat.exists_eq_add_one.mpr (Nat.zero_lt_of_lt hFuel)
    simp [SignatureSerializer.writeSegments, getOp]
  | @separator rest code hRest ih =>
    obtain ⟨less, rfl⟩ := Nat.exists_eq_add_one.mpr (Nat.zero_lt_of_lt hFuel)
    rw [List.length_cons] at hFuel
    have hNext := @ih less (by omega) [] (s ++ segment)
    have hTake : (segment ++ OP_CODESEPARATOR :: rest).length - rest.length - 1 = segment.length := by
      rw [List.length_append, List.length_cons]
      omega
    rw [SignatureSerializer.writeSegments, getOp_plain _ (by decide)]
    dsimp only
    rw [if_pos rfl, hTake, List.take_left]
    rwa [List.append_nil] at hNext
  | @keep op rest code opcode data hOp hOther hRest ih =>
    obtain ⟨less, rfl⟩ := Nat.exists_eq_add_one.mpr (Nat.zero_lt_of_lt hFuel)
    have hShorter := (getOp_suffix hOp).2
    rw [SignatureSerializer.writeSegments, hOp]
    dsimp only
    rw [if_neg hOther, ← List.append_assoc, ih (by omega)]
    simp only [List.append_assoc]

theorem serializeScriptCode_eq (hWithout : WithoutSeparators script code) :
    SignatureSerializer.serializeScriptCode script = writeBytes code := by
  have hCount : SignatureSerializer.countSeparators (script.length + 1) script 0 + code.length = 0 + script.length :=
    hWithout.countSeparators_eq (Nat.lt_succ_self _)
  have hWrite : SignatureSerializer.writeSegments (script.length + 1) script script [] = code :=
    hWithout.writeSegments_eq (Nat.lt_succ_self _) [] []
  rw [SignatureSerializer.serializeScriptCode, writeBytes, hWrite]
  congr 2
  omega

end WithoutSeparators

/-! ## The serializer writes the copy -/

theorem flatMap_range_eq {α γ : Type} {items : List α} {f : Nat → Bytes} {change : Nat → α → γ} {write : γ → Bytes}
    (hItems : ∀ i a, items[i]? = some a → f i = write (change i a)) :
    (List.range items.length).flatMap f = (items.mapIdx change).flatMap write := by
  induction items generalizing f change with
  | nil => rfl
  | cons a items ih =>
    rw [List.length_cons, List.range_succ_eq_map, List.flatMap_cons, List.flatMap_map, List.mapIdx_cons,
      List.flatMap_cons, hItems 0 a rfl, ih fun i b hGet => hItems (i + 1) b hGet]

section Copy

variable {signed : SignedInput} {code : CScript} (hWithout : WithoutSeparators signed.scriptCode code)
include hWithout

theorem serializeInput_eq {nInput i : Nat} {txIn : TxIn}
    (hPlace : (if isAnyoneCanPay signed.nHashType then signed.nIn.val else nInput) = i)
    (hGet : signed.txTo.vin[i]? = some txIn) :
    SignatureSerializer.serializeInput signed.txTo signed.scriptCode signed.nIn signed.nHashType nInput =
      (signed.copyInput code i txIn).serialize := by
  simp only [SignatureSerializer.serializeInput, hPlace, hGet, hWithout.serializeScriptCode_eq]
  by_cases hSelf : i = signed.nIn
  · simp [SignedInput.copyInput, hSelf, TxIn.serialize]
  · by_cases hOpen : isSingle signed.nHashType = true ∨ isNone signed.nHashType = true
    · simp [SignedInput.copyInput, hSelf, hOpen, TxIn.serialize]
    · simp [SignedInput.copyInput, hSelf, hOpen, TxIn.serialize]

theorem inputs_eq : (let nInputs := if isAnyoneCanPay signed.nHashType then 1 else signed.txTo.vin.length
    writeCompactSize nInputs ++ (List.range nInputs).flatMap
      (SignatureSerializer.serializeInput signed.txTo signed.scriptCode signed.nIn signed.nHashType)) =
    writeVector TxIn.serialize (signed.copy code).vin := by
  rw [writeVector, SignedInput.copy]
  dsimp only
  split
  case isTrue hAny =>
    rw [List.length_singleton, List.flatMap_singleton, List.range_one, List.flatMap_singleton,
      serializeInput_eq hWithout (if_pos hAny) signed.getElem?_nIn]
  case isFalse hAll =>
    rw [List.length_mapIdx, flatMap_range_eq fun i txIn hGet => serializeInput_eq hWithout (if_neg hAll) hGet]

omit hWithout in
theorem outputs_eq (hFine : ¬ signed.Bugged) :
    (let nOutputs := if isNone signed.nHashType then 0 else if isSingle signed.nHashType then signed.nIn.val + 1
      else signed.txTo.vout.length
    writeCompactSize nOutputs ++ (List.range nOutputs).flatMap
      (SignatureSerializer.serializeOutput signed.txTo signed.nIn signed.nHashType)) =
    writeVector TxOut.serialize (signed.copy code).vout := by
  rw [writeVector, SignedInput.copy]
  dsimp only
  split
  case isTrue => rfl
  split
  case isTrue hSingle =>
    have hThere : signed.nIn.val < signed.txTo.vout.length := Nat.lt_of_not_le fun hLe => hFine ⟨hSingle, hLe⟩
    have hLength : (signed.txTo.vout.take (signed.nIn + 1)).length = signed.nIn + 1 := by
      rw [List.length_take]
      omega
    rw [List.length_mapIdx, hLength]
    nth_rewrite 2 [← hLength]
    rw [flatMap_range_eq]
    intro i txOut hGet
    rw [List.getElem?_take] at hGet
    split at hGet
    case isFalse => cases hGet
    case isTrue =>
      by_cases hSelf : i = signed.nIn
      · simp [SignatureSerializer.serializeOutput, ← hSelf, hGet]
      · simp [SignatureSerializer.serializeOutput, hSelf, hSingle]
  case isFalse hAll =>
    have hSame : signed.txTo.vout.mapIdx (fun _ txOut => txOut) = signed.txTo.vout := List.ext_getElem? (by simp)
    have hItems : ∀ i txOut, signed.txTo.vout[i]? = some txOut →
        SignatureSerializer.serializeOutput signed.txTo signed.nIn signed.nHashType i = txOut.serialize := by
      intro i txOut hGet
      simp [SignatureSerializer.serializeOutput, hAll, hGet]
    have hRange : (List.range signed.txTo.vout.length).flatMap
        (SignatureSerializer.serializeOutput signed.txTo signed.nIn signed.nHashType) =
        (signed.txTo.vout.mapIdx fun _ txOut => txOut).flatMap TxOut.serialize := flatMap_range_eq hItems
    rw [hRange, hSame]

theorem serialize_eq_copy (hFine : ¬ signed.Bugged) :
    SignatureSerializer.serialize signed.txTo signed.scriptCode signed.nIn signed.nHashType =
      (signed.copy code).serialize false := by
  rw [NetMessageTransaction.serialize_false, NetMessageTransaction.basicBody, ← inputs_eq hWithout, ← outputs_eq hFine,
    SignatureSerializer.serialize]
  simp only [List.append_assoc, List.append_nil]
  rfl

theorem legacyHash_eq (hFine : ¬ signed.Bugged) :
    signed.legacyHash = some (Sha256.doubleHash256 (signed.legacyMessage code)) := by
  rw [SignedInput.legacyHash, signatureHash, signed.getElem?_nIn, Option.map_some]
  dsimp only
  rw [if_neg (show ¬ (isSingle signed.nHashType = true ∧ signed.nIn.val ≥ signed.txTo.vout.length) from hFine),
    serialize_eq_copy hWithout hFine, SignedInput.legacyMessage]

/-- The copy can be written where the transaction can. -/
theorem copy_fits (hFits : signed.Fits) :
    (signed.copy code).Encodable ∧ ∀ txIn ∈ (signed.copy code).vin, txIn.scriptWitness = [] := by
  have hCode : code.length ≤ maxSize := Nat.le_trans hWithout.length_le hFits.scriptCode
  have hInput : ∀ i txIn, (signed.copyInput code i txIn).Encodable ∧ (signed.copyInput code i txIn).scriptWitness = [] := by
    intro i txIn
    rw [SignedInput.copyInput]
    split
    · exact ⟨⟨hCode, Nat.zero_le _, by simp⟩, rfl⟩
    · exact ⟨⟨Nat.zero_le _, Nat.zero_le _, by simp⟩, rfl⟩
  have hVin : (signed.copy code).vin.length ≤ maxSize ∧
      ∀ txIn ∈ (signed.copy code).vin, txIn.Encodable ∧ txIn.scriptWitness = [] := by
    rw [SignedInput.copy]
    dsimp only
    split
    · refine ⟨show 1 ≤ maxSize by decide, fun txIn hTxIn => ?_⟩
      rw [List.mem_singleton.mp hTxIn]
      exact hInput _ _
    · refine ⟨by rw [List.length_mapIdx]; exact hFits.txTo.inputs, fun txIn hTxIn => ?_⟩
      obtain ⟨i, hLt, rfl⟩ := List.mem_mapIdx.mp hTxIn
      exact hInput _ _
  have hVout : (signed.copy code).vout.length ≤ maxSize ∧ ∀ txOut ∈ (signed.copy code).vout, txOut.Encodable := by
    rw [SignedInput.copy]
    dsimp only
    split
    · exact ⟨Nat.zero_le _, by simp⟩
    split
    · refine ⟨?_, fun txOut hTxOut => ?_⟩
      · rw [List.length_mapIdx, List.length_take]
        exact Nat.le_trans (Nat.min_le_right _ _) hFits.txTo.outputs
      · obtain ⟨i, hLt, rfl⟩ := List.mem_mapIdx.mp hTxOut
        split
        · exact hFits.txTo.vout _ (List.mem_of_mem_take (List.getElem_mem _))
        · decide
    · exact ⟨hFits.txTo.outputs, hFits.txTo.vout⟩
  exact ⟨⟨hFits.txTo.low, hFits.txTo.high, hVin.1, hVout.1, fun txIn hTxIn => (hVin.2 txIn hTxIn).1, hVout.2⟩,
    fun txIn hTxIn => (hVin.2 txIn hTxIn).2⟩

end Copy

/-- For a signature outside of witnesses the serializer writes the copy, byte for byte. So two inputs are checked against
the same hash exactly if the copies and the hash types are the same, unless what is hashed collides. -/
theorem legacyHash_eq_iff_copy_eq {first second : SignedInput} (hFirst : first.Fits) (hSecond : second.Fits)
    {code code' : CScript} (hWithout : WithoutSeparators first.scriptCode code)
    (hWithout' : WithoutSeparators second.scriptCode code') (hFine : ¬ first.Bugged) (hFine' : ¬ second.Bugged)
    (hMessage : Sha256.doubleHash256 (first.legacyMessage code) = Sha256.doubleHash256 (second.legacyMessage code') →
      first.legacyMessage code = second.legacyMessage code') :
    SignatureSerializer.serialize first.txTo first.scriptCode first.nIn first.nHashType =
        (first.copy code).serialize false ∧
      SignatureSerializer.serialize second.txTo second.scriptCode second.nIn second.nHashType =
        (second.copy code').serialize false ∧
      (first.legacyHash = second.legacyHash ↔
        first.copy code = second.copy code' ∧ first.nHashType = second.nHashType) := by
  refine ⟨serialize_eq_copy hWithout hFine, serialize_eq_copy hWithout' hFine', ?_⟩
  rw [legacyHash_eq hWithout hFine, legacyHash_eq hWithout' hFine']
  constructor
  · intro hEq
    obtain ⟨hCopy, hType⟩ := separates_transaction _ _ (copy_fits hWithout hFirst) (copy_fits hWithout' hSecond) _ _
      (hMessage (Option.some.inj hEq))
    exact ⟨hCopy, eq_of_writeByte_eq hType⟩
  · rintro ⟨hCopy, hType⟩
    rw [SignedInput.legacyMessage, SignedInput.legacyMessage, hCopy, hType]

/-- The amount is not covered. -/
theorem legacyHash_eq_iff_copy_eq_amounts :
    SignatureSerializer.serialize (plainInput 6).txTo (plainInput 6).scriptCode (plainInput 6).nIn
        (plainInput 6).nHashType = ((plainInput 6).copy [OP_1]).serialize false ∧
      (plainInput 6).legacyHash = (plainInput 7).legacyHash := by
  have hOp : getOp ([OP_1] ++ []) = .ok (OP_1, [], []) := rfl
  have hCode : WithoutSeparators [OP_1] ([OP_1] ++ []) := .keep hOp (by decide) .nil
  have hFine : ∀ amount, ¬ (plainInput amount).Bugged := fun amount hBugged => absurd hBugged.2 (Nat.not_succ_le_zero 0)
  obtain ⟨hWritten, -, hSame⟩ := legacyHash_eq_iff_copy_eq ⟨by decide, by decide, by decide, by decide⟩
    ⟨by decide, by decide, by decide, by decide⟩ hCode hCode (hFine 6) (hFine 7) fun _ => rfl
  exact ⟨hWritten, hSame.mpr ⟨rfl, rfl⟩⟩

end BitcoinGpuMiner
