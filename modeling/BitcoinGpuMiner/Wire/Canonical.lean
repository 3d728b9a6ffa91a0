import BitcoinGpuMiner.Wire.RoundTrip

/-! # What was read is written again

The reader takes a transaction in the basic or in the extended format. The writer uses the extended one only if
there is a witness, so the same bytes come back unless the extended format was used for nothing.
-/

namespace BitcoinGpuMiner

open Foundation

set_option autoImplicit false

variable {stale : Nat → UInt8}

theorem OutPoint.consumes : Consumes (OutPoint.unserialize stale) (fun pt w => w = pt.serialize) := by
  refine (consumes_uint256.bind fun hash => consumes_uint32.map).mono ?_
  rintro pt w ⟨hash, _, _, rfl, ⟨idx, rfl, rfl⟩, rfl⟩
  rfl

/-- An input as the reader leaves it before the witnesses. -/
def TxIn.Bare (txIn : TxIn) : Prop := txIn.scriptSig.length ≤ maxSize ∧ txIn.scriptWitness = []

theorem TxIn.consumes : Consumes (TxIn.unserialize stale) (fun txIn w => w = txIn.serialize ∧ txIn.Bare) := by
  refine (OutPoint.consumes.bind fun pt => consumes_bytes.bind fun script => consumes_uint32.map).mono ?_
  rintro txIn w ⟨pt, _, _, rfl, ⟨script, _, _, ⟨rfl, hScript⟩, ⟨sequence, rfl, rfl⟩, rfl⟩, rfl⟩
  exact ⟨(List.append_assoc ..).symm, hScript, rfl⟩

theorem TxOut.consumes : Consumes (TxOut.unserialize stale) (fun txOut w => w = txOut.serialize ∧ txOut.Encodable) := by
  refine ((consumes_int 8).bind fun nValue => consumes_bytes.map).mono ?_
  rintro txOut w ⟨nValue, _, _, ⟨rfl, hLow, hHigh⟩, ⟨script, rfl, rfl, hScript⟩, rfl⟩
  have hRange : -2 ^ 63 ≤ nValue ∧ nValue < 2 ^ 63 := by omega
  exact ⟨rfl, hRange.1, hRange.2, hScript⟩

namespace NetMessageTransaction

structure Inputs.Bare (inputs : Inputs) : Prop where
  countIn : inputs.vin.length ≤ maxSize
  countOut : inputs.vout.length ≤ maxSize
  vin : ∀ txIn ∈ inputs.vin, txIn.Bare
  vout : ∀ txOut ∈ inputs.vout, txOut.Encodable

def Inputs.write (inputs : Inputs) : Bytes :=
  writeVector TxIn.serialize inputs.vin ++ writeVector TxOut.serialize inputs.vout

/-- Behind the empty vector that announces the flags. -/
theorem consumes_flagged : Consumes
    (do
      let flags ← readData stale 1
      if flags ≠ 0 then do
        let vin ← readVector stale (TxIn.unserialize stale)
        let vout ← readVector stale (TxOut.unserialize stale)
        pure ⟨flags, vin, vout⟩
      else pure ⟨flags, [], []⟩ : Reader Inputs)
    (fun inputs w => inputs.vin ≠ [] →
      inputs.flags ≠ 0 ∧ inputs.Bare ∧ w = writeLE 1 inputs.flags ++ inputs.write) := by
  let after (flags : Nat) (inputs : Inputs) (w : Bytes) : Prop :=
    inputs.vin ≠ [] → flags ≠ 0 ∧ inputs.flags = flags ∧ inputs.Bare ∧ w = inputs.write
  refine ((consumes_data 1).bind (?_ : ∀ flags, Consumes _ (after flags))).mono ?_
  · intro flags
    split
    case isTrue hFlags =>
      refine ((consumes_vector TxIn.consumes).bind fun vin => (consumes_vector TxOut.consumes).map).mono ?_
      rintro inputs w ⟨vin, _, _, ⟨rfl, hCountIn, hVin⟩, ⟨vout, rfl, rfl, hCountOut, hVout⟩, rfl⟩ _
      exact ⟨hFlags, rfl, ⟨hCountIn, hCountOut, hVin, hVout⟩, rfl⟩
    case isFalse =>
      refine (Consumes.ret _).mono ?_
      rintro inputs w ⟨rfl, rfl⟩ hSome
      exact absurd rfl hSome
  · rintro inputs w ⟨flags, _, _, ⟨rfl, -⟩, hAfter, rfl⟩ hSome
    obtain ⟨hFlags, rfl, hBare, rfl⟩ := hAfter hSome
    exact ⟨hFlags, hBare, rfl⟩

theorem consumes_inputs : Consumes (readInputs stale true) (fun inputs w => inputs.vin ≠ [] → inputs.Bare ∧
    (inputs.flags = 0 ∧ w = inputs.write ∨
      inputs.flags ≠ 0 ∧ w = writeCompactSize 0 ++ (writeLE 1 inputs.flags ++ inputs.write))) := by
  let after (vin : List TxIn) (inputs : Inputs) (w : Bytes) : Prop :=
    vin.length ≤ maxSize ∧ (∀ txIn ∈ vin, txIn.Bare) → inputs.vin ≠ [] → inputs.Bare ∧
      (inputs.flags = 0 ∧ writeVector TxIn.serialize vin ++ w = inputs.write ∨
        inputs.flags ≠ 0 ∧ vin = [] ∧ w = writeLE 1 inputs.flags ++ inputs.write)
  unfold readInputs
  refine ((consumes_vector TxIn.consumes).bind (?_ : ∀ vin, Consumes _ (after vin))).mono ?_
  · intro vin
    split
    case isTrue hEmpty =>
      rw [Bool.and_true, List.isEmpty_iff] at hEmpty
      rw [hEmpty]
      refine consumes_flagged.mono ?_
      intro inputs w hFlagged _ hSome
      obtain ⟨hFlags, hBare, hWrite⟩ := hFlagged hSome
      exact ⟨hBare, .inr ⟨hFlags, rfl, hWrite⟩⟩
    case isFalse =>
      refine (consumes_vector TxOut.consumes).map.mono ?_
      rintro inputs w ⟨vout, rfl, rfl, hCountOut, hVout⟩ ⟨hCountIn, hVin⟩ _
      exact ⟨⟨hCountIn, hCountOut, hVin, hVout⟩, .inl ⟨rfl, rfl⟩⟩
  · rintro inputs w ⟨vin, _, _, ⟨rfl, hVin⟩, hAfter, rfl⟩ hSome
    obtain ⟨hBare, hBasic | ⟨hFlags, rfl, rfl⟩⟩ := hAfter hVin hSome
    · exact ⟨hBare, .inl hBasic⟩
    · exact ⟨hBare, .inr ⟨hFlags, rfl⟩⟩

/-- The stack that is read replaces the one of the input. -/
theorem consumes_witness (txIn : TxIn) : Consumes (readWitness stale txIn)
    (fun read w => read.stripped = txIn.stripped ∧ w = writeVector writeBytes read.scriptWitness ∧
      read.scriptWitness.length ≤ maxSize ∧ ∀ item ∈ read.scriptWitness, item.length ≤ maxSize) := by
  refine (consumes_vector consumes_bytes).map.mono ?_
  rintro read w ⟨stack, rfl, rfl, hStack, hItems⟩
  exact ⟨rfl, rfl, hStack, hItems⟩

theorem consumes_witnesses (inputs : Inputs) : Consumes (readWitnesses stale true inputs)
    (fun read w => inputs.flags &&& 1 = 0 ∧ read = inputs ∧ w = [] ∨
      inputs.flags &&& 1 ≠ 0 ∧ read.flags = inputs.flags ^^^ 1 ∧ read.vout = inputs.vout ∧
        read.vin.map TxIn.stripped = inputs.vin.map TxIn.stripped ∧
        w = (read.vin.flatMap fun txIn => writeVector writeBytes txIn.scriptWitness) ∧
        ∀ txIn ∈ read.vin, txIn.scriptWitness.length ≤ maxSize ∧ ∀ item ∈ txIn.scriptWitness, item.length ≤ maxSize) := by
  rw [readWitnesses]
  split
  case isTrue hOdd =>
    rw [Bool.and_true, decide_eq_true_iff] at hOdd
    refine (Consumes.each consumes_witness inputs.vin).map.mono ?_
    rintro read w ⟨vin, rfl, hSame, rfl, hStacks⟩
    exact .inr ⟨hOdd, rfl, rfl, hSame, rfl, hStacks⟩
  case isFalse hEven =>
    rw [Bool.and_true, decide_eq_true_iff, Decidable.not_not] at hEven
    refine (Consumes.ret inputs).mono ?_
    rintro read w ⟨rfl, rfl⟩
    exact .inl ⟨hEven, rfl, rfl⟩

theorem Inputs.flags_of_cleared {inputs : Inputs} (hSome : inputs.cleared.vin ≠ []) : inputs.flags = 0 := by
  by_contra hFlags
  rw [cleared, if_pos hFlags] at hSome
  exact hSome rfl

theorem Inputs.Bare.encodable {inputs read : Inputs} (hBare : inputs.Bare)
    (hSame : read.vin.map TxIn.stripped = inputs.vin.map TxIn.stripped) (hVout : read.vout = inputs.vout)
    (hStacks : ∀ txIn ∈ read.vin,
      txIn.scriptWitness.length ≤ maxSize ∧ ∀ item ∈ txIn.scriptWitness, item.length ≤ maxSize)
    {nVersion : Int} (hLow : -2 ^ 31 ≤ nVersion) (hHigh : nVersion < 2 ^ 31) (nLockTime : UInt32) :
    Encodable ⟨read.vin, read.vout, nVersion, nLockTime⟩ := by
  have hLength := congrArg List.length hSame
  rw [List.length_map, List.length_map] at hLength
  refine ⟨hLow, hHigh, hLength ▸ hBare.countIn, hVout ▸ hBare.countOut, ?_, hVout ▸ hBare.vout⟩
  intro txIn hTxIn
  have hMem : txIn.stripped ∈ inputs.vin.map TxIn.stripped := hSame ▸ List.mem_map_of_mem hTxIn
  obtain ⟨source, hSource, hEq⟩ := List.mem_map.mp hMem
  have hScript : source.stripped.scriptSig = txIn.stripped.scriptSig := congrArg TxIn.scriptSig hEq
  rw [TxIn.stripped, TxIn.stripped] at hScript
  exact ⟨hScript ▸ (hBare.vin source hSource).1, (hStacks txIn hTxIn).1, (hStacks txIn hTxIn).2⟩

/-- Every transaction with inputs was read from its extended form, or has no witness and was read from what is
written for it. -/
theorem consumes_unserialize : Consumes (unserialize stale true) (fun tx w => tx.vin ≠ [] →
    tx.Encodable ∧ (w = tx.extendedForm ∨ tx.hasWitness = false ∧ w = tx.serialize true)) := by
  refine ((consumes_int 4).bind fun nVersion => consumes_inputs.bind fun inputs =>
    (consumes_witnesses inputs).bind fun read => consumes_uint32.map).mono ?_
  rintro tx w ⟨nVersion, _, _, ⟨rfl, hLow, hHigh⟩,
    ⟨inputs, first, _, hInputs, ⟨read, second, _, hRead, ⟨nLockTime, rfl, rfl⟩, rfl⟩, rfl⟩, rfl⟩ hSome
  have hFlags : read.flags = 0 := Inputs.flags_of_cleared hSome
  have hCleared : read.cleared = read := by rw [Inputs.cleared, if_neg (not_not.mpr hFlags)]
  rw [hCleared] at hSome ⊢
  have hRange : -2 ^ 31 ≤ nVersion ∧ nVersion < 2 ^ 31 := by omega
  obtain ⟨-, rfl, rfl⟩ | ⟨-, hXor, hVout, hSame, rfl, hStacks⟩ := hRead
  · obtain ⟨hBare, ⟨-, rfl⟩ | ⟨hNe, -⟩⟩ := hInputs hSome
    · have hStacks : ∀ txIn ∈ read.vin,
          txIn.scriptWitness.length ≤ maxSize ∧ ∀ item ∈ txIn.scriptWitness, item.length ≤ maxSize := by
        intro txIn hTxIn
        rw [(hBare.vin txIn hTxIn).2]
        exact ⟨Nat.zero_le _, fun _ hNil => absurd hNil List.not_mem_nil⟩
      have hNone : hasWitness ⟨read.vin, read.vout, nVersion, nLockTime⟩ = false := by
        refine List.any_eq_false.mpr ?_
        intro txIn hTxIn
        rw [(hBare.vin txIn hTxIn).2]
        decide
      refine ⟨hBare.encodable rfl rfl hStacks hRange.1 hRange.2 nLockTime, .inr ⟨hNone, ?_⟩⟩
      rw [serialize_of_noWitness hNone, serialize_false]
      simp only [basicBody, Inputs.write, List.append_assoc, List.nil_append]
    · exact absurd hFlags hNe
  · have hOne : inputs.flags = 1 := by
      rw [← Nat.xor_zero inputs.flags, ← Nat.xor_self 1, ← Nat.xor_assoc, ← hXor, hFlags, Nat.zero_xor]
    have hSource : inputs.vin ≠ [] := by
      intro hNil
      rw [hNil, List.map_nil, List.map_eq_nil_iff] at hSame
      exact hSome hSame
    obtain ⟨hBare, ⟨hZero, -⟩ | ⟨-, rfl⟩⟩ := hInputs hSource
    · omega
    · refine ⟨hBare.encodable hSame hVout hStacks hRange.1 hRange.2 nLockTime, .inl ?_⟩
      have hVin : writeVector TxIn.serialize inputs.vin = writeVector TxIn.serialize read.vin := by
        rw [← TxIn.writeVector_stripped, ← hSame, TxIn.writeVector_stripped]
      rw [Inputs.write, hOne, hVin, ← hVout]
      simp only [extendedForm, extendedBody, List.append_assoc]
      rfl

/-- `data` is one transaction with inputs and nothing else. -/
def ReadsAll (stale : Nat → UInt8) (data : Bytes) (tx : NetMessageTransaction) : Prop :=
  (∃ pos : UInt32, pos.toNat = data.length ∧ unserialize stale true ⟨data, 0, false⟩ = .ok (tx, ⟨data, pos, false⟩)) ∧
    tx.vin ≠ []

/-- The extended format without any witness in it. -/
def IdleExtended (data : Bytes) : Prop :=
  ∃ tx : NetMessageTransaction, tx.Encodable ∧ tx.hasWitness = false ∧ data = tx.extendedForm

theorem readsAll_of_reads {data : Bytes} {tx : NetMessageTransaction} (hReads : Reads (unserialize stale true) data tx)
    (hBound : data.length < 2 ^ 32) (hVin : tx.vin ≠ []) : ReadsAll stale data tx :=
  ⟨⟨_, toNat_ofNat_length hBound, hReads.run_all hBound⟩, hVin⟩

theorem extendedForm_ne_serialize {tx : NetMessageTransaction} (hNone : tx.hasWitness = false) :
    tx.extendedForm ≠ tx.serialize true := by
  intro hEq
  have hLength := congrArg List.length hEq
  rw [serialize_of_noWitness hNone, serialize_false] at hLength
  simp only [extendedForm, extendedBody, basicBody, List.length_append, List.length_cons, List.length_nil] at hLength
  omega

theorem ReadsAll.serialize_iff {data : Bytes} {tx : NetMessageTransaction} (hReads : ReadsAll stale data tx) :
    tx.serialize true = data ↔ ¬ IdleExtended data := by
  obtain ⟨⟨pos, hEnd, hRun⟩, hVin⟩ := hReads
  constructor
  · rintro rfl ⟨idle, hEncodable, hNone, hData⟩
    have hReads : Reads (unserialize stale true) idle.extendedForm idle := hEncodable.reads_extendedForm
    have hBound : idle.extendedForm.length < 2 ^ 32 := by
      rw [← hData, ← hEnd]
      exact pos.toNat_lt
    have hIdle := hReads.run_all hBound
    rw [← hData, hRun] at hIdle
    cases hIdle
    exact extendedForm_ne_serialize hNone hData.symm
  · intro hUsed
    obtain ⟨hEncodable, rfl | ⟨-, rfl⟩⟩ := consumes_unserialize.all hEnd hRun hVin
    · cases hWitness : tx.hasWitness with
      | true => exact serialize_of_hasWitness hWitness
      | false => exact absurd ⟨tx, hEncodable, hWitness, rfl⟩ hUsed
    · rfl

end NetMessageTransaction

/-- Bytes come back as they were unless they use the extended format for no witness; apart from those, no two
byte strings give the same transaction. -/
theorem canonical_iff_not_idle (stale : Nat → UInt8) :
    (∀ (data : Bytes) (tx : NetMessageTransaction), tx.ReadsAll stale data →
      (tx.serialize true = data ↔ ¬ NetMessageTransaction.IdleExtended data)) ∧
    ∀ (data data' : Bytes) (tx : NetMessageTransaction), tx.ReadsAll stale data → tx.ReadsAll stale data' →
      ¬ NetMessageTransaction.IdleExtended data → ¬ NetMessageTransaction.IdleExtended data' → data = data' := by
  constructor
  · intro data tx hReads
    exact hReads.serialize_iff
  · intro data data' tx hReads hReads' hUsed hUsed'
    exact (hReads.serialize_iff.mpr hUsed).symm.trans (hReads'.serialize_iff.mpr hUsed')

namespace IdleExample

def spend : NetMessageTransaction := ⟨[⟨OutPoint.null, [1], 2, []⟩], [⟨5, [4]⟩], 1, 6⟩

def signed : NetMessageTransaction := ⟨[⟨OutPoint.null, [1], 2, [[3]]⟩], [⟨5, [4]⟩], 1, 6⟩

theorem readsAll_signed : signed.ReadsAll (fun _ => 0) signed.extendedForm :=
  NetMessageTransaction.readsAll_of_reads (NetMessageTransaction.Encodable.reads_extendedForm (by decide)) (by decide)
    (by decide)

theorem readsAll_spend : spend.ReadsAll (fun _ => 0) (spend.serialize true) ∧
    spend.ReadsAll (fun _ => 0) spend.extendedForm := by
  have hEncodable : spend.Encodable := by decide
  have hVin : spend.vin ≠ [] := by decide
  exact ⟨NetMessageTransaction.readsAll_of_reads (hEncodable.reads_true hVin) (by decide) hVin,
    NetMessageTransaction.readsAll_of_reads hEncodable.reads_extendedForm (by decide) hVin⟩

end IdleExample

theorem canonical_iff_not_idle_signed : ¬ NetMessageTransaction.IdleExtended IdleExample.signed.extendedForm :=
  ((canonical_iff_not_idle (fun _ => 0)).1 _ _ IdleExample.readsAll_signed).mp (by decide)

/-- Two byte strings for one transaction, and the longer one is not written again. -/
theorem exists_two_encodings : ∃ (tx : NetMessageTransaction) (data data' : Bytes),
    tx.ReadsAll (fun _ => 0) data ∧ tx.ReadsAll (fun _ => 0) data' ∧ data ≠ data' ∧ tx.serialize true ≠ data :=
  ⟨IdleExample.spend, IdleExample.spend.extendedForm, IdleExample.spend.serialize true, IdleExample.readsAll_spend.2,
    IdleExample.readsAll_spend.1, by decide, by decide⟩

end BitcoinGpuMiner
