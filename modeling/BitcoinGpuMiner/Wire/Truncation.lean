import BitcoinGpuMiner.Wire.RoundTrip

/-! # Truncated input

A read past the end of the buffer returns in silence and the caller goes on with what its variable held. A
transaction that ends inside its lock time is taken for complete, and so is an empty buffer if memory is zero.
-/

namespace BitcoinGpuMiner

open Foundation

set_option autoImplicit false

/-- What an uninitialised number of `count` bytes holds. -/
def staleNumber (stale : Nat → UInt8) (count : Nat) : Nat := readLE ((List.range count).map stale)

section Numbers

variable {count : Nat} {cursor : Cursor UInt8}

theorem nonempty_target (stale : Nat → UInt8) (hSome : count ≠ 0) : ¬ ((List.range count).map stale).isEmpty = true := by
  rw [List.isEmpty_map, List.isEmpty_iff, List.range_eq_nil]
  exact hSome

theorem readData_of_le (stale : Nat → UInt8) (hSome : count ≠ 0) (hEnough : cursor.pos.toNat + count ≤ cursor.data.length) :
    readData stale count cursor = .ok (readLE ((cursor.data.drop cursor.pos.toNat).take count),
      { cursor with pos := cursor.pos + .ofNat count }) := by
  have hRead : (Parser.read ((List.range count).map stale) : Reader Bytes) cursor =
      .ok ((cursor.data.drop cursor.pos.toNat).take count, { cursor with pos := cursor.pos + .ofNat count }) := by
    rw [Parser.read, if_neg (nonempty_target stale hSome), List.length_map, List.length_range,
      if_neg (Nat.not_lt.mpr hEnough)]
  exact Parser.run_bind hRead

theorem readData_of_lt (stale : Nat → UInt8) (hSome : count ≠ 0) (hShort : cursor.data.length < cursor.pos.toNat + count) :
    readData stale count cursor = .ok (staleNumber stale count, { cursor with short := true }) := by
  have hRead : (Parser.read ((List.range count).map stale) : Reader Bytes) cursor =
      .ok ((List.range count).map stale, { cursor with short := true }) := by
    rw [Parser.read, if_neg (nonempty_target stale hSome), if_pos (by rwa [List.length_map, List.length_range])]
  exact Parser.run_bind hRead

/-- A number depends on nothing but the buffer exactly when the buffer has all its bytes. -/
theorem readData_determined_iff : (∀ stale stale' : Nat → UInt8,
      readData stale count cursor = readData stale' count cursor) ↔
    count = 0 ∨ cursor.pos.toNat + count ≤ cursor.data.length := by
  constructor
  · intro hDetermined
    by_contra hShort
    obtain ⟨hSome, hLt⟩ := not_or.mp hShort
    have hSame := hDetermined (fun _ => 0) (fun _ => 1)
    rw [readData_of_lt _ hSome (by omega), readData_of_lt _ hSome (by omega)] at hSame
    have hZero (bytes : List Nat) : readLE (bytes.map fun _ => 0) = 0 := by
      induction bytes with
      | nil => rfl
      | cons byte bytes ih => rw [List.map_cons, readLE_cons, ih]; rfl
    obtain ⟨fewer, rfl⟩ := Nat.exists_eq_succ_of_ne_zero hSome
    injection hSame with hSame
    injection hSame with hSame
    rw [staleNumber, staleNumber, hZero, List.range_succ_eq_map, List.map_cons, readLE_cons] at hSame
    have hOne : (1 : UInt8).toNat = 1 := rfl
    omega
  · intro hEnough stale stale'
    by_cases hSome : count = 0
    · rw [hSome]
      rfl
    · have hEnough := hEnough.resolve_left hSome
      rw [readData_of_le stale hSome hEnough, readData_of_le stale' hSome hEnough]

end Numbers

namespace NetMessageTransaction

/-- Every strict prefix of the serialization is reported, whatever memory holds. -/
def RejectsTruncated (tx : NetMessageTransaction) : Prop :=
  ∀ (stale : Nat → UInt8) (data : Bytes), data <+: tx.serialize true → data ≠ tx.serialize true →
    ∃ fault, unserialize stale true ⟨data, 0, false⟩ = .error fault

def cutShort (tx : NetMessageTransaction) (cut : Nat) : Bytes :=
  (tx.serialize true).take ((tx.serialize true).length - cut)

theorem cutShort_prefix (tx : NetMessageTransaction) {cut : Nat} (hCut : 0 < cut)
    (hLength : cut ≤ (tx.serialize true).length) :
    tx.cutShort cut <+: tx.serialize true ∧ tx.cutShort cut ≠ tx.serialize true := by
  refine ⟨List.take_prefix _ _, ?_⟩
  intro hEq
  have hSame := congrArg List.length hEq
  rw [cutShort, List.length_take] at hSame
  omega

/-- Nothing is reported when the end of the lock time is missing: it becomes what memory holds. -/
theorem Encodable.unserialize_cutShort {tx : NetMessageTransaction} (hEncodable : tx.Encodable) (hVin : tx.vin ≠ [])
    (hBound : (tx.serialize true).length < 2 ^ 32) (stale : Nat → UInt8) {cut : Nat} (hCut : 0 < cut) (hLock : cut ≤ 4) :
    unserialize stale true ⟨tx.cutShort cut, 0, false⟩ =
      .ok ({ tx with nLockTime := UInt32.ofNat (staleNumber stale 4) },
        ⟨tx.cutShort cut, .ofNat ((tx.serialize true).length - 4), true⟩) := by
  obtain ⟨body, hWrite, hBody⟩ := hEncodable.exists_body hVin stale
  have hLength : (writeLE 4 tx.nLockTime.toNat).length = 4 := length_writeLE 4 _
  have hCutShort : tx.cutShort cut = body ++ (writeLE 4 tx.nLockTime.toNat).take (4 - cut) := by
    rw [cutShort, hWrite, List.length_append, hLength, Nat.add_sub_assoc hLock, List.take_length_add_append]
  have hPos : (tx.serialize true).length - 4 = body.length := by
    rw [hWrite, List.length_append, hLength]
    omega
  have hBodyBound : body.length < 2 ^ 32 := by omega
  have hShort : (body ++ (writeLE 4 tx.nLockTime.toNat).take (4 - cut)).length < (UInt32.ofNat body.length).toNat + 4 := by
    rw [toNat_ofNat_length hBodyBound, List.length_append, List.length_take]
    omega
  have hBodyRun := hBody.run hBodyBound ((writeLE 4 tx.nLockTime.toNat).take (4 - cut))
  have hLockRun : readUInt32 stale ⟨body ++ (writeLE 4 tx.nLockTime.toNat).take (4 - cut), .ofNat body.length, false⟩ = _ :=
    Parser.run_bind (readData_of_lt stale (by decide) hShort)
  rw [unserialize_eq_readBody, hCutShort, hPos, Parser.run_bind hBodyRun, Parser.run_bind hLockRun]
  rfl

/-- Nothing to read at all, over memory that is zero. -/
theorem unserialize_empty : unserialize (fun _ => 0) true ⟨[], 0, false⟩ =
    .ok (⟨[], [], Int.bmod 0 (2 ^ (8 * 4)), 0⟩, ⟨[], 0, true⟩) := rfl

theorem not_rejectsTruncated (tx : NetMessageTransaction) : ¬ tx.RejectsTruncated := by
  intro hRejects
  have hSome : tx.serialize true ≠ [] := by
    intro hNil
    have hLength := congrArg List.length hNil
    simp [serialize] at hLength
  obtain ⟨fault, hFault⟩ := hRejects (fun _ => 0) [] (List.nil_prefix) hSome.symm
  rw [unserialize_empty] at hFault
  cases hFault

end NetMessageTransaction

/-- No transaction has all its strict prefixes rejected, not one of them is if it ends inside the lock time (at a
position that 32 bits can hold), and a number that is not in the buffer comes from memory. -/
theorem truncated_never_rejected (tx : NetMessageTransaction) :
    ¬ tx.RejectsTruncated ∧
    (∀ (stale : Nat → UInt8) (cut : Nat), tx.Encodable → tx.vin ≠ [] → (tx.serialize true).length < 2 ^ 32 →
      0 < cut → cut ≤ 4 → NetMessageTransaction.unserialize stale true ⟨tx.cutShort cut, 0, false⟩ =
        .ok ({ tx with nLockTime := UInt32.ofNat (staleNumber stale 4) },
          ⟨tx.cutShort cut, .ofNat ((tx.serialize true).length - 4), true⟩)) ∧
    ∀ (count : Nat) (cursor : Cursor UInt8),
      (∀ stale stale' : Nat → UInt8, readData stale count cursor = readData stale' count cursor) ↔
        count = 0 ∨ cursor.pos.toNat + count ≤ cursor.data.length := by
  refine ⟨tx.not_rejectsTruncated, ?_, fun _ _ => readData_determined_iff⟩
  intro stale cut hEncodable hVin hBound hCut hLock
  exact hEncodable.unserialize_cutShort hVin hBound stale hCut hLock

theorem encodable_genesisTransaction : genesisTransaction.Encodable := by decide +kernel

theorem length_genesisTransaction : 1 ≤ (genesisTransaction.serialize true).length ∧
    (genesisTransaction.serialize true).length < 2 ^ 32 := by decide +kernel

theorem truncated_never_rejected_genesis : NetMessageTransaction.unserialize (fun _ => 7) true
    ⟨genesisTransaction.cutShort 1, 0, false⟩ = .ok ({ genesisTransaction with nLockTime := 0x07070707 },
      ⟨genesisTransaction.cutShort 1, .ofNat ((genesisTransaction.serialize true).length - 4), true⟩) :=
  (truncated_never_rejected genesisTransaction).2.1 (fun _ => 7) 1 encodable_genesisTransaction (by decide)
    length_genesisTransaction.2 (by decide) (by decide)

/-- The genesis transaction without its last byte: its lock time is whatever was in memory. -/
theorem exists_truncated_accepted : ∃ (tx : NetMessageTransaction) (data : Bytes) (stale stale' : Nat → UInt8)
    (decoded decoded' : NetMessageTransaction) (cursor : Cursor UInt8),
    (data <+: tx.serialize true ∧ data ≠ tx.serialize true) ∧
      NetMessageTransaction.unserialize stale true ⟨data, 0, false⟩ = .ok (decoded, cursor) ∧
      NetMessageTransaction.unserialize stale' true ⟨data, 0, false⟩ = .ok (decoded', cursor) ∧ decoded ≠ decoded' := by
  have hCut (stale : Nat → UInt8) := encodable_genesisTransaction.unserialize_cutShort (by decide)
    length_genesisTransaction.2 stale Nat.one_pos (by decide : 1 ≤ 4)
  exact ⟨genesisTransaction, genesisTransaction.cutShort 1, fun _ => 7, fun _ => 8, _, _, _,
    genesisTransaction.cutShort_prefix Nat.one_pos length_genesisTransaction.1, hCut _, hCut _, by decide⟩

end BitcoinGpuMiner
