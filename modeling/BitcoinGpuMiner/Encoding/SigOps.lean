import BitcoinGpuMiner.Encoding.ScriptOps

/-! # Operations of scripts and what they count

Where `GetOp` reads an operation, and the signature operations of a script as a number without a bound. Number pushes,
witness programs and the commitment output, which a coinbase of this node is made of, have none.
-/

namespace BitcoinGpuMiner

set_option autoImplicit false

/-- A version opcode and one push of 2 to 40 bytes. -/
structure WitnessScript (script : CScript) : Prop where
  shape : ∃ (version : UInt8) (program : Bytes), script = version :: UInt8.ofNat program.length :: program ∧
    (version = 0x00 ∨ (0x51 ≤ version ∧ version ≤ 0x60)) ∧ 2 ≤ program.length ∧ program.length ≤ 40

theorem WitnessScript.length_le {script : CScript} (hScript : WitnessScript script) : script.length ≤ 42 := by
  obtain ⟨version, program, rfl, -, -, hLong⟩ := hScript.shape
  rw [List.length_cons, List.length_cons]
  omega

namespace CScript

section Operations

variable {pc rest : CScript} {opcode : UInt8} {data : Bytes}

/-- The bytes between an opcode and its operand, for an operand of `n` bytes. -/
def SizeBytes (opcode : UInt8) (size : Bytes) (n : Nat) : Prop :=
  if opcode < OP_PUSHDATA1 then size = [] ∧ n = opcode.toNat
  else if opcode = OP_PUSHDATA1 then size.length = 1 ∧ n = readLE size
  else if opcode = OP_PUSHDATA2 then size.length = 2 ∧ n = readLE size
  else if opcode = OP_PUSHDATA4 then size.length = 4 ∧ n = readLE size
  else size = [] ∧ n = 0

theorem operand_ok_iff {opcode' : UInt8} {nSize : Nat} : getOp.operand opcode' nSize pc = .ok (opcode, data, rest) ↔
    opcode = opcode' ∧ pc = data ++ rest ∧ data.length = nSize := by
  rw [getOp.operand]
  constructor
  · intro h
    split at h
    case isTrue => cases h
    case isFalse hLong =>
      cases h
      refine ⟨rfl, (List.take_append_drop nSize pc).symm, ?_⟩
      rw [List.length_take]
      omega
  · rintro ⟨rfl, rfl, rfl⟩
    rw [List.length_append, if_neg (by omega), List.take_left, List.drop_left]

/-- A size of `k` bytes in front of the operand. -/
theorem sized_ok_iff {opcode' : UInt8} {k : Nat} :
    (if pc.length < k then .error pc else getOp.operand opcode' (readLE (pc.take k)) (pc.drop k)) =
        Except.ok (opcode, data, rest) ↔
      ∃ size, opcode' :: pc = opcode :: size ++ data ++ rest ∧ size.length = k ∧ data.length = readLE size := by
  constructor
  · intro h
    split at h
    case isTrue => cases h
    case isFalse hLong =>
      obtain ⟨rfl, hPc, hData⟩ := operand_ok_iff.mp h
      refine ⟨pc.take k, ?_, ?_, hData⟩
      · rw [List.append_assoc, List.cons_append, ← hPc, List.take_append_drop]
      · rw [List.length_take]
        omega
  · rintro ⟨size, hPc, rfl, hData⟩
    rw [List.append_assoc, List.cons_append] at hPc
    obtain ⟨rfl, rfl⟩ := List.cons.inj hPc
    rw [List.length_append, if_neg (by omega), List.take_left, List.drop_left]
    exact operand_ok_iff.mpr ⟨rfl, rfl, hData⟩

/-- An operation is read exactly where one stands. -/
theorem getOp_ok_iff : getOp pc = .ok (opcode, data, rest) ↔
    ∃ size, pc = opcode :: size ++ data ++ rest ∧ SizeBytes opcode size data.length := by
  rcases pc with _ | ⟨opcode', pc⟩
  · constructor
    · intro h
      cases h
    · rintro ⟨size, hPc, -⟩
      cases hPc
  · have hSame : ∀ {P : Bytes → Prop}, (∀ size, SizeBytes opcode' size data.length ↔ P size) →
        ((∃ size, opcode' :: pc = opcode :: size ++ data ++ rest ∧ P size) ↔
          ∃ size, opcode' :: pc = opcode :: size ++ data ++ rest ∧ SizeBytes opcode size data.length) := by
      intro P hIff
      refine exists_congr fun size => and_congr_right fun hPc => ?_
      rw [← (List.cons.inj hPc).1]
      exact (hIff size).symm
    have hNone : ∀ {n : Nat}, opcode = opcode' ∧ pc = data ++ rest ∧ data.length = n ↔
        ∃ size, opcode' :: pc = opcode :: size ++ data ++ rest ∧ size = [] ∧ data.length = n := by
      intro n
      constructor
      · rintro ⟨rfl, rfl, hData⟩
        exact ⟨[], rfl, rfl, hData⟩
      · rintro ⟨size, hPc, rfl, hData⟩
        obtain ⟨rfl, rfl⟩ := List.cons.inj hPc
        exact ⟨rfl, rfl, hData⟩
    rw [getOp]
    by_cases hDirect : opcode' < OP_PUSHDATA1
    · rw [if_pos hDirect, operand_ok_iff, hNone]
      exact hSame fun size => by rw [SizeBytes, if_pos hDirect]
    rw [if_neg hDirect]
    by_cases hOne : opcode' = OP_PUSHDATA1
    · rw [if_pos hOne, sized_ok_iff]
      exact hSame fun size => by rw [SizeBytes, if_neg hDirect, if_pos hOne]
    rw [if_neg hOne]
    by_cases hTwo : opcode' = OP_PUSHDATA2
    · rw [if_pos hTwo, sized_ok_iff]
      exact hSame fun size => by rw [SizeBytes, if_neg hDirect, if_neg hOne, if_pos hTwo]
    rw [if_neg hTwo]
    by_cases hFour : opcode' = OP_PUSHDATA4
    · rw [if_pos hFour, sized_ok_iff]
      exact hSame fun size => by rw [SizeBytes, if_neg hDirect, if_neg hOne, if_neg hTwo, if_pos hFour]
    rw [if_neg hFour, ← hSame fun size => by rw [SizeBytes, if_neg hDirect, if_neg hOne, if_neg hTwo, if_neg hFour],
      ← hNone]
    simp only [Except.ok.injEq, Prod.mk.injEq, List.length_eq_zero_iff]
    constructor
    · rintro ⟨rfl, rfl, rfl⟩
      exact ⟨rfl, rfl, rfl⟩
    · rintro ⟨rfl, rfl, rfl⟩
      exact ⟨rfl, rfl, rfl⟩

/-- An opcode that is not a push stands for itself. -/
theorem getOp_plain {opcode : UInt8} (pc : CScript) (hHigh : ¬ opcode ≤ OP_PUSHDATA4) :
    getOp (opcode :: pc) = .ok (opcode, [], pc) := by
  have hLow : ∀ opcode' ≤ OP_PUSHDATA4, opcode ≠ opcode' := fun opcode' hLe hEq => hHigh (hEq ▸ hLe)
  rw [getOp, if_neg fun hLt => hHigh (UInt8.le_of_lt (UInt8.lt_of_lt_of_le hLt (by decide))), if_neg (hLow _ (by decide)),
    if_neg (hLow _ (by decide)), if_neg (hLow _ (by decide))]

theorem getOp_suffix (h : getOp pc = .ok (opcode, data, rest)) : rest <:+ pc ∧ rest.length < pc.length := by
  obtain ⟨size, rfl, -⟩ := getOp_ok_iff.mp h
  refine ⟨⟨opcode :: size ++ data, rfl⟩, ?_⟩
  simp only [List.length_append, List.length_cons]
  omega

end Operations

section Counts

/-- What one operation counts, by the opcode in front of it. -/
def opCost (fAccurate : Bool) (lastOpcode opcode : UInt8) : Nat :=
  if opcode = OP_CHECKSIG ∨ opcode = OP_CHECKSIGVERIFY then 1
  else if opcode = OP_CHECKMULTISIG ∨ opcode = OP_CHECKMULTISIGVERIFY then
    if fAccurate ∧ OP_1 ≤ lastOpcode ∧ lastOpcode ≤ OP_16 then lastOpcode.toNat - 0x50 else 20
  else 0

/-- The count from a position on. -/
def costFrom (fAccurate : Bool) : Nat → CScript → UInt8 → Nat
  | 0, _, _ => 0
  | fuel + 1, pc, lastOpcode =>
    match getOp pc with
    | .error _ => 0
    | .ok (opcode, _, rest) => opCost fAccurate lastOpcode opcode + costFrom fAccurate fuel rest opcode

variable (fAccurate : Bool)

theorem opCost_le (lastOpcode opcode : UInt8) : opCost fAccurate lastOpcode opcode ≤ 20 := by
  rw [opCost]
  split
  · decide
  · split
    · split
      case isTrue hRange =>
        have hLe := UInt8.le_iff_toNat_le.mp hRange.2.2
        change lastOpcode.toNat ≤ 96 at hLe
        omega
      case isFalse => exact Nat.le_refl _
    · exact Nat.zero_le _

theorem costFrom_le (fuel : Nat) (pc : CScript) (lastOpcode : UInt8) : costFrom fAccurate fuel pc lastOpcode ≤ 20 * fuel := by
  induction fuel generalizing pc lastOpcode with
  | zero => exact Nat.le_refl _
  | succ fuel ih =>
    rw [costFrom]
    split
    · exact Nat.zero_le _
    · rename_i opcode data rest hOp
      have hFirst := opCost_le fAccurate lastOpcode opcode
      have hRest := ih rest opcode
      omega

theorem sigOpCountLoop_eq (fuel : Nat) (pc : CScript) (lastOpcode : UInt8) (n : UInt32) :
    sigOpCountLoop fAccurate fuel pc lastOpcode n = n + UInt32.ofNat (costFrom fAccurate fuel pc lastOpcode) := by
  induction fuel generalizing pc lastOpcode n with
  | zero => simp [sigOpCountLoop, costFrom]
  | succ fuel ih =>
    rw [sigOpCountLoop, costFrom]
    cases getOp pc with
    | error stopped => simp
    | ok op =>
      obtain ⟨opcode, data, rest⟩ := op
      dsimp only
      rw [opCost, UInt32.ofNat_add, ← UInt32.add_assoc]
      by_cases hSig : opcode = OP_CHECKSIG ∨ opcode = OP_CHECKSIGVERIFY
      · rw [if_pos hSig, if_pos hSig, ih]
        rfl
      rw [if_neg hSig, if_neg hSig]
      by_cases hMulti : opcode = OP_CHECKMULTISIG ∨ opcode = OP_CHECKMULTISIGVERIFY
      · rw [if_pos hMulti, if_pos hMulti]
        by_cases hKnown : fAccurate = true ∧ OP_1 ≤ lastOpcode ∧ lastOpcode ≤ OP_16
        · rw [if_pos hKnown, if_pos hKnown, ih]
        · rw [if_neg hKnown, if_neg hKnown, ih]
          rfl
      · rw [if_neg hMulti, if_neg hMulti, ih]
        simp

/-- Nothing wraps in scripts of the allowed size. -/
theorem toNat_getSigOpCountWith {script : CScript} (hSize : script.length ≤ maxScriptSize) :
    (getSigOpCountWith fAccurate script).toNat = costFrom fAccurate script.length script OP_INVALIDOPCODE := by
  have hLe := costFrom_le fAccurate script.length script OP_INVALIDOPCODE
  change script.length ≤ 10000 at hSize
  rw [getSigOpCountWith, sigOpCountLoop_eq, UInt32.zero_add, UInt32.toNat_ofNat_of_lt']
  exact Nat.lt_of_le_of_lt (hLe.trans (Nat.mul_le_mul_left 20 hSize)) (by decide)

/-- More fuel than operations changes nothing. -/
theorem costFrom_fuel {fuel fuel' : Nat} {pc : CScript} (lastOpcode : UInt8) (hFuel : pc.length ≤ fuel)
    (hFuel' : pc.length ≤ fuel') : costFrom fAccurate fuel pc lastOpcode = costFrom fAccurate fuel' pc lastOpcode := by
  induction fuel generalizing fuel' pc lastOpcode with
  | zero =>
    obtain rfl := List.eq_nil_of_length_eq_zero (Nat.le_zero.mp hFuel)
    cases fuel' <;> rfl
  | succ fuel ih =>
    cases fuel' with
    | zero =>
      obtain rfl := List.eq_nil_of_length_eq_zero (Nat.le_zero.mp hFuel')
      rfl
    | succ fuel' =>
      rw [costFrom, costFrom]
      cases hOp : getOp pc with
      | error stopped => rfl
      | ok op =>
        obtain ⟨opcode, data, rest⟩ := op
        have hShorter := (getOp_suffix hOp).2
        dsimp only
        rw [ih opcode (by omega) (show rest.length ≤ fuel' by omega)]

theorem costFrom_of_getOp {pc rest : CScript} {opcode : UInt8} {data : Bytes} (lastOpcode : UInt8)
    (hOp : getOp pc = .ok (opcode, data, rest)) : costFrom fAccurate pc.length pc lastOpcode =
      opCost fAccurate lastOpcode opcode + costFrom fAccurate rest.length rest opcode := by
  have hShorter := (getOp_suffix hOp).2
  obtain ⟨k, hk⟩ : ∃ k, pc.length = k + 1 := ⟨pc.length - 1, by omega⟩
  rw [hk, costFrom, hOp]
  dsimp only
  rw [costFrom_fuel fAccurate opcode (show rest.length ≤ k by omega) (Nat.le_refl _)]

theorem opCost_of_lt {opcode : UInt8} (lastOpcode : UInt8) (hLow : opcode < OP_CHECKSIG) :
    opCost fAccurate lastOpcode opcode = 0 := by
  have hNe : ∀ other, OP_CHECKSIG ≤ other → opcode ≠ other := by
    rintro other hOther rfl
    exact UInt8.not_lt.mpr hOther hLow
  rw [opCost, if_neg, if_neg]
  · rintro (hEq | hEq)
    · exact hNe _ (by decide) hEq
    · exact hNe _ (by decide) hEq
  · rintro (hEq | hEq)
    · exact hNe _ (by decide) hEq
    · exact hNe _ (by decide) hEq

/-- The signature operations as `GetSigOpCount(false)` counts them, without a bound. -/
def sigOps (script : CScript) : Nat := costFrom false script.length script OP_INVALIDOPCODE

theorem sigOps_le (script : CScript) : script.sigOps ≤ 20 * script.length := costFrom_le ..

theorem getSigOpCount_eq (script : CScript) : getSigOpCount script = UInt32.ofNat script.sigOps := by
  rw [getSigOpCount, getSigOpCountWith, sigOpCountLoop_eq, UInt32.zero_add, sigOps]

theorem toNat_getSigOpCount {script : CScript} (hFits : script.sigOps < 2 ^ 32) :
    script.getSigOpCount.toNat = script.sigOps := by
  rw [getSigOpCount_eq, UInt32.toNat_ofNat_of_lt' hFits]

/-- A direct push reads the data. -/
theorem getOp_push {data : Bytes} (rest : Bytes) (hLength : data.length < 0x4c) :
    getOp (UInt8.ofNat data.length :: (data ++ rest)) = .ok (UInt8.ofNat data.length, data, rest) := by
  have hToNat : (UInt8.ofNat data.length).toNat = data.length := by
    rw [UInt8.toNat_ofNat']
    omega
  have hLt : UInt8.ofNat data.length < OP_PUSHDATA1 := by
    rw [UInt8.lt_iff_toNat_lt, hToNat]
    exact hLength
  refine getOp_ok_iff.mpr ⟨[], rfl, ?_⟩
  rw [SizeBytes, if_pos hLt]
  exact ⟨rfl, hToNat.symm⟩

theorem costFrom_push {data : Bytes} (rest : Bytes) (hLength : data.length < 0x4c) (lastOpcode : UInt8) :
    costFrom fAccurate (UInt8.ofNat data.length :: (data ++ rest)).length (UInt8.ofNat data.length :: (data ++ rest))
      lastOpcode = costFrom fAccurate rest.length rest (UInt8.ofNat data.length) := by
  have hLow : UInt8.ofNat data.length < OP_CHECKSIG := by
    rw [UInt8.lt_iff_toNat_lt, UInt8.toNat_ofNat']
    exact Nat.lt_of_le_of_lt (Nat.mod_le _ _) (Nat.lt_trans hLength (by decide))
  rw [costFrom_of_getOp fAccurate lastOpcode (getOp_push rest hLength), opCost_of_lt fAccurate lastOpcode hLow, Nat.zero_add]

theorem costFrom_push_nil {data : Bytes} (hLength : data.length < 0x4c) (lastOpcode : UInt8) :
    costFrom fAccurate (UInt8.ofNat data.length :: data).length (UInt8.ofNat data.length :: data) lastOpcode = 0 := by
  have hPush := costFrom_push fAccurate [] hLength lastOpcode
  rwa [List.append_nil] at hPush

theorem getSigOpCount_push {opcode : UInt8} {data : Bytes} (hOpcode : opcode = 0x00 ∨ (0x4e < opcode ∧ opcode < 0xac))
    (hLength : data.length < 0x4c) : getSigOpCount (opcode :: UInt8.ofNat data.length :: data) = 0 := by
  have hZero : sigOps (opcode :: UInt8.ofNat data.length :: data) = 0 := by
    rcases hOpcode with rfl | ⟨hLow, hHigh⟩
    · have hEmpty : ([] : Bytes).length < 0x4c := by decide
      exact (costFrom_push false (UInt8.ofNat data.length :: data) hEmpty _).trans (costFrom_push_nil false hLength _)
    · rw [sigOps, costFrom_of_getOp false _ (getOp_plain _ (UInt8.not_le.mpr hLow)), opCost_of_lt false _ hHigh, Nat.zero_add,
        costFrom_push_nil false hLength]
  rw [getSigOpCount_eq, hZero]
  rfl

theorem getSigOpCount_witness {script : CScript} (hScript : WitnessScript script) : getSigOpCount script = 0 := by
  obtain ⟨version, program, rfl, hVersion, -, hLong⟩ := hScript.shape
  apply getSigOpCount_push _ (by omega)
  rcases hVersion with rfl | ⟨hLow, hHigh⟩
  · exact .inl rfl
  · exact .inr ⟨UInt8.lt_of_lt_of_le (by decide) hLow, UInt8.lt_of_le_of_lt hHigh (by decide)⟩

end Counts

theorem length_magnitude_le (fuel n : Nat) : (magnitude fuel n).length ≤ fuel := by
  induction fuel generalizing n with
  | zero => exact Nat.le_refl 0
  | succ fuel ih =>
    rw [magnitude]
    split
    · exact Nat.zero_le _
    · exact Nat.succ_le_succ (ih _)

theorem length_serializeNum_le (value : Int) : (serializeNum value).length ≤ 9 := by
  have hMagnitude := length_magnitude_le 8 value.natAbs
  unfold serializeNum
  split
  · exact Nat.zero_le _
  dsimp only
  split
  · exact Nat.zero_le _
  split
  · rw [List.length_append, List.length_singleton]
    omega
  split
  · rw [List.length_append, List.length_dropLast, List.length_singleton]
    omega
  · omega

theorem numberScript (n : Int) : 2 ≤ (pushInt64 [] n ++ [0x00]).length ∧ (pushInt64 [] n ++ [0x00]).length ≤ 11 ∧
    getSigOpCount (pushInt64 [] n ++ [0x00]) = 0 := by
  rw [pushInt64]
  split
  case isTrue hSmall =>
    have hToNat : (UInt8.ofNat (n + 0x50).toNat).toNat = (n + 0x50).toNat := by
      rw [UInt8.toNat_ofNat']
      omega
    have hEmpty : ([] : Bytes).length < 0x4c := by decide
    refine ⟨by simp, by simp, getSigOpCount_push (.inr ⟨?_, ?_⟩) hEmpty⟩
    · rw [UInt8.lt_iff_toNat_lt, hToNat]
      change 0x4e < _
      omega
    · rw [UInt8.lt_iff_toNat_lt, hToNat]
      change _ < 0xac
      omega
  case isFalse =>
    split
    case isTrue => exact ⟨by decide, by decide, by decide⟩
    case isFalse =>
      have hLength := length_serializeNum_le n
      have hSmall : (serializeNum n).length < 0x4c := by omega
      rw [pushBytes, if_pos hSmall, List.nil_append, List.append_assoc, List.singleton_append, List.length_cons,
        List.length_append, List.length_singleton]
      refine ⟨by omega, by omega, ?_⟩
      have hEmpty : ([] : Bytes).length < 0x4c := by decide
      rw [getSigOpCount_eq, sigOps, costFrom_push false [0x00] hSmall]
      exact congrArg UInt32.ofNat (costFrom_push_nil false hEmpty _)

end CScript

end BitcoinGpuMiner
