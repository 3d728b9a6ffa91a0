import BitcoinGpuMiner.Model.VerifyScript
import BitcoinGpuMiner.Script.Runs

/-! # The standard output scripts, evaluated

Scripts without branches are evaluated from their text: each operation completes in one way or not at all.
-/

namespace BitcoinGpuMiner

set_option autoImplicit false

open Exec CScript Foundation ScriptValidation

namespace Env

variable (env : Env) {m m' : Machine} {pc : CScript}

/-! ## Instructions that complete -/

theorem exec_dup_iff : env.exec true pc (.stackOp .dup) m = .ok () m' ↔
    ∃ vch rest, m.stack = vch :: rest ∧ { m with stack := vch :: vch :: rest } = m' := by
  rw [exec, execStackOp_eq]
  cases m.stack <;> simp [StackOp.effect]

theorem exec_hash_iff (op : HashOp) : env.exec true pc (.hash op) m = .ok () m' ↔
    ∃ vch rest, m.stack = vch :: rest ∧ { m with stack := op.apply vch :: rest } = m' := by
  rw [exec, execHash_eq]
  cases m.stack <;> simp

theorem exec_equal_iff : env.exec true pc (.equal false) m = .ok () m' ↔
    ∃ vch vch' rest, m.stack = vch :: vch' :: rest ∧ { m with stack := vchBool (vch' == vch) :: rest } = m' := by
  rw [exec, execEqual_eq]
  rcases m.stack with _ | ⟨vch, _ | ⟨vch', rest⟩⟩ <;> simp

theorem exec_equalVerify_iff : env.exec true pc (.equal true) m = .ok () m' ↔
    ∃ vch rest, m.stack = vch :: vch :: rest ∧ { m with stack := rest } = m' := by
  rw [exec, execEqual_eq]
  rcases m.stack with _ | ⟨vch, _ | ⟨vch', rest⟩⟩
  · simp
  · simp
  · by_cases hEq : vch' = vch
    · simp [hEq]
    · simp [hEq]

theorem exec_checkSig_of {vchPubKey vchSig : Bytes} {rest : List Bytes} {fSuccess : Bool}
    (hStack : m.stack = vchPubKey :: vchSig :: rest) (hChecks : env.ChecksSig vchSig vchPubKey m.pbegincodehash fSuccess) :
    env.exec true pc (.checkSig false) m =
      .ok () { m with stack := vchBool fSuccess :: rest, sigChecks := m.sigChecks + 1 } := by
  obtain ⟨stack, altstack, vfExec, code, ops, checks⟩ := m
  obtain ⟨scriptCode, hCode, hAnswer⟩ := hChecks.answer
  have hNull : ¬ (hasFlag env.flags verifyNullfail = true ∧ fSuccess = false ∧ vchSig.length ≠ 0) := by
    rintro ⟨hFlag, hFalse, hSome⟩
    exact hSome (by rw [hChecks.nullfail hFlag hFalse, List.length_nil])
  cases hStack
  rw [exec, execCheckSig]
  change (do
    let scriptCode ← env.dropSignature vchSig code
    env.checkEncodings vchSig vchPubKey
    let fSuccess ← env.callCheckSig vchSig vchPubKey scriptCode
    onFlag env.flags verifyNullfail (errorIf (fSuccess = false ∧ vchSig.length ≠ 0) .sigNullfail)
    popStack
    popStack
    pushStack (vchBool fSuccess)
    execVerifySuffix false fSuccess .checksigverify : Exec Unit) _ = _
  rw [hCode, pure_bind, hChecks.encodings, pure_bind]
  change (do
    onFlag env.flags verifyNullfail (errorIf (env.checker.checkSig vchSig vchPubKey scriptCode env.sigversion = false ∧
      vchSig.length ≠ 0) .sigNullfail)
    popStack
    popStack
    pushStack (vchBool (env.checker.checkSig vchSig vchPubKey scriptCode env.sigversion))
    execVerifySuffix false (env.checker.checkSig vchSig vchPubKey scriptCode env.sigversion) .checksigverify : Exec Unit)
    ⟨vchPubKey :: vchSig :: rest, altstack, vfExec, code, ops, checks + 1⟩ = _
  rw [hAnswer, onFlag_errorIf, errorIf, if_neg hNull]
  rfl

theorem exec_checkSig_iff : env.exec true pc (.checkSig false) m = .ok () m' ↔
    ∃ vchPubKey vchSig rest fSuccess, m.stack = vchPubKey :: vchSig :: rest ∧
      env.ChecksSig vchSig vchPubKey m.pbegincodehash fSuccess ∧
      { m with stack := vchBool fSuccess :: rest, sigChecks := m.sigChecks + 1 } = m' := by
  constructor
  · intro hRun
    obtain ⟨vchPubKey, vchSig, rest, fSuccess, hStack, hChecks, -, rfl⟩ := (env.execCheckSig_ensures false m).ok hRun
    exact ⟨vchPubKey, vchSig, rest, fSuccess, hStack, hChecks, rfl⟩
  · rintro ⟨vchPubKey, vchSig, rest, fSuccess, hStack, hChecks, rfl⟩
    exact env.exec_checkSig_of hStack hChecks

/-! ## Rounds that complete -/

theorem evalLoop_exec_iff {fuel : Nat} {opcode : UInt8} (hExec : m.vfExec.all id = true) (hPasses : Passes opcode m) :
    env.evalLoop (fuel + 1) (opcode :: pc) m = .ok () m' ↔
      ∃ m1, env.exec true pc (Instruction.ofOpcode opcode) (counted opcode m) = .ok () m1 ∧
        m1.stack.length + m1.altstack.length ≤ maxStackSize ∧ env.evalLoop fuel pc m1 = .ok () m' := by
  rw [env.evalLoop_cons hPasses.high]
  constructor
  · intro hRun
    obtain ⟨_, m2, hStep, hThen⟩ := exists_of_bind_ok hRun
    rw [env.step_exec hExec hPasses] at hStep
    obtain ⟨_, m1, hDone, hCheck⟩ := exists_of_bind_ok hStep
    obtain ⟨hFits, rfl⟩ := checkSize_ok_iff.mp hCheck
    exact ⟨m1, hDone, hFits, hThen⟩
  · rintro ⟨m1, hDone, hFits, hThen⟩
    have hStep : env.step opcode [] pc m = .ok () m1 := by
      rw [env.step_exec hExec hPasses, bind_ok hDone, checkSize_ok_iff.mpr ⟨hFits, rfl⟩]
    rw [bind_ok hStep]
    exact hThen

/-- A push of fewer than 76 bytes in its shortest form. -/
theorem evalLoop_push_iff {fuel : Nat} (data : Bytes) (hExec : m.vfExec.all id = true) (hShort : data.length < 76)
    (hMinimal : checkMinimalPush data (UInt8.ofNat data.length) = true) :
    env.evalLoop (fuel + 1) (UInt8.ofNat data.length :: (data ++ pc)) m = .ok () m' ↔
      m.stack.length + 1 + m.altstack.length ≤ maxStackSize ∧
        env.evalLoop fuel pc { m with stack := data :: m.stack } = .ok () m' := by
  have hByte : (UInt8.ofNat data.length).toNat = data.length := UInt8.toNat_ofNat_of_lt' (Nat.lt_trans hShort (by decide))
  have hLow : UInt8.ofNat data.length < OP_PUSHDATA1 := by
    rw [UInt8.lt_iff_toNat_lt, hByte]
    exact hShort
  have hPush : UInt8.ofNat data.length ≤ OP_PUSHDATA4 := UInt8.le_trans (UInt8.le_of_lt hLow) (by decide)
  have hOp : getOp (UInt8.ofNat data.length :: (data ++ pc)) = .ok (UInt8.ofNat data.length, data, pc) := by
    refine getOp_ok_iff.mpr ⟨[], rfl, ?_⟩
    rw [SizeBytes, if_pos hLow]
    exact ⟨rfl, hByte.symm⟩
  have hNotHigh : ¬ UInt8.ofNat data.length > OP_16 := fun hHigh =>
    absurd (UInt8.lt_of_lt_of_le hHigh hPush) (by decide)
  have hEnabled : ∀ opcode ∈ disabledOpcodes, ¬ opcode ≤ OP_PUSHDATA4 := by decide +kernel
  have hScreen : env.screen (UInt8.ofNat data.length) data m = .ok () m := by
    refine (env.screen_eq (Nat.le_of_lt (Nat.lt_trans hShort (by decide))) (fun hHigh => absurd hHigh hNotHigh) ?_ ?_).trans ?_
    · exact fun hMem => hEnabled _ hMem hPush
    · exact fun hEq => absurd (hEq ▸ hPush) (by decide)
    · rw [counted, if_neg hNotHigh]
      rfl
  have hDispatch : env.dispatch true (UInt8.ofNat data.length) data pc m = .ok () { m with stack := data :: m.stack } := by
    rw [dispatch, if_pos ⟨rfl, hPush⟩, execPush, assert_of hPush, hMinimal, onFlag]
    split <;> rfl
  have hStep : env.step (UInt8.ofNat data.length) data pc m = checkSize { m with stack := data :: m.stack } := by
    change (do
      env.screen (UInt8.ofNat data.length) data
      env.dispatch (m.vfExec.all id) (UInt8.ofNat data.length) data pc
      checkSize : Exec Unit) m = _
    rw [hExec, bind_ok hScreen, bind_ok hDispatch]
  rw [evalLoop, if_neg (by simp), hOp]
  dsimp only
  constructor
  · intro hRun
    obtain ⟨_, m1, hFirst, hThen⟩ := exists_of_bind_ok hRun
    rw [hStep] at hFirst
    obtain ⟨hFits, rfl⟩ := checkSize_ok_iff.mp hFirst
    exact ⟨hFits, hThen⟩
  · rintro ⟨hFits, hThen⟩
    rw [bind_ok (hStep.trans (checkSize_ok_iff.mpr ⟨hFits, rfl⟩))]
    exact hThen

/-! ## The operations of the standard scripts, where no conditional is open -/

section Lines

variable {fuel ops checks : Nat} {stack : List Bytes} {code : CScript} {hash : Bytes}

theorem line_iff {opcode : UInt8} (hOps : ops < maxOpsPerScript)
    (hPlain : opcode > OP_16 ∧ opcode ∉ disabledOpcodes ∧ opcode ≠ OP_CODESEPARATOR) :
    env.evalLoop (fuel + 1) (opcode :: pc) ⟨stack, [], [], code, ops, checks⟩ = .ok () m' ↔
      ∃ m1, env.exec true pc (Instruction.ofOpcode opcode) ⟨stack, [], [], code, ops + 1, checks⟩ = .ok () m1 ∧
        m1.stack.length + m1.altstack.length ≤ maxStackSize ∧ env.evalLoop fuel pc m1 = .ok () m' := by
  have hHigh : ¬ opcode ≤ OP_PUSHDATA4 := fun hLow => absurd (UInt8.lt_of_lt_of_le hPlain.1 hLow) (by decide)
  have hPasses : Passes opcode ⟨stack, [], [], code, ops, checks⟩ := ⟨hHigh, fun _ => hOps, hPlain.2.1, hPlain.2.2⟩
  rw [env.evalLoop_exec_iff rfl hPasses, counted, if_pos hPlain.1]

theorem dup_iff (hOps : ops < maxOpsPerScript) :
    env.evalLoop (fuel + 1) (OP_DUP :: pc) ⟨stack, [], [], code, ops, checks⟩ = .ok () m' ↔
      ∃ vch rest, stack = vch :: rest ∧ rest.length + 2 ≤ maxStackSize ∧
        env.evalLoop fuel pc ⟨vch :: vch :: rest, [], [], code, ops + 1, checks⟩ = .ok () m' := by
  rw [env.line_iff hOps (by decide), show Instruction.ofOpcode OP_DUP = .stackOp .dup from rfl]
  simp only [exec_dup_iff]
  constructor
  · rintro ⟨_, ⟨vch, rest, hStack, rfl⟩, hFits, hLoop⟩
    exact ⟨vch, rest, hStack, hFits, hLoop⟩
  · rintro ⟨vch, rest, hStack, hFits, hLoop⟩
    exact ⟨_, ⟨vch, rest, hStack, rfl⟩, hFits, hLoop⟩

theorem hash160_iff (hOps : ops < maxOpsPerScript) :
    env.evalLoop (fuel + 1) (OP_HASH160 :: pc) ⟨stack, [], [], code, ops, checks⟩ = .ok () m' ↔
      ∃ vch rest, stack = vch :: rest ∧ rest.length + 1 ≤ maxStackSize ∧
        env.evalLoop fuel pc ⟨hash160 vch :: rest, [], [], code, ops + 1, checks⟩ = .ok () m' := by
  rw [env.line_iff hOps (by decide), show Instruction.ofOpcode OP_HASH160 = .hash .hash160 from rfl]
  simp only [exec_hash_iff]
  constructor
  · rintro ⟨_, ⟨vch, rest, hStack, rfl⟩, hFits, hLoop⟩
    exact ⟨vch, rest, hStack, hFits, hLoop⟩
  · rintro ⟨vch, rest, hStack, hFits, hLoop⟩
    exact ⟨_, ⟨vch, rest, hStack, rfl⟩, hFits, hLoop⟩

theorem equal_iff (hOps : ops < maxOpsPerScript) :
    env.evalLoop (fuel + 1) (OP_EQUAL :: pc) ⟨stack, [], [], code, ops, checks⟩ = .ok () m' ↔
      ∃ vch vch' rest, stack = vch :: vch' :: rest ∧ rest.length + 1 ≤ maxStackSize ∧
        env.evalLoop fuel pc ⟨vchBool (vch' == vch) :: rest, [], [], code, ops + 1, checks⟩ = .ok () m' := by
  rw [env.line_iff hOps (by decide), show Instruction.ofOpcode OP_EQUAL = .equal false from rfl]
  simp only [exec_equal_iff]
  constructor
  · rintro ⟨_, ⟨vch, vch', rest, hStack, rfl⟩, hFits, hLoop⟩
    exact ⟨vch, vch', rest, hStack, hFits, hLoop⟩
  · rintro ⟨vch, vch', rest, hStack, hFits, hLoop⟩
    exact ⟨_, ⟨vch, vch', rest, hStack, rfl⟩, hFits, hLoop⟩

theorem equalVerify_iff (hOps : ops < maxOpsPerScript) :
    env.evalLoop (fuel + 1) (OP_EQUALVERIFY :: pc) ⟨stack, [], [], code, ops, checks⟩ = .ok () m' ↔
      ∃ vch rest, stack = vch :: vch :: rest ∧ rest.length ≤ maxStackSize ∧
        env.evalLoop fuel pc ⟨rest, [], [], code, ops + 1, checks⟩ = .ok () m' := by
  rw [env.line_iff hOps (by decide), show Instruction.ofOpcode OP_EQUALVERIFY = .equal true from rfl]
  simp only [exec_equalVerify_iff]
  constructor
  · rintro ⟨_, ⟨vch, rest, hStack, rfl⟩, hFits, hLoop⟩
    exact ⟨vch, rest, hStack, hFits, hLoop⟩
  · rintro ⟨vch, rest, hStack, hFits, hLoop⟩
    exact ⟨_, ⟨vch, rest, hStack, rfl⟩, hFits, hLoop⟩

theorem checkSig_iff (hOps : ops < maxOpsPerScript) :
    env.evalLoop (fuel + 1) (OP_CHECKSIG :: pc) ⟨stack, [], [], code, ops, checks⟩ = .ok () m' ↔
      ∃ vchPubKey vchSig rest fSuccess, stack = vchPubKey :: vchSig :: rest ∧
        env.ChecksSig vchSig vchPubKey code fSuccess ∧ rest.length + 1 ≤ maxStackSize ∧
        env.evalLoop fuel pc ⟨vchBool fSuccess :: rest, [], [], code, ops + 1, checks + 1⟩ = .ok () m' := by
  rw [env.line_iff hOps (by decide), show Instruction.ofOpcode OP_CHECKSIG = .checkSig false from rfl]
  simp only [exec_checkSig_iff]
  constructor
  · rintro ⟨_, ⟨vchPubKey, vchSig, rest, fSuccess, hStack, hChecks, rfl⟩, hFits, hLoop⟩
    exact ⟨vchPubKey, vchSig, rest, fSuccess, hStack, hChecks, hFits, hLoop⟩
  · rintro ⟨vchPubKey, vchSig, rest, fSuccess, hStack, hChecks, hFits, hLoop⟩
    exact ⟨_, ⟨vchPubKey, vchSig, rest, fSuccess, hStack, hChecks, rfl⟩, hFits, hLoop⟩

/-- A push of a hash of 20 or 32 bytes is in its shortest form. -/
theorem pushHash_iff (hHash : hash.length = 20 ∨ hash.length = 32) :
    env.evalLoop (fuel + 1) (UInt8.ofNat hash.length :: (hash ++ pc)) ⟨stack, [], [], code, ops, checks⟩ = .ok () m' ↔
      stack.length + 1 ≤ maxStackSize ∧
        env.evalLoop fuel pc ⟨hash :: stack, [], [], code, ops, checks⟩ = .ok () m' := by
  have hMinimal : checkMinimalPush hash (UInt8.ofNat hash.length) = true := by
    rcases hash with _ | ⟨_, _ | _⟩ <;> simp at hHash
    rcases hHash with hHash | hHash <;> simp [checkMinimalPush, hHash]
  exact env.evalLoop_push_iff hash rfl (by omega) hMinimal

theorem pushEmpty_iff :
    env.evalLoop (fuel + 1) (OP_0 :: pc) ⟨stack, [], [], code, ops, checks⟩ = .ok () m' ↔
      stack.length + 1 ≤ maxStackSize ∧ env.evalLoop fuel pc ⟨[] :: stack, [], [], code, ops, checks⟩ = .ok () m' :=
  env.evalLoop_push_iff [] rfl (by decide) (by decide)

end Lines

/-! ## Whole scripts -/

variable {stack stack' : List Bytes} {hash : Bytes} {checks checks' : Nat}

theorem payToPubKeyHash_eq (hHash : hash.length = 20) : payToPubKeyHash hash =
    OP_DUP :: OP_HASH160 :: UInt8.ofNat hash.length :: (hash ++ [OP_EQUALVERIFY, OP_CHECKSIG]) := by
  rw [payToPubKeyHash, pushBytes, hHash]
  rfl

theorem evalScript_payToPubKeyHash_iff (hHash : hash.length = 20) :
    evalScript env stack (payToPubKeyHash hash) checks = .ok stack' checks' ↔
      ∃ vchPubKey vchSig rest fSuccess, stack = vchPubKey :: vchSig :: rest ∧ rest.length + 4 ≤ maxStackSize ∧
        hash160 vchPubKey = hash ∧ env.ChecksSig vchSig vchPubKey (payToPubKeyHash hash) fSuccess ∧
        vchBool fSuccess :: rest = stack' ∧ checks + 1 = checks' := by
  have hLength : (payToPubKeyHash hash).length = 20 + 5 := by simp [payToPubKeyHash_eq hHash, hHash]
  have hLoop : env.evalLoop (payToPubKeyHash hash).length (payToPubKeyHash hash) = env.evalLoop (20 + 5)
      (OP_DUP :: OP_HASH160 :: UInt8.ofNat hash.length :: (hash ++ [OP_EQUALVERIFY, OP_CHECKSIG])) := by
    rw [hLength, ← payToPubKeyHash_eq hHash]
  rw [env.evalScript_eq_ok_iff, hLoop, hLength, Machine.start]
  constructor
  · rintro ⟨-, m', hRun, -, rfl, rfl⟩
    obtain ⟨vchPubKey, rest, rfl, -, hRun1⟩ := (env.dup_iff (by decide)).mp hRun
    obtain ⟨_, _, hEq, -, hRun2⟩ := (env.hash160_iff (by decide)).mp hRun1
    cases hEq
    obtain ⟨hFits, hRun3⟩ := (env.pushHash_iff (.inl hHash)).mp hRun2
    obtain ⟨_, _, hEq, -, hRun4⟩ := (env.equalVerify_iff (by decide)).mp hRun3
    cases hEq
    obtain ⟨_, vchSig, rest, fSuccess, hEq, hChecks, -, hRun5⟩ := (env.checkSig_iff (by decide)).mp hRun4
    cases hEq
    rw [evalLoop_nil] at hRun5
    cases hRun5
    exact ⟨vchPubKey, vchSig, rest, fSuccess, rfl, hFits, rfl, hChecks, rfl, rfl⟩
  · rintro ⟨vchPubKey, vchSig, rest, fSuccess, rfl, hFits, rfl, hChecks, rfl, rfl⟩
    refine ⟨by decide, ⟨vchBool fSuccess :: rest, [], [], payToPubKeyHash (hash160 vchPubKey), 4, checks + 1⟩, ?_, rfl, rfl, rfl⟩
    refine (env.dup_iff (by decide)).mpr ⟨_, _, rfl, ?_, ?_⟩
    · exact Nat.le_of_succ_le hFits
    refine (env.hash160_iff (by decide)).mpr ⟨_, _, rfl, ?_, ?_⟩
    · exact Nat.le_of_succ_le hFits
    refine (env.pushHash_iff (.inl hHash)).mpr ⟨hFits, ?_⟩
    refine (env.equalVerify_iff (by decide)).mpr ⟨_, _, rfl, ?_, ?_⟩
    · exact Nat.le_of_succ_le (Nat.le_of_succ_le hFits)
    refine (env.checkSig_iff (by decide)).mpr ⟨_, _, _, _, rfl, hChecks, ?_, ?_⟩
    · omega
    · rw [evalLoop_nil]
      rfl

theorem evalScript_payToScriptHash_iff (hHash : hash.length = 20) :
    evalScript env stack (OP_HASH160 :: 0x14 :: (hash ++ [OP_EQUAL])) checks = .ok stack' checks' ↔
      ∃ vch rest, stack = vch :: rest ∧ rest.length + 2 ≤ maxStackSize ∧
        vchBool (hash160 vch == hash) :: rest = stack' ∧ checks = checks' := by
  have hLength : (OP_HASH160 :: 0x14 :: (hash ++ [OP_EQUAL])).length = 20 + 3 := by simp [hHash]
  have hByte : (0x14 : UInt8) = UInt8.ofNat hash.length := by rw [hHash]; rfl
  rw [env.evalScript_eq_ok_iff, hLength, Machine.start]
  constructor
  · rintro ⟨-, m', hRun, -, rfl, rfl⟩
    obtain ⟨vch, rest, rfl, -, hRun1⟩ := (env.hash160_iff (by decide)).mp hRun
    rw [hByte] at hRun1
    obtain ⟨hFits, hRun2⟩ := (env.pushHash_iff (.inl hHash)).mp hRun1
    obtain ⟨_, _, _, hEq, -, hRun3⟩ := (env.equal_iff (by decide)).mp hRun2
    cases hEq
    rw [evalLoop_nil] at hRun3
    cases hRun3
    exact ⟨vch, rest, rfl, hFits, rfl, rfl⟩
  · rintro ⟨vch, rest, rfl, hFits, rfl, rfl⟩
    refine ⟨by decide, ⟨vchBool (hash160 vch == hash) :: rest, [], [],
      OP_HASH160 :: 0x14 :: (hash ++ [OP_EQUAL]), 2, checks⟩, ?_, rfl, rfl, rfl⟩
    refine (env.hash160_iff (by decide)).mpr ⟨_, _, rfl, Nat.le_of_succ_le hFits, ?_⟩
    rw [hByte]
    refine (env.pushHash_iff (.inl hHash)).mpr ⟨hFits, ?_⟩
    refine (env.equal_iff (by decide)).mpr ⟨_, _, _, rfl, Nat.le_of_succ_le hFits, ?_⟩
    rw [evalLoop_nil]
    rfl

theorem witnessProgram_loop_iff {fuel : Nat} {code : CScript} {program : Bytes}
    (hProgram : program.length = 20 ∨ program.length = 32) :
    env.evalLoop (fuel + 1 + 1) (OP_0 :: UInt8.ofNat program.length :: program) ⟨stack, [], [], code, 0, checks⟩ =
        .ok () m' ↔ stack.length + 2 ≤ maxStackSize ∧ ⟨program :: [] :: stack, [], [], code, 0, checks⟩ = m' := by
  rw [env.pushEmpty_iff, show UInt8.ofNat program.length :: program = UInt8.ofNat program.length :: (program ++ []) by
    rw [List.append_nil], env.pushHash_iff hProgram, evalLoop_nil]
  constructor
  · rintro ⟨-, hFits, hRun⟩
    cases hRun
    exact ⟨hFits, rfl⟩
  · rintro ⟨hFits, rfl⟩
    exact ⟨Nat.le_of_succ_le hFits, hFits, rfl⟩

theorem evalScript_witnessProgram_iff {program : Bytes} (hProgram : program.length = 20 ∨ program.length = 32) :
    evalScript env stack (OP_0 :: UInt8.ofNat program.length :: program) checks = .ok stack' checks' ↔
      stack.length + 2 ≤ maxStackSize ∧ program :: [] :: stack = stack' ∧ checks = checks' := by
  have hSize : (OP_0 :: UInt8.ofNat program.length :: program).length ≤ maxScriptSize := by
    rcases hProgram with h | h <;> rw [List.length_cons, List.length_cons, h] <;> decide
  rw [env.evalScript_eq_ok_iff, List.length_cons, List.length_cons, Machine.start]
  simp only [env.witnessProgram_loop_iff hProgram]
  constructor
  · rintro ⟨-, _, ⟨hFits, rfl⟩, -, hStack, hChecks⟩
    exact ⟨hFits, hStack, hChecks⟩
  · rintro ⟨hFits, hStack, hChecks⟩
    exact ⟨hSize, _, ⟨hFits, rfl⟩, rfl, hStack, hChecks⟩

/-- What `IsUnspendable` says of a script is so on every stack. -/
theorem evalScript_unspendable {script : CScript} (hUnspendable : isUnspendable script = true) :
    evalScript env stack script checks ≠ .ok stack' checks' := by
  intro hRun
  obtain ⟨hSize, m, hLoop, -⟩ := env.evalScript_eq_ok_iff.mp hRun
  rw [isUnspendable, Bool.or_eq_true, beq_iff_eq, decide_eq_true_eq] at hUnspendable
  rcases hUnspendable with hReturn | hLong
  · obtain ⟨pc, rfl⟩ := List.head?_eq_some_iff.mp hReturn
    rw [Machine.start, List.length_cons] at hLoop
    obtain ⟨_, hExec, -⟩ := (env.line_iff (by decide) (by decide)).mp hLoop
    cases hExec
  · omega

end Env

end BitcoinGpuMiner
