import BitcoinGpuMiner.Script.Verify

/-! # Counted and executed signature operations

`GetSigOpCount` looks at a script without running it. The accurate count takes the number of keys of an
`OP_CHECKMULTISIG` from an `OP_N` in front of it. That number is on top of the stack when the operation is executed:
no conditional lies between the two, so both are executed or none. So a run makes at most as many calls of the checker
as are counted, whether it succeeds or not.
-/

namespace BitcoinGpuMiner

set_option autoImplicit false

open Exec CScript Foundation ScriptValidation

namespace Env

variable (env : Env)

/-- Where the last operation was `OP_N` and operations are executed, its number is on top of the stack. -/
def NumberOnTop (lastOpcode : UInt8) (m : Machine) : Prop :=
  m.vfExec.all id = true → OP_1 ≤ lastOpcode → lastOpcode ≤ OP_16 →
    ∃ rest, m.stack = serializeNum ((lastOpcode.toNat : Int) - 0x50) :: rest

theorem keyCount_of_numberOnTop {lastOpcode : UInt8} {m : Machine} (hTop : NumberOnTop lastOpcode m)
    (hExec : m.vfExec.all id = true) (hLow : OP_1 ≤ lastOpcode) (hHigh : lastOpcode ≤ OP_16) :
    env.keyCount m = lastOpcode.toNat - 0x50 := by
  obtain ⟨rest, hStack⟩ := hTop hExec hLow hHigh
  have hGe : 0x51 ≤ lastOpcode.toNat := UInt8.le_iff_toNat_le.mp hLow
  have hLe : lastOpcode.toNat ≤ 0x60 := UInt8.le_iff_toNat_le.mp hHigh
  rw [show (lastOpcode.toNat : Int) - 0x50 = ((lastOpcode.toNat - 0x50 : Nat) : Int) by omega] at hStack
  apply env.keyCount_eq hStack
  · apply CScriptNum.ofVch_serializeNum _ (by decide)
    rw [Int.natAbs_natCast]
    exact Nat.lt_of_le_of_lt (Nat.sub_le_sub_right hLe _) (by decide)
  · omega

theorem keyCount_le (m : Machine) : env.keyCount m ≤ 20 := by
  rw [keyCount]
  split
  · exact Nat.zero_le _
  · split
    · split
      · exact Nat.zero_le _
      · omega
    · exact Nat.zero_le _

theorem opcode_of_checkSig (opcode : UInt8) : (∀ verify, Instruction.ofOpcode opcode = .checkSig verify →
      opcode = OP_CHECKSIG ∨ opcode = OP_CHECKSIGVERIFY) ∧
    ∀ verify, Instruction.ofOpcode opcode = .checkMultiSig verify →
      opcode ≠ OP_CHECKSIG ∧ opcode ≠ OP_CHECKSIGVERIFY ∧ (opcode = OP_CHECKMULTISIG ∨ opcode = OP_CHECKMULTISIGVERIFY) := by
  refine Instruction.forall_ofOpcode (P := fun opcode i => (∀ verify, i = .checkSig verify →
      opcode = OP_CHECKSIG ∨ opcode = OP_CHECKSIGVERIFY) ∧ ∀ verify, i = .checkMultiSig verify →
      opcode ≠ OP_CHECKSIG ∧ opcode ≠ OP_CHECKSIGVERIFY ∧ (opcode = OP_CHECKMULTISIG ∨ opcode = OP_CHECKMULTISIGVERIFY))
    (fun opcode _ => ⟨fun verify h => ?_, fun verify h => ?_⟩) (fun opcode => ⟨fun verify h => ?_, fun verify h => ?_⟩)
    (by decide) opcode <;> cases h

/-- An executed operation calls the checker at most as often as it counts. -/
theorem callsOf_le_opCost (fAccurate : Bool) {lastOpcode : UInt8} (opcode : UInt8) {m : Machine}
    (hTop : NumberOnTop lastOpcode m) :
    env.callsOf (m.vfExec.all id) opcode m ≤ opCost fAccurate lastOpcode opcode := by
  obtain ⟨hSig, hMulti⟩ := opcode_of_checkSig opcode
  rw [callsOf]
  cases hExec : m.vfExec.all id with
  | false => exact Nat.zero_le _
  | true =>
    rw [if_pos rfl]
    cases hOp : Instruction.ofOpcode opcode with
    | checkSig verify =>
      rw [opCost, if_pos (hSig verify hOp)]
      exact Nat.le_refl _
    | checkMultiSig verify =>
      obtain ⟨hNot, hNot', hIs⟩ := hMulti verify hOp
      rw [opCost, if_neg fun h => h.elim hNot hNot', if_pos hIs]
      split
      case isTrue hKnown => exact (env.keyCount_of_numberOnTop hTop hExec hKnown.2.1 hKnown.2.2).le
      case isFalse => exact env.keyCount_le m
    | _ => exact Nat.zero_le _

theorem ofOpcode_opN {opcode : UInt8} (hLow : OP_1 ≤ opcode) (hHigh : opcode ≤ OP_16) :
    Instruction.ofOpcode opcode = .number ((opcode.toNat : Int) - 0x50) := by
  rw [Instruction.ofOpcode, if_pos (.inr ⟨hLow, hHigh⟩)]

theorem numberOnTop_of_step {opcode : UInt8} {data : Bytes} {rest : CScript} {m m' : Machine}
    (hDone : env.StepDone opcode data rest m m') : NumberOnTop opcode m' := by
  intro hExec' hLow hHigh
  have hDispatched := hDone.dispatched
  cases hExec : m.vfExec.all id with
  | true =>
    rw [hExec] at hDispatched
    cases hDispatched with
    | pushed _ hPush => exact absurd (UInt8.le_trans hLow hPush) (by decide)
    | executed _ _ hDone =>
      rw [ofOpcode_opN hLow hHigh] at hDone
      cases hDone with
      | quiet hPlain _ => cases hPlain
      | numbered => exact ⟨_, rfl⟩
    | skipped hSkipped _ => cases hSkipped
  | false =>
    rw [hExec] at hDispatched
    cases hDispatched with
    | pushed hPush _ => cases hPush
    | executed _ hRange _ =>
      have hIf := hRange.resolve_left Bool.false_ne_true
      exact absurd (UInt8.le_trans hIf.1 hHigh) (by decide)
    | skipped _ _ => exact absurd (hExec.symm.trans hExec') Bool.false_ne_true

/-- What has been called and what is still counted is at most what is counted at the beginning. -/
def Paid (fAccurate : Bool) (script : CScript) (checks : Nat) (c : CScript × Machine) : Prop :=
  ∃ lastOpcode, NumberOnTop lastOpcode c.2 ∧ c.2.sigChecks + costFrom fAccurate c.1.length c.1 lastOpcode ≤
    checks + costFrom fAccurate script.length script OP_INVALIDOPCODE

theorem paid_of_reaches (fAccurate : Bool) {stack : List Bytes} {script : CScript} {checks : Nat} {c : CScript × Machine}
    (hReach : env.Reaches stack script checks c) : Paid fAccurate script checks c := by
  induction hReach with
  | refl => exact ⟨OP_INVALIDOPCODE, fun _ _ hHigh => absurd hHigh (by decide), Nat.le_refl _⟩
  | tail _ hRound ih =>
    rename_i c c' _
    obtain ⟨pc, m⟩ := c
    obtain ⟨rest, m'⟩ := c'
    obtain ⟨lastOpcode, hTop, hPaid⟩ := ih
    obtain ⟨opcode, data, hOp, hStep⟩ := hRound
    obtain ⟨hDone, hCalls⟩ := (env.step_ensures opcode data rest m).ok hStep
    change NumberOnTop lastOpcode m at hTop
    have hCost := env.callsOf_le_opCost fAccurate opcode hTop
    refine ⟨opcode, env.numberOnTop_of_step hDone, ?_⟩
    dsimp only at hOp hPaid hCalls ⊢
    rw [costFrom_of_getOp fAccurate lastOpcode hOp] at hPaid
    omega

theorem checks_le_of_stopsAt (fAccurate : Bool) {stack : List Bytes} {script : CScript} {checks : Nat} {halt : Halt}
    {m' : Machine} (hStop : env.StopsAt (script, Machine.start stack script checks) halt m') :
    m'.sigChecks ≤ checks + costFrom fAccurate script.length script OP_INVALIDOPCODE := by
  obtain ⟨pc, m, hReach, hStop⟩ := hStop
  obtain ⟨lastOpcode, hTop, hPaid⟩ := env.paid_of_reaches fAccurate hReach
  dsimp only at hPaid hTop
  rcases hStop with ⟨-, rfl⟩ | ⟨opcode, data, rest, hOp, hStep⟩
  · omega
  · have hCalls := ((env.step_ensures opcode data rest m).error hStep).2
    have hCost := env.callsOf_le_opCost fAccurate opcode hTop
    rw [costFrom_of_getOp fAccurate lastOpcode hOp] at hPaid
    omega

end Env

/-- A call of `EvalScript` makes at most as many calls of the checker as `GetSigOpCount` counts. -/
theorem evalScript_checks_le (fAccurate : Bool) (env : Env) (stack : List Bytes) (script : CScript) (checks : Nat) :
    Ensures (evalScript env stack script) checks
      (fun _ checks' => checks' ≤ checks + (getSigOpCountWith fAccurate script).toNat)
      (fun _ checks' => checks' ≤ checks + (getSigOpCountWith fAccurate script).toNat) := by
  by_cases hLong : script.length > maxScriptSize
  · rw [Ensures, evalScript, if_pos hLong]
    exact Nat.le_add_right _ _
  · rw [toNat_getSigOpCountWith fAccurate (Nat.not_lt.mp hLong)]
    refine (evalScript_ensures env stack script checks).mono ?_ ?_
    · rintro stack' checks' ⟨-, m, hReach, -, -, rfl⟩
      obtain ⟨lastOpcode, -, hPaid⟩ := env.paid_of_reaches fAccurate hReach
      dsimp only at hPaid
      omega
    · rintro halt checks' ⟨-, rfl | ⟨m, hReach, rfl⟩ | ⟨halt', m, hStop, rfl⟩⟩
      · exact Nat.le_add_right _ _
      · obtain ⟨lastOpcode, -, hPaid⟩ := env.paid_of_reaches fAccurate hReach
        dsimp only at hPaid
        omega
      · exact env.checks_le_of_stopsAt fAccurate hStop

/-! ## The stages of `VerifyScript` -/

/-- Programs that call the checker at most `n` times, however they end. -/
def Verify.CallsLe {α : Type} (n : Nat) (p : Verify α) : Prop :=
  ∀ checks, Ensures p checks (fun _ checks' => checks' ≤ checks + n) (fun _ checks' => checks' ≤ checks + n)

namespace Verify.CallsLe

variable {α β : Type} {n k : Nat}

theorem pure (a : α) : CallsLe n (Pure.pure a : Verify α) := fun _ => .pure (Nat.le_add_right _ _)

theorem throw (halt : Halt) : CallsLe n (MonadExcept.throw halt : Verify α) := fun _ => .throw (Nat.le_add_right _ _)

theorem mono {p : Verify α} (h : CallsLe n p) (hLe : n ≤ k) : CallsLe k p := fun checks =>
  (h checks).mono (fun _ _ hChecks => hChecks.trans (Nat.add_le_add_left hLe _))
    fun _ _ hChecks => hChecks.trans (Nat.add_le_add_left hLe _)

theorem bind {p : Verify α} {f : α → Verify β} (hFirst : CallsLe n p) (hRest : ∀ a, CallsLe k (f a)) :
    CallsLe (n + k) (p >>= f) := by
  intro checks
  refine .bind ((hFirst checks).mono (fun _ _ h => h) fun _ _ h => ?_) fun a checks' hChecks =>
    (hRest a checks').mono (fun _ _ h => ?_) fun _ _ h => ?_
  · exact h.trans (Nat.add_le_add_left (Nat.le_add_right _ _) _)
  · omega
  · omega

/-- A part that calls nothing, in front of another. -/
theorem zero_bind {p : Verify α} {f : α → Verify β} (hFirst : CallsLe 0 p) (hRest : ∀ a, CallsLe k (f a)) :
    CallsLe k (p >>= f) := Nat.zero_add k ▸ hFirst.bind hRest

theorem bind_zero {p : Verify α} {f : α → Verify β} (hFirst : CallsLe k p) (hRest : ∀ a, CallsLe 0 (f a)) :
    CallsLe k (p >>= f) := hFirst.bind hRest

theorem ite {c : Prop} [Decidable c] {p q : Verify α} (hThen : c → CallsLe n p) (hElse : ¬ c → CallsLe n q) :
    CallsLe n (if c then p else q) := fun checks => .ite (fun h => hThen h checks) fun h => hElse h checks

theorem errorIf (c : Prop) [Decidable c] (e : ScriptError) : CallsLe n (errorIf c e) :=
  ite (fun _ => throw _) fun _ => pure ()

theorem assert (c : Prop) [Decidable c] : CallsLe n (assert c) := ite (fun _ => pure ()) fun _ => throw _

theorem onFlag {flags flag : UInt32} {p : Verify Unit} (h : CallsLe n p) : CallsLe n (onFlag flags flag p) :=
  ite (fun _ => h) fun _ => pure ()

/-- A test is passed by what follows it. -/
theorem errorIf_bind {c : Prop} [Decidable c] {e : ScriptError} {f : Unit → Verify β} (hRest : ¬ c → CallsLe n (f ())) :
    CallsLe n (BitcoinGpuMiner.errorIf c e >>= f) := fun checks =>
  .errorIf (fun _ => Nat.le_add_right _ _) fun h => hRest h checks

theorem evalScript (env : Env) (stack : List Bytes) (script : CScript) :
    CallsLe (getSigOpCountWith true script).toNat (evalScript env stack script) := evalScript_checks_le true env stack script

end Verify.CallsLe

section

variable (flags : UInt32) (checker : BaseSignatureChecker) (witness : List Bytes)

open Verify

theorem executeWitnessScript_callsLe (stack : List Bytes) (scriptPubKey : CScript) :
    CallsLe (getSigOpCountWith true scriptPubKey).toNat (executeWitnessScript flags checker stack scriptPubKey) :=
  .zero_bind (.errorIf _ _) fun _ => .bind_zero (.evalScript _ _ _) fun _ => .zero_bind (.errorIf _ _) fun _ => .errorIf _ _

/-- Pays to a key: one operation is counted. -/
theorem getSigOpCountWith_payToPubKeyHash {program : Bytes} (hLength : program.length = 20) :
    (getSigOpCountWith true (payToPubKeyHash program)).toNat = 1 := by
  have hScript : payToPubKeyHash program =
      OP_DUP :: OP_HASH160 :: 0x14 :: (program ++ [OP_EQUALVERIFY, OP_CHECKSIG]) := by
    rw [payToPubKeyHash, pushBytes, hLength]
    rfl
  have hPush : getOp (0x14 :: (program ++ [OP_EQUALVERIFY, OP_CHECKSIG])) =
      .ok (0x14, program, [OP_EQUALVERIFY, OP_CHECKSIG]) := getOp_ok_iff.mpr ⟨[], rfl, rfl, hLength⟩
  rw [toNat_getSigOpCountWith true, hScript]
  · rw [costFrom_of_getOp true _ (getOp_plain _ (by decide)), costFrom_of_getOp true _ (getOp_plain _ (by decide)),
      costFrom_of_getOp true _ hPush]
    decide
  · rw [hScript]
    simp only [List.length_cons, List.length_append, hLength]
    decide

theorem verifyWitnessProgram_callsLe (version : Nat) (program : Bytes) :
    CallsLe (witnessSigOps version program witness) (verifyWitnessProgram flags checker witness version program) := by
  rw [verifyWitnessProgram, witnessSigOps]
  by_cases hVersion : version = 0
  · rw [if_pos hVersion, if_pos hVersion]
    by_cases hScriptHash : program.length = witnessV0ScriptHashSize
    · have hNotKey : ¬ program.length = witnessV0KeyHashSize := by
        rw [hScriptHash]
        decide
      rw [if_pos hScriptHash, if_neg hNotKey]
      cases witness.getLast? with
      | none => exact .throw _
      | some scriptPubKey =>
        dsimp only
        rw [if_pos hScriptHash]
        exact .zero_bind (.errorIf _ _) fun _ => executeWitnessScript_callsLe _ _ _ _
    · rw [if_neg hScriptHash]
      refine .ite (fun hKey => ?_) fun _ => .throw _
      rw [if_pos hKey, ← getSigOpCountWith_payToPubKeyHash hKey]
      exact .zero_bind (.errorIf _ _) fun _ => executeWitnessScript_callsLe _ _ _ _
  · rw [if_neg hVersion, if_neg hVersion]
    exact .onFlag (.throw _)

/-- What `CountWitnessSigOps` counts for a script that may be a witness program. -/
def programSigOps (script : CScript) : Nat :=
  match isWitnessProgram script with
  | none => 0
  | some (version, program) => witnessSigOps version program witness

theorem verifyWitnessOf_callsLe (script : CScript) (malleated : Prop) [Decidable malleated] (e : ScriptError)
    (stack : List Bytes) {n : Nat}
    (hCount : hasFlag flags verifyWitness = true → ¬ malleated → programSigOps witness script ≤ n) :
    CallsLe n (verifyWitnessOf flags checker witness script malleated e stack) := by
  rw [verifyWitnessOf]
  refine .ite (fun hFlag => ?_) fun _ => .pure _
  rw [programSigOps] at hCount
  cases hProgram : isWitnessProgram script with
  | none => exact .pure _
  | some found =>
    obtain ⟨version, program⟩ := found
    rw [hProgram] at hCount
    refine .errorIf_bind fun hExact => .bind_zero ?_ fun _ => .pure _
    exact (verifyWitnessProgram_callsLe flags checker witness version program).mono (hCount hFlag hExact)

theorem requireTrue_callsLe (stack : List Bytes) : CallsLe 0 (requireTrue stack) :=
  .zero_bind (.errorIf _ _) fun _ => .errorIf _ _

theorem verifyP2SHScript_callsLe (scriptSig : CScript) (stackCopy : List Bytes) {k n : Nat}
    (hScript : isPushOnly scriptSig = true → (getSigOpCountWith true (stackCopy.headD [])).toNat ≤ k)
    (hWitness : hasFlag flags verifyWitness = true → isPushOnly scriptSig = true →
      scriptSig = pushBytes [] (stackCopy.headD []) → programSigOps witness (stackCopy.headD []) ≤ n) :
    CallsLe (k + n) (verifyP2SHScript flags checker witness scriptSig stackCopy) := by
  refine .errorIf_bind fun hNot => ?_
  have hPush := Bool.eq_true_of_not_eq_false hNot
  refine .zero_bind (.assert _) fun _ => .bind ((CallsLe.evalScript _ _ _).mono (hScript hPush)) fun stack =>
    .zero_bind (requireTrue_callsLe stack) fun _ => verifyWitnessOf_callsLe _ _ _ _ _ _ _ fun hFlag hExact => ?_
  exact hWitness hFlag hPush (not_not.mp hExact)

end

/-! ## The script behind a script hash

The item on top of the stack that a scriptSig of pushes leaves is the operand of its last operation, or a small number
that has no operand.
-/

namespace CScript

variable {pc rest : CScript} {opcode : UInt8} {data : Bytes}

theorem lastPush_fuel {fuel fuel' : Nat} (vData : Bytes) (hFuel : pc.length ≤ fuel) (hFuel' : pc.length ≤ fuel') :
    lastPush fuel pc vData = lastPush fuel' pc vData := by
  induction fuel generalizing fuel' pc vData with
  | zero =>
    obtain rfl := List.eq_nil_of_length_eq_zero (Nat.le_zero.mp hFuel)
    cases fuel' <;> rfl
  | succ fuel ih =>
    cases fuel' with
    | zero =>
      obtain rfl := List.eq_nil_of_length_eq_zero (Nat.le_zero.mp hFuel')
      rfl
    | succ fuel' =>
      rw [lastPush, lastPush]
      cases hOp : getOp pc with
      | error stopped => rfl
      | ok op =>
        obtain ⟨opcode, data, rest⟩ := op
        have hShorter := (getOp_suffix hOp).2
        dsimp only
        rw [ih data (by omega) (show rest.length ≤ fuel' by omega)]

theorem isSome_lastPush (fuel : Nat) (pc : CScript) (vData : Bytes) :
    (lastPush fuel pc vData).isSome = pushOnlyLoop fuel pc := by
  induction fuel generalizing pc vData with
  | zero => rfl
  | succ fuel ih =>
    rw [lastPush, pushOnlyLoop]
    by_cases hEmpty : pc.isEmpty = true
    · rw [if_pos hEmpty, if_pos hEmpty]
      rfl
    rw [if_neg hEmpty, if_neg hEmpty]
    cases getOp pc with
    | error stopped => rfl
    | ok op =>
      obtain ⟨opcode, data, rest⟩ := op
      dsimp only
      split
      · rfl
      · exact ih rest data

/-- A script of pushes goes on as one. -/
theorem lastPush_of_getOp {vData last : Bytes} (hOp : getOp pc = .ok (opcode, data, rest))
    (hLast : lastPush pc.length pc vData = some last) :
    opcode ≤ OP_16 ∧ lastPush rest.length rest data = some last := by
  have hShorter := (getOp_suffix hOp).2
  obtain ⟨k, hk⟩ : ∃ k, pc.length = k + 1 := ⟨pc.length - 1, by omega⟩
  rw [hk, lastPush, hOp] at hLast
  split at hLast
  case isTrue hEmpty =>
    rw [List.isEmpty_iff] at hEmpty
    rw [hEmpty] at hk
    cases hk
  case isFalse =>
    dsimp only at hLast
    split at hLast
    case isTrue => cases hLast
    case isFalse hLow =>
      refine ⟨UInt8.not_lt.mp hLow, ?_⟩
      rw [lastPush_fuel data (Nat.le_refl _) (show rest.length ≤ k by omega)]
      exact hLast

/-- An opcode above the pushes has no operand. -/
theorem operand_eq_nil (hOp : getOp pc = .ok (opcode, data, rest)) (hHigh : ¬ opcode ≤ OP_PUSHDATA4) : data = [] := by
  rcases pc with _ | ⟨opcode', pc⟩
  · cases hOp
  · obtain ⟨size, hPc, -⟩ := getOp_ok_iff.mp hOp
    rw [← (List.cons.inj hPc).1] at hHigh
    rw [getOp_plain pc hHigh] at hOp
    cases hOp
    rfl

/-- The small numbers, read as scripts, have no signature operations. -/
theorem getSigOpCountWith_smallNumber (opcode : UInt8) (hLow : ¬ opcode ≤ OP_PUSHDATA4) (hHigh : opcode ≤ OP_16) :
    getSigOpCountWith true (serializeNum ((opcode.toNat : Int) - 0x50)) = getSigOpCountWith true [] := by
  revert opcode
  apply forall_uint8
  decide +kernel

end CScript

namespace Env

variable (env : Env)

/-- The last operand is the item on top, or it is missing because that item is a small number. -/
def Shown (vData : Bytes) (m : Machine) : Prop :=
  m.stack.headD [] = vData ∨ (vData = [] ∧ ∃ opcode : UInt8, ¬ opcode ≤ OP_PUSHDATA4 ∧ opcode ≤ OP_16 ∧
    m.stack.headD [] = serializeNum ((opcode.toNat : Int) - 0x50))

theorem ofOpcode_low {opcode : UInt8} (hLow : ¬ opcode ≤ OP_PUSHDATA4) (hHigh : opcode ≤ OP_16) :
    Instruction.ofOpcode opcode = .unknown ∨ Instruction.ofOpcode opcode = .number ((opcode.toNat : Int) - 0x50) := by
  refine Instruction.forall_ofOpcode (P := fun opcode i => ¬ opcode ≤ OP_PUSHDATA4 → opcode ≤ OP_16 →
    i = .unknown ∨ i = .number ((opcode.toNat : Int) - 0x50)) (fun _ _ _ _ => .inr rfl) (fun _ _ _ => .inl rfl) (by decide)
    opcode hLow hHigh

theorem shown_of_reaches {script : CScript} {checks : Nat} {c : CScript × Machine} {last : Bytes}
    (hLast : lastPush script.length script [] = some last) (hReach : env.Reaches [] script checks c) :
    c.2.vfExec = [] ∧ ∃ vData, lastPush c.1.length c.1 vData = some last ∧ Shown vData c.2 := by
  induction hReach with
  | refl => exact ⟨rfl, [], hLast, .inl rfl⟩
  | tail _ hRound ih =>
    rename_i c c' _
    obtain ⟨pc, m⟩ := c
    obtain ⟨rest, m'⟩ := c'
    obtain ⟨hNone, vData, hData, hShown⟩ := ih
    obtain ⟨opcode, data, hOp, hStep⟩ := hRound
    obtain ⟨hHigh, hRest⟩ := lastPush_of_getOp hOp hData
    obtain ⟨-, hDispatched, -⟩ := ((env.step_ensures opcode data rest m).ok hStep).1
    have hExec : m.vfExec.all id = true := hNone ▸ rfl
    rw [hExec] at hDispatched
    cases hDispatched with
    | pushed _ _ => exact ⟨hNone, data, hRest, .inl rfl⟩
    | skipped hSkipped _ => cases hSkipped
    | executed hLow _ hDone =>
      have hLow : ¬ opcode ≤ OP_PUSHDATA4 := fun hLe => hLow ⟨rfl, hLe⟩
      obtain rfl := operand_eq_nil hOp hLow
      rcases ofOpcode_low hLow hHigh with hUnknown | hNumber
      · rw [hUnknown] at hDone
        cases hDone with
        | quiet hPlain _ => cases hPlain
      · rw [hNumber] at hDone
        cases hDone with
        | quiet hPlain _ => cases hPlain
        | numbered => exact ⟨hNone, [], hRest, .inr ⟨rfl, opcode, hLow, hHigh, rfl⟩⟩

end Env

/-- The accurate count of the script that a scriptSig of pushes leaves on top. -/
theorem getSigOpCountWith_top {env : Env} {scriptSig : CScript} {checks checks' : Nat} {stackCopy : List Bytes}
    (hPush : isPushOnly scriptSig = true) (hRun : evalScript env [] scriptSig checks = .ok stackCopy checks') :
    ∃ last, lastPush scriptSig.length scriptSig [] = some last ∧
      getSigOpCountWith true (stackCopy.headD []) = getSigOpCountWith true last := by
  rw [isPushOnly, ← isSome_lastPush _ _ [], Option.isSome_iff_exists] at hPush
  obtain ⟨last, hLast⟩ := hPush
  obtain ⟨-, m, hReach, -, rfl, -⟩ := (evalScript_ensures env [] scriptSig checks).ok hRun
  obtain ⟨-, vData, hData, hShown⟩ := env.shown_of_reaches hLast hReach
  cases hData
  refine ⟨last, hLast, ?_⟩
  rcases hShown with hTop | ⟨rfl, opcode, hLow, hHigh, hTop⟩
  · rw [hTop]
  · rw [hTop, getSigOpCountWith_smallNumber opcode hLow hHigh]

theorem length_of_isWitnessProgram {script : CScript} {found : Nat × Bytes} (h : isWitnessProgram script = some found) :
    script.length ≤ 42 := by
  unfold isWitnessProgram at h
  split at h
  case isTrue => cases h
  case isFalse hLength => omega

/-- The last operand of a single push. -/
theorem lastItem_pushBytes {data : Bytes} (hShort : data.length ≤ 42) :
    lastItem (pushBytes [] data).length (pushBytes [] data) [] = data := by
  have hPush : pushBytes [] data = UInt8.ofNat data.length :: ([] ++ data ++ []) := by
    rw [pushBytes, if_pos (by omega)]
    simp
  have hByte : (UInt8.ofNat data.length).toNat = data.length := UInt8.toNat_ofNat_of_lt' (Nat.lt_of_le_of_lt hShort (by decide))
  have hOp : getOp (pushBytes [] data) = .ok (UInt8.ofNat data.length, data, []) := by
    refine getOp_ok_iff.mpr ⟨[], hPush, ?_⟩
    rw [SizeBytes, if_pos]
    · exact ⟨rfl, hByte.symm⟩
    · rw [UInt8.lt_iff_toNat_lt, hByte]
      exact Nat.lt_of_le_of_lt hShort (by decide)
  rw [hPush, List.length_cons, ← hPush, lastItem, hOp, if_neg]
  · dsimp only
    cases ([] ++ data ++ []).length <;> rfl
  · rw [hPush]
    simp

theorem getSigOpCountWith_isPayToScriptHash {script : CScript} (hShape : isPayToScriptHash script = true) :
    (getSigOpCountWith true script).toNat = 0 := by
  obtain ⟨hash, hLength, rfl⟩ := exists_of_isPayToScriptHash hShape
  have hPush : getOp (0x14 :: (hash ++ [OP_EQUAL])) = .ok (0x14, hash, [OP_EQUAL]) :=
    getOp_ok_iff.mpr ⟨[], rfl, rfl, hLength⟩
  rw [toNat_getSigOpCountWith true, costFrom_of_getOp true _ (getOp_plain _ (by decide)),
    costFrom_of_getOp true _ hPush]
  · decide
  · simp only [List.length_cons, List.length_append, hLength]
    decide

theorem isWitnessProgram_of_isPayToScriptHash {script : CScript} (hShape : isPayToScriptHash script = true) :
    isWitnessProgram script = none := by
  obtain ⟨hash, hLength, rfl⟩ := exists_of_isPayToScriptHash hShape
  rw [isWitnessProgram, if_neg]
  · rfl
  · simp only [List.length_cons, List.length_append, hLength]
    decide

section

variable {flags : UInt32} (checker : BaseSignatureChecker) (witness : List Bytes) {scriptSig scriptPubKey : CScript}

open Verify

/-- What `VerifyScript` calls after the scriptSig, for a script hash. -/
theorem nested_callsLe (hWitness : hasFlag flags verifyWitness = true → hasFlag flags verifyP2SH = true)
    (hShape : isPayToScriptHash scriptPubKey = true)
    {stackCopy stack : List Bytes} (hTop : isPushOnly scriptSig = true → ∃ last,
      lastPush scriptSig.length scriptSig [] = some last ∧
        getSigOpCountWith true (stackCopy.headD []) = getSigOpCountWith true last) :
    CallsLe ((getSigOpCountP2SH scriptPubKey scriptSig).toNat +
        (countWitnessSigOps flags scriptSig scriptPubKey witness).getD 0)
      (verifyNested flags checker witness scriptSig scriptPubKey stackCopy stack) := by
  refine .ite (fun _ => verifyP2SHScript_callsLe _ _ _ _ _ ?_ ?_) fun _ => .pure _
  · intro hPush
    obtain ⟨last, hLast, hCount⟩ := hTop hPush
    rw [getSigOpCountP2SH, hShape, if_neg (by decide), hLast, hCount]
  · intro hFlag hPush hExact
    generalize stackCopy.headD [] = redeemScript at hExact ⊢
    rw [countWitnessSigOps, hFlag, hWitness hFlag, isWitnessProgram_of_isPayToScriptHash hShape, programSigOps]
    cases hProgram : isWitnessProgram redeemScript with
    | none => exact Nat.zero_le _
    | some found =>
      have hItem := lastItem_pushBytes (length_of_isWitnessProgram hProgram)
      rw [← hExact] at hItem
      simp [hItem, hProgram, hShape, hPush]

theorem bare_callsLe (hWitness : hasFlag flags verifyWitness = true → hasFlag flags verifyP2SH = true)
    (stack : List Bytes) :
    CallsLe ((countWitnessSigOps flags scriptSig scriptPubKey witness).getD 0)
      (verifyWitnessOf flags checker witness scriptPubKey (scriptSig.length ≠ 0) .witnessMalleated stack) := by
  refine verifyWitnessOf_callsLe _ _ _ _ _ _ _ fun hFlag _ => ?_
  rw [countWitnessSigOps, hFlag, hWitness hFlag, programSigOps]
  cases isWitnessProgram scriptPubKey with
  | none => exact Nat.zero_le _
  | some found => simp

theorem requireCleanStack_callsLe (stack : List Bytes) : CallsLe 0 (requireCleanStack flags stack) :=
  .onFlag (.zero_bind (.assert _) fun _ => .zero_bind (.assert _) fun _ => .errorIf _ _)

theorem requireExpectedWitness_callsLe (hadWitness : Bool) : CallsLe 0 (requireExpectedWitness flags hadWitness witness) :=
  .onFlag (.zero_bind (.assert _) fun _ => .errorIf _ _)

/-- What `VerifyScript` calls after the scriptSig. -/
theorem verifyScript_rest_callsLe
    (hWitness : hasFlag flags verifyWitness = true → hasFlag flags verifyP2SH = true) {stackCopy : List Bytes}
    (hTop : isPushOnly scriptSig = true → ∃ last, lastPush scriptSig.length scriptSig [] = some last ∧
      getSigOpCountWith true (stackCopy.headD []) = getSigOpCountWith true last) :
    CallsLe ((getSigOpCountP2SH scriptPubKey scriptSig).toNat +
        (countWitnessSigOps flags scriptSig scriptPubKey witness).getD 0) (do
      let stack ← evalScript ⟨flags, checker, .base⟩ stackCopy scriptPubKey
      requireTrue stack
      let bare ← verifyWitnessOf flags checker witness scriptPubKey (scriptSig.length ≠ 0) .witnessMalleated stack
      let nested ← verifyNested flags checker witness scriptSig scriptPubKey stackCopy bare.2
      requireCleanStack flags nested.2
      requireExpectedWitness flags (bare.1 || nested.1) witness) := by
  have hEnd : ∀ (stack : List Bytes) (hadWitness : Bool), CallsLe 0 (do
      requireCleanStack flags stack
      requireExpectedWitness flags hadWitness witness) := fun stack hadWitness =>
    .zero_bind (requireCleanStack_callsLe stack) fun _ => requireExpectedWitness_callsLe witness hadWitness
  cases hShape : isPayToScriptHash scriptPubKey with
  | true =>
    have hCount : (getSigOpCountWith true scriptPubKey).toNat ≤ 0 := (getSigOpCountWith_isPayToScriptHash hShape).le
    have hBare : ∀ stack, CallsLe 0
        (verifyWitnessOf flags checker witness scriptPubKey (scriptSig.length ≠ 0) .witnessMalleated stack) := by
      refine fun stack => verifyWitnessOf_callsLe _ _ _ _ _ _ _ fun _ _ => ?_
      rw [programSigOps, isWitnessProgram_of_isPayToScriptHash hShape]
    exact .zero_bind ((CallsLe.evalScript _ _ _).mono hCount) fun stack => .zero_bind (requireTrue_callsLe stack) fun _ =>
      .zero_bind (hBare stack) fun bare => .bind_zero (nested_callsLe checker witness hWitness hShape hTop) fun nested =>
      hEnd _ _
  | false =>
    have hCount : (getSigOpCountWith true scriptPubKey).toNat ≤ (getSigOpCountP2SH scriptPubKey scriptSig).toNat := by
      rw [getSigOpCountP2SH, hShape, if_pos (by decide)]
    have hNested : ∀ stack, CallsLe 0 (verifyNested flags checker witness scriptSig scriptPubKey stackCopy stack) := by
      intro stack
      rw [verifyNested, hShape, if_neg fun hBoth => Bool.false_ne_true hBoth.2]
      exact .pure _
    exact .bind ((CallsLe.evalScript _ _ _).mono hCount) fun stack => .zero_bind (requireTrue_callsLe stack) fun _ =>
      .bind_zero (bare_callsLe checker witness hWitness stack) fun bare => .zero_bind (hNested _) fun nested => hEnd _ _

end

/-- However `VerifyScript` ends, it has called the checker at most as often as the three counts of signature operations
add up to: the accurate one of the scriptSig, that of the output script or of the script behind its hash, and that of the
witness. The last one is counted only if script hashes are looked at too, as they are wherever witnesses are. -/
theorem verifyScript_calls_at_most_counted (flags : UInt32)
    (hWitness : hasFlag flags verifyWitness = true → hasFlag flags verifyP2SH = true) (checker : BaseSignatureChecker)
    (scriptSig scriptPubKey : CScript) (witness : List Bytes) (checks : Nat) :
    let counted := (getSigOpCountWith true scriptSig).toNat + (getSigOpCountP2SH scriptPubKey scriptSig).toNat +
      (countWitnessSigOps flags scriptSig scriptPubKey witness).getD 0
    Ensures (verifyScript flags checker scriptSig scriptPubKey witness) checks
      (fun _ checks' => checks' ≤ checks + counted) (fun _ checks' => checks' ≤ checks + counted) := by
  intro counted
  have hFlag : Verify.CallsLe 0 (onFlag flags verifySigpushonly (errorIf (isPushOnly scriptSig = false) .sigPushonly)) :=
    .onFlag (.errorIf _ _)
  refine .bind ((hFlag checks).mono (fun _ _ h => h) fun _ _ h => h.trans (Nat.add_le_add_left (Nat.zero_le _) _)) ?_
  intro _ checks₁ hChecks₁
  have hSig := evalScript_checks_le true ⟨flags, checker, .base⟩ [] scriptSig checks₁
  cases hRun : evalScript ⟨flags, checker, .base⟩ [] scriptSig checks₁ with
  | error halt checks₂ =>
    have hLe := hSig.error hRun
    refine .of_error (bind_error hRun) ?_
    omega
  | ok stackCopy checks₂ =>
    have hLe := hSig.ok hRun
    have hTop := fun hPush => getSigOpCountWith_top hPush hRun
    rw [Ensures, bind_ok hRun]
    refine (verifyScript_rest_callsLe checker witness hWitness hTop checks₂).mono (fun _ checks' h => ?_) fun _ checks' h => ?_
    · omega
    · omega

/-- A key hash behind a witness: one call is counted and one is made. -/
theorem verifyScript_calls_at_most_counted_keyHash :
    let flags := verifyP2SH ||| verifyWitness
    let witness : List Bytes := [[7], [8]]
    let scriptPubKey : CScript := OP_0 :: 0x14 :: hash160 [8]
    Ensures (verifyScript flags ⟨fun _ _ _ _ => true, fun _ => true, fun _ => true⟩ [] scriptPubKey witness) 0
      (fun _ checks' => checks' ≤ 0 + ((getSigOpCountWith true []).toNat + (getSigOpCountP2SH scriptPubKey []).toNat +
        (countWitnessSigOps flags [] scriptPubKey witness).getD 0))
      (fun _ checks' => checks' ≤ 0 + ((getSigOpCountWith true []).toNat + (getSigOpCountP2SH scriptPubKey []).toNat +
        (countWitnessSigOps flags [] scriptPubKey witness).getD 0)) :=
  verifyScript_calls_at_most_counted _ (by decide) _ _ _ _ 0

end BitcoinGpuMiner
