import BitcoinGpuMiner.Model.VerifyScript
import BitcoinGpuMiner.Script.Runs

/-! # `VerifyScript` never fails an assertion

The flags must come as the source asks for: `CLEANSTACK` with `P2SH` and `WITNESS`, and `WITNESS` with `P2SH`. The flags
of a block do. The stack that a script hash is checked against has an item because the output script, which hashes one,
has run on it before.
-/

namespace BitcoinGpuMiner

set_option autoImplicit false

open CScript Foundation ScriptValidation

structure FlagsAllowed (flags : UInt32) : Prop where
  cleanstack : hasFlag flags verifyCleanstack = true → hasFlag flags verifyP2SH = true ∧ hasFlag flags verifyWitness = true
  witness : hasFlag flags verifyWitness = true → hasFlag flags verifyP2SH = true

/-- Programs that end with a value or with an error of the script. -/
def Verify.Safe {α : Type} (p : Verify α) : Prop :=
  ∀ checks, Ensures p checks (fun _ _ => True) (fun halt _ => ∃ e, halt = .error e)

namespace Verify.Safe

variable {α β : Type}

theorem pure (a : α) : Safe (Pure.pure a : Verify α) := fun _ => .pure trivial

theorem throw (e : ScriptError) : Safe (MonadExcept.throw (Halt.error e) : Verify α) := fun _ => .throw ⟨e, rfl⟩

theorem bind {p : Verify α} {f : α → Verify β} (hFirst : Safe p) (hRest : ∀ a, Safe (f a)) : Safe (p >>= f) :=
  fun checks => .bind (hFirst checks) fun a checks' _ => hRest a checks'

theorem ite {c : Prop} [Decidable c] {p q : Verify α} (hThen : c → Safe p) (hElse : ¬ c → Safe q) :
    Safe (if c then p else q) := fun checks => .ite (fun h => hThen h checks) fun h => hElse h checks

theorem errorIf (c : Prop) [Decidable c] (e : ScriptError) : Safe (errorIf c e) := ite (fun _ => throw e) fun _ => pure ()

theorem onFlag {flags flag : UInt32} {p : Verify Unit} (h : hasFlag flags flag = true → Safe p) :
    Safe (onFlag flags flag p) := ite h fun _ => pure ()

theorem assert {c : Prop} [Decidable c] (h : c) : Safe (assert c) := by
  rw [assert_of h]
  exact pure ()

theorem evalScript (env : Env) (stack : List Bytes) (script : CScript) : Safe (evalScript env stack script) :=
  fun checks => (evalScript_ensures env stack script checks).mono (fun _ _ _ => trivial) fun _ _ hStop => hStop.1

end Verify.Safe

section

variable (flags : UInt32) (checker : BaseSignatureChecker) (witness : List Bytes)

open Verify

theorem safe_executeWitnessScript (stack : List Bytes) (scriptPubKey : CScript) :
    Safe (executeWitnessScript flags checker stack scriptPubKey) :=
  .bind (.errorIf _ _) fun _ => .bind (.evalScript _ _ _) fun _ => .bind (.errorIf _ _) fun _ => .errorIf _ _

theorem safe_verifyWitnessProgram (witversion : Nat) (program : Bytes) :
    Safe (verifyWitnessProgram flags checker witness witversion program) := by
  rw [verifyWitnessProgram]
  refine .ite (fun _ => .ite (fun _ => ?_) fun _ => .ite (fun _ => ?_) fun _ => .throw _) fun _ => .onFlag fun _ => .throw _
  · cases witness.getLast? with
    | none => exact .throw _
    | some scriptPubKey => exact .bind (.errorIf _ _) fun _ => safe_executeWitnessScript _ _ _ _
  · exact .bind (.errorIf _ _) fun _ => safe_executeWitnessScript _ _ _ _

theorem safe_requireTrue (stack : List Bytes) : Safe (requireTrue stack) := .bind (.errorIf _ _) fun _ => .errorIf _ _

theorem safe_verifyWitnessOf (script : CScript) (malleated : Prop) [Decidable malleated] (e : ScriptError)
    (stack : List Bytes) : Safe (verifyWitnessOf flags checker witness script malleated e stack) := by
  rw [verifyWitnessOf]
  refine .ite (fun _ => ?_) fun _ => .pure _
  cases isWitnessProgram script with
  | none => exact .pure _
  | some found => exact .bind (.errorIf _ _) fun _ => .bind (safe_verifyWitnessProgram _ _ _ _ _) fun _ => .pure _

theorem safe_verifyP2SHScript (scriptSig : CScript) {stackCopy : List Bytes} (hSome : stackCopy ≠ []) :
    Safe (verifyP2SHScript flags checker witness scriptSig stackCopy) :=
  .bind (.errorIf _ _) fun _ => .bind (.assert hSome) fun _ => .bind (.evalScript _ _ _) fun _ =>
    .bind (safe_requireTrue _) fun _ => safe_verifyWitnessOf _ _ _ _ _ _ _

end

theorem exists_of_isPayToScriptHash {script : CScript} (hShape : isPayToScriptHash script = true) :
    ∃ hash : Bytes, hash.length = 20 ∧ script = OP_HASH160 :: 0x14 :: (hash ++ [OP_EQUAL]) := by
  simp only [isPayToScriptHash, Bool.and_eq_true, beq_iff_eq] at hShape
  obtain ⟨⟨⟨hLength, hFirst⟩, hSecond⟩, hLast⟩ := hShape
  rcases script with _ | ⟨first, _ | ⟨second, rest⟩⟩
  · cases hFirst
  · cases hSecond
  cases hFirst
  cases hSecond
  rcases rest.eq_nil_or_concat' with rfl | ⟨hash, last, rfl⟩
  · cases hLength
  have hHash : hash.length = 20 := by
    simp only [List.length_cons, List.length_append, List.length_nil] at hLength
    omega
  refine ⟨hash, hHash, ?_⟩
  rw [List.getElem?_cons_succ, List.getElem?_cons_succ, List.getElem?_append_right (by omega), hHash] at hLast
  cases hLast
  rfl

/-- A script that begins with `OP_HASH160` fails on an empty stack. -/
theorem evalScript_hash160_nil {env : Env} {pc : CScript} {checks checks' : Nat} {stack : List Bytes} :
    evalScript env [] (OP_HASH160 :: pc) checks ≠ .ok stack checks' := by
  have hStep : env.step OP_HASH160 [] pc (Machine.start [] (OP_HASH160 :: pc) checks) =
      .error (.error .invalidStackOperation) (Env.counted OP_HASH160 (Machine.start [] (OP_HASH160 :: pc) checks)) := by
    rw [env.step_exec rfl ⟨by decide, fun _ => show 0 + 1 ≤ maxOpsPerScript by decide, by decide, by decide⟩]
    rfl
  intro hOk
  rw [evalScript] at hOk
  split at hOk
  · cases hOk
  · rw [List.length_cons, env.evalLoop_cons (by decide), bind_error hStep] at hOk
    cases hOk

/-- The stack in front of the output script is not empty if that script is one for a script hash and succeeds. -/
theorem evalScript_nonempty (env : Env) (stackCopy : List Bytes) (script : CScript) (checks : Nat) :
    Ensures (evalScript env stackCopy script) checks (fun _ _ => isPayToScriptHash script = true → stackCopy ≠ [])
      (fun halt _ => ∃ e, halt = .error e) := by
  cases hRun : evalScript env stackCopy script checks with
  | error halt checks' => exact .of_error hRun ((Verify.Safe.evalScript env stackCopy script checks).error hRun)
  | ok stack checks' =>
    refine .of_ok hRun fun hShape hEmpty => ?_
    obtain ⟨hash, -, rfl⟩ := exists_of_isPayToScriptHash hShape
    subst hEmpty
    exact evalScript_hash160_nil hRun

theorem safe_verifyScript {flags : UInt32} (hFlags : FlagsAllowed flags) (checker : BaseSignatureChecker)
    (scriptSig scriptPubKey : CScript) (witness : List Bytes) :
    (verifyScript flags checker scriptSig scriptPubKey witness).Safe := by
  refine .bind (.onFlag fun _ => .errorIf _ _) fun _ => .bind (.evalScript _ _ _) fun stackCopy => ?_
  have hClean : ∀ stack, Verify.Safe (requireCleanStack flags stack) := fun stack => .onFlag fun hFlag =>
    .bind (.assert (hFlags.cleanstack hFlag).1) fun _ => .bind (.assert (hFlags.cleanstack hFlag).2) fun _ => .errorIf _ _
  have hExpected : ∀ hadWitness, Verify.Safe (requireExpectedWitness flags hadWitness witness) := fun hadWitness =>
    .onFlag fun hFlag => .bind (.assert (hFlags.witness hFlag)) fun _ => .errorIf _ _
  refine fun checks => .bind (evalScript_nonempty _ stackCopy scriptPubKey checks) fun stack checks' hSome => ?_
  refine Verify.Safe.bind (safe_requireTrue stack) (fun _ => .bind (safe_verifyWitnessOf _ _ _ _ _ _ _) fun bare =>
    .bind (.ite (fun hNested => ?_) fun _ => .pure _) fun nested => .bind (hClean _) fun _ => hExpected _) checks'
  exact safe_verifyP2SHScript _ _ _ _ (hSome hNested.2)

/-! ## The flags of a block -/

theorem hasFlag_or (a b flag : UInt32) : hasFlag (a ||| b) flag = (hasFlag a flag || hasFlag b flag) := by
  have hAnd : (a ||| b) &&& flag = (a &&& flag) ||| (b &&& flag) := by
    apply UInt32.toBitVec_inj.mp
    apply BitVec.eq_of_getLsbD_eq
    intro i hi
    simp [Bool.and_or_distrib_right]
  rw [hasFlag, hasFlag, hasFlag, hAnd, Bool.eq_iff_iff]
  simp only [bne_iff_ne, ne_eq, UInt32.or_eq_zero_iff, Bool.or_eq_true, not_and_or]

theorem hasFlag_ite (c : Prop) [Decidable c] (flag flag' : UInt32) :
    hasFlag (if c then flag else 0) flag' = (decide c && hasFlag flag flag') := by
  split
  case isTrue h => simp [h]
  case isFalse h => simp [h, hasFlag]

/-- A block is never checked with `CLEANSTACK`, and with `WITNESS` only if `P2SH` is on as well. -/
theorem flagsAllowed_getBlockScriptFlags (index : BlockIndex) : FlagsAllowed (getBlockScriptFlags index) := by
  have hClean : hasFlag verifyP2SH verifyCleanstack = false ∧ hasFlag verifyWitness verifyCleanstack = false ∧
      hasFlag verifyDersig verifyCleanstack = false ∧ hasFlag verifyCheckLockTimeVerify verifyCleanstack = false ∧
      hasFlag verifyCheckSequenceVerify verifyCleanstack = false ∧ hasFlag verifyNulldummy verifyCleanstack = false := by
    decide
  have hWitness : hasFlag verifyP2SH verifyWitness = false ∧ hasFlag verifyDersig verifyWitness = false ∧
      hasFlag verifyCheckLockTimeVerify verifyWitness = false ∧ hasFlag verifyCheckSequenceVerify verifyWitness = false ∧
      hasFlag verifyNulldummy verifyWitness = false := by decide
  have hP2SH : hasFlag verifyP2SH verifyP2SH = true := by decide
  constructor
  · intro hOn
    simp [getBlockScriptFlags, hasFlag_or, hasFlag_ite, hClean] at hOn
  · intro hOn
    simp only [getBlockScriptFlags, hasFlag_or, hasFlag_ite, hWitness, Bool.and_false, Bool.false_or, Bool.or_false,
      Bool.and_eq_true, decide_eq_true_eq] at hOn
    simp only [getBlockScriptFlags, hasFlag_or, hasFlag_ite, hOn.1.1, hP2SH, decide_true, Bool.and_self, Bool.true_or]

/-- With flags that go together, as those of every block do, `VerifyScript` ends in success or with a script error: no
assertion fails, nothing is read outside of a buffer and no exception leaves it, whatever the two scripts, the witness
and the answers of the checker are. -/
theorem verifyScript_stops_only_with_script_errors :
    (∀ index : BlockIndex, FlagsAllowed (getBlockScriptFlags index)) ∧
      ∀ (flags : UInt32) (checker : BaseSignatureChecker) (scriptSig scriptPubKey : CScript) (witness : List Bytes)
        (checks checks' : Nat) (halt : Halt), FlagsAllowed flags →
        verifyScript flags checker scriptSig scriptPubKey witness checks = .error halt checks' →
        ∃ e, halt = .error e := by
  refine ⟨flagsAllowed_getBlockScriptFlags, ?_⟩
  intro flags checker scriptSig scriptPubKey witness checks checks' halt hFlags hRun
  exact (safe_verifyScript hFlags checker scriptSig scriptPubKey witness checks).error hRun

end BitcoinGpuMiner
